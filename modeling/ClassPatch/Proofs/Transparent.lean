-- Searching renumbered code. New slots change what a match captures, and not
-- where it stands: where a needle names no slots but those of parameters, and
-- accesses each of its temporaries at one width, it occurs in the renumbered
-- code where it did before, and what it captured is renamed with the code.
import ClassPatch.Proofs.Captures
import ClassPatch.Proofs.Occurrences
import ClassPatch.Proofs.Packed

namespace ClassPatch

open Method

/-! ## Maps with other values -/

namespace Dict

variable {κ α β : Type} [DecidableEq κ]

/-- The map with its values changed, each by its key. -/
def mapValues (g : κ → α → β) (d : Dict κ α) : Dict κ β := d.map fun e => (e.1, g e.1 e.2)

theorem get?_mapValues (g : κ → α → β) (d : Dict κ α) (k : κ) :
    (d.mapValues g).get? k = (d.get? k).map (g k) := by
  induction d with
  | nil => rfl
  | cons e d ih =>
    obtain ⟨k', v⟩ := e
    unfold get? mapValues at ih ⊢
    rw [List.map_cons, List.find?_cons, List.find?_cons]
    by_cases hk : k' = k
    · subst hk
      simp
    · simp only [hk, decide_false]
      exact ih

theorem insert_mapValues [LT κ] [DecidableLT κ] (g : κ → α → β) (d : Dict κ α) (k : κ) (v : α) :
    (insert k v d).mapValues g = insert k (g k v) (d.mapValues g) := by
  induction d with
  | nil => rfl
  | cons e d ih =>
    have hcons : ∀ (e : κ × α) (d : Dict κ α),
        mapValues g (e :: d) = (e.1, g e.1 e.2) :: d.mapValues g := fun _ _ => rfl
    rw [hcons, insert, insert]
    split
    · rfl
    · split
      · rfl
      · rw [hcons, ih]

end Dict

/-! ## What is renamed, and what the renaming must respect -/

/-- The region with the slots of its temporaries renamed, each at the temporary's width. -/
def Region.renamed (width : UInt16 → Nat) (f : Use → UInt16) (r : Region) : Region :=
  { r with slots := r.slots.mapValues fun t n => f (n, width t) }

/-- Every slot of the region is among the uses, at its temporary's width. -/
def Region.Drawn (us : List Use) (width : UInt16 → Nat) (r : Region) : Prop :=
  ∀ t n, r.slots.get? t = some n → (n, width t) ∈ us

/-- A renaming of uses splits and joins none of one width, and gives no use the slot of
a parameter but one that had it. -/
structure Method.Separates (params : Nat) (us : List Use) (f : Use → UInt16) : Prop where
  inj : ∀ u ∈ us, ∀ v ∈ us, u.2 = v.2 → (f u = f v ↔ u.1 = v.1)
  low : ∀ u ∈ us, ∀ n : UInt16, n.toNat < params → (n = f u ↔ n = u.1)

theorem Method.Packs.separates {params limit : Nat} {us : List Use} {f : Use → UInt16}
    (h : Packs params us f limit) : Separates params us f := by
  have hlow : ∀ u ∈ us, ∀ n : UInt16, n.toNat < params → (n = f u ↔ n = u.1) := by
    intro u hu n hn
    by_cases hp : u.1.toNat < params
    · rw [h.stays u hu hp]
    · have hf := (h.clear u hu (Nat.not_lt.1 hp)).1
      constructor
      · rintro rfl
        exact absurd hn (Nat.not_lt.2 hf)
      · rintro rfl
        exact absurd hn hp
  refine ⟨fun u hu v hv hw => ?_, hlow⟩
  by_cases hpu : u.1.toNat < params
  · rw [h.stays u hu hpu]
    exact hlow v hv u.1 hpu
  · by_cases hpv : v.1.toNat < params
    · rw [h.stays v hv hpv, eq_comm, hlow u hu v.1 hpv, eq_comm]
    · rw [h.same u hu v hv (Nat.not_lt.1 hpu) (Nat.not_lt.1 hpv), Prod.ext_iff]
      exact and_iff_left hw

namespace Code

/-- The width of a temporary, which is that of its widest access. -/
def tempWidth (c : Code) (t : UInt16) : Nat := (c.temps.get? t).getD 0

/-- Each temporary is accessed at one width only. -/
def OneWidth (c : Code) : Prop :=
  ∀ a ∈ tempAccesses c.toList, ∀ b ∈ tempAccesses c.toList, a.1 = b.1 → a.2 = b.2

instance (c : Code) : Decidable c.OneWidth := by
  unfold OneWidth
  infer_instance

theorem OneWidth.tempWidth_eq {c : Code} (h : c.OneWidth) {a : UInt16 × Nat}
    (ha : a ∈ tempAccesses c.toList) : c.tempWidth a.1 = a.2 := by
  obtain ⟨w, hw⟩ := exists_widest ha
  rw [tempWidth, get?_temps.2 hw]
  exact h _ hw.used _ ha rfl

/-- The node accesses no slot but that of a parameter, and a temporary at its width. -/
structure Modest (params : Nat) (width : UInt16 → Nat) (i : Node) : Prop where
  slot : ∀ n w, i.access? = some (.slot n, w) → n.toNat < params
  temp : ∀ t w, i.access? = some (.temp t, w) → width t = w

/-- The slot that the node accesses is among the uses. -/
def Covered (us : List Use) (i : Node) : Prop := ∀ n w, i.access? = some (.slot n, w) → (n, w) ∈ us

section Renaming
variable {params : Nat} {us : List Use} {f : Use → UInt16} {width : UInt16 → Nat}

/-! ## Nodes renamed -/

theorem isPseudo_renameSlot (i : Node) : (renameSlot f i).isPseudo = i.isPseudo := by
  cases i <;> rfl

theorem marker?_renameSlot (i : Node) : (renameSlot f i).marker? = i.marker? := by
  cases i <;> rfl

theorem ctorIdx_renameSlot (i : Node) : (renameSlot f i).ctorIdx = i.ctorIdx := by
  cases i <;> rfl

theorem lead_renameSlot (host : List Node) :
    lead (host.map (renameSlot f)) = (lead host).map (renameSlot f) := by
  unfold lead
  rw [List.takeWhile_map]
  congr 2
  exact funext isPseudo_renameSlot

theorem past_renameSlot (host : List Node) :
    past (host.map (renameSlot f)) = (past host).map (renameSlot f) := by
  unfold past
  rw [List.dropWhile_map]
  congr 2
  exact funext isPseudo_renameSlot

theorem markers_renameSlot (nodes : List Node) :
    markers (nodes.map (renameSlot f)) = markers nodes := by
  unfold markers
  rw [List.filterMap_map]
  congr 1
  exact funext marker?_renameSlot

/-! ## Turns on both sides -/

namespace Ties

/-- The ties with the slots of temporaries renamed. -/
def renamed (width : UInt16 → Nat) (f : Use → UInt16) (t : Ties) : Ties :=
  { t with slots := t.slots.mapValues fun n s => f (s, width n) }

/-- Every slot that is tied is among the uses, at its temporary's width. -/
def Drawn (us : List Use) (width : UInt16 → Nat) (t : Ties) : Prop :=
  ∀ n s, t.slots.get? n = some s → (s, width n) ∈ us

/-- The two results of a turn: the second is the first renamed, and the first has
slots that are among the uses only. -/
structure Along (us : List Use) (width : UInt16 → Nat) (f : Use → UInt16)
    (x y : Option Ties) : Prop where
  eq : y = x.map (renamed width f)
  drawn : ∀ t ∈ x, t.Drawn us width

theorem along_none : Along us width f none none := ⟨rfl, nofun⟩

theorem along_some {t : Ties} (ht : t.Drawn us width) :
    Along us width f (some t) (some (t.renamed width f)) :=
  ⟨rfl, fun _ h => Option.some.inj h ▸ ht⟩

theorem along_if {p : Prop} [Decidable p] {x y : Option Ties} (h : Along us width f x y) :
    Along us width f (if p then x else none) (if p then y else none) := by
  split
  · exact h
  · exact along_none

theorem Along.bind {x y : Option Ties} (h : Along us width f x y) {g g' : Ties → Option Ties}
    (hg : ∀ t, t.Drawn us width → Along us width f (g t) (g' (t.renamed width f))) :
    Along us width f (x.bind g) (y.bind g') := by
  rw [h.eq]
  cases hx : x with
  | none => exact along_none
  | some t => exact hg t (h.drawn t hx)

variable {t : Ties}

theorem along_target (ht : t.Drawn us width) (needle host : Label) :
    Along us width f (t.target needle host) ((t.renamed width f).target needle host) := by
  unfold target
  dsimp only [renamed]
  split
  · exact along_if (along_some ht)
  · split
    · exact along_if (along_some ht)
    · exact along_some ht

theorem along_marker (ht : t.Drawn us width) (run : List Label) (needle : Label) :
    Along us width f (t.marker run needle) ((t.renamed width f).marker run needle) := by
  unfold marker
  dsimp only [renamed]
  split
  · exact along_if (along_some ht)
  · exact along_some ht

/-- The slots that a temporary met are told apart after the renaming as before. -/
theorem along_local (h : Separates params us f) (ht : t.Drawn us width) {x y : Local} {w : Nat}
    (hslot : ∀ n, x = .slot n → n.toNat < params) (htemp : ∀ n, x = .temp n → width n = w)
    (hy : ∀ s, y = .slot s → (s, w) ∈ us) :
    Along us width f (t.local? x y) ((t.renamed width f).local? x (renameLocal f w y)) := by
  cases y with
  | temp m =>
    simp only [local?, renameLocal]
    exact along_if (along_some ht)
  | slot s =>
    have hs := hy s rfl
    cases x with
    | slot n =>
      have hn : Local.slot n = .slot (f (s, w)) ↔ Local.slot n = .slot s := by
        rw [Local.slot.injEq, Local.slot.injEq]
        exact h.low _ hs n (hslot n rfl)
      simp only [local?, renameLocal, hn]
      exact along_if (along_some ht)
    | temp n =>
      have hw := htemp n rfl
      subst hw
      simp only [local?, renameLocal]
      have hget : (t.renamed width f).slots.get? n = (t.slots.get? n).map fun s => f (s, width n) :=
        Dict.get?_mapValues (fun n s => f (s, width n)) t.slots n
      rw [hget]
      cases hold : t.slots.get? n with
      | some s' =>
        have hsame := h.inj _ (ht n s' hold) _ hs rfl
        simp only [Option.map_some, hsame]
        exact along_if (along_some ht)
      | none =>
        have hins := Dict.insert_mapValues (fun n s => f (s, width n)) t.slots n s
        refine ⟨?_, fun t' ht' => ?_⟩
        · simp only [Option.map_none, Option.map_some, renamed, hins]
        · cases ht'
          exact Dict.forall_get?_insert hs ht

theorem along_targets (ht : t.Drawn us width) (needle host : List Label) :
    Along us width f (matchTargets t needle host)
      (matchTargets (t.renamed width f) needle host) := by
  induction needle generalizing host t with
  | nil =>
    cases host with
    | nil => exact along_some ht
    | cons => exact along_none
  | cons n ns ih =>
    cases host with
    | nil => exact along_none
    | cons l ls =>
      have he : ∀ t, matchTargets t (n :: ns) (l :: ls) =
          (target t n l).bind fun t => matchTargets t ns ls := by
        intro t
        simp only [matchTargets]
        cases target t n l <;> rfl
      rw [he, he]
      exact (along_target ht n l).bind fun t ht => ih ht ls

theorem along_markers (ht : t.Drawn us width) (run labels : List Label) :
    Along us width f (labels.foldlM (marker run) t)
      (labels.foldlM (marker run) (t.renamed width f)) := by
  induction labels generalizing t with
  | nil => exact along_some ht
  | cons l ls ih =>
    rw [List.foldlM_cons, List.foldlM_cons]
    exact (along_marker ht run l).bind fun t ht => ih ht

/-- A node of the needle meets a renamed node as it meets the node itself. -/
theorem along_node (h : Separates params us f) (ht : t.Drawn us width) {i j : Node}
    (hi : Modest params width i) (hj : Covered us j) :
    Along us width f (matchNode t i j) (matchNode (t.renamed width f) i (renameSlot f j)) := by
  by_cases hk : i.ctorIdx = j.ctorIdx
  · cases i <;> cases j <;> try (exfalso; cases hk; done)
    case label.label | line.line => exact along_none
    case simple.simple | int.int | ldc.ldc | field.field | method.method | type.type =>
      exact along_if (along_some ht)
    case var.var op x op' y =>
      simp only [matchNode, renameSlot]
      by_cases hop : op = op'
      · subst hop
        rw [if_pos rfl, if_pos rfl]
        refine along_local h ht (w := op.slotWidth) ?_ ?_ ?_
        · rintro n rfl
          exact hi.slot n _ rfl
        · rintro n rfl
          exact hi.temp n _ rfl
        · rintro s rfl
          exact hj s _ rfl
      · rw [if_neg hop, if_neg hop]
        exact along_none
    case iinc.iinc x d y d' =>
      simp only [matchNode, renameSlot]
      refine along_if (along_local h ht (w := 1) ?_ ?_ ?_)
      · rintro n rfl
        exact hi.slot n _ rfl
      · rintro n rfl
        exact hi.temp n _ rfl
      · rintro s rfl
        exact hj s _ rfl
    case jump.jump op l op' l' => exact along_if (along_target ht l l')
    case tableSwitch.tableSwitch low d ts low' d' ts' =>
      exact along_if (along_targets ht (d :: ts) (d' :: ts'))
    case lookupSwitch.lookupSwitch d ps d' ps' =>
      exact along_if (along_targets ht (d :: ps.map (·.2)) (d' :: ps'.map (·.2)))
  · rw [matchNode_of_ctorIdx_ne hk, matchNode_of_ctorIdx_ne (by rwa [ctorIdx_renameSlot])]
    exact along_none

end Ties

/-! ## Whole matches -/

theorem Covered.of_mem {nodes : List Node} (h : ∀ u ∈ slotAccesses nodes, u ∈ us) {i : Node}
    (hi : i ∈ nodes) : Covered us i :=
  fun _ _ ha => h _ (mem_slotAccesses.2 ⟨i, hi, ha⟩)

/-- What pieces give in renamed nodes: the same place, and the ties renamed. -/
theorem along_pieces (h : Separates params us f) {ps : List Piece}
    (hps : ∀ p ∈ ps, ∀ i ∈ p.nodes, Modest params width i) {host : List Node}
    (hh : ∀ j ∈ host, Covered us j) (index : Nat) {t : Ties} (ht : t.Drawn us width) :
    matchPieces (t.renamed width f) index ps (host.map (renameSlot f)) =
        (matchPieces t index ps host).map (fun r => (r.1.renamed width f, r.2)) ∧
      ∀ r ∈ matchPieces t index ps host, r.1.Drawn us width := by
  induction ps generalizing host index t with
  | nil => exact ⟨rfl, fun _ hr => Option.some.inj hr ▸ ht⟩
  | cons p ps ih =>
    obtain ⟨hfirst, hothers⟩ := List.forall_mem_cons.1 hps
    have hpast : ∀ j ∈ past host, Covered us j :=
      fun j hj => hh j ((List.dropWhile_sublist _).subset hj)
    cases p with
    | place ls =>
      by_cases hrun : markers (lead host) = []
      · have hrun' : markers (lead (host.map (renameSlot f))) = [] := by
          rwa [lead_renameSlot, markers_renameSlot]
        rw [matchPieces_place_of_nil _ _ _ _ hrun, matchPieces_place_of_nil _ _ _ _ hrun']
        exact ⟨rfl, nofun⟩
      · have hrun' : markers (lead (host.map (renameSlot f))) ≠ [] := by
          rwa [lead_renameSlot, markers_renameSlot]
        rw [matchPieces_place _ _ _ _ hrun, matchPieces_place _ _ _ _ hrun', lead_renameSlot,
          past_renameSlot, markers_renameSlot, List.length_map]
        have hturn := Ties.along_markers (f := f) ht (markers (lead host)) ls
        rw [hturn.eq]
        cases hx : ls.foldlM (Ties.marker (markers (lead host))) t with
        | none => exact ⟨rfl, nofun⟩
        | some t' => exact ih hothers hpast _ (hturn.drawn t' hx)
    | node i =>
      cases hrest : past host with
      | nil =>
        have hrest' : past (host.map (renameSlot f)) = [] := by rw [past_renameSlot, hrest]; rfl
        rw [matchPieces_node_of_nil _ _ _ _ hrest, matchPieces_node_of_nil _ _ _ _ hrest']
        exact ⟨rfl, nofun⟩
      | cons j rest =>
        have hrest' : past (host.map (renameSlot f)) =
            renameSlot f j :: rest.map (renameSlot f) := by rw [past_renameSlot, hrest]; rfl
        rw [hrest] at hpast
        obtain ⟨hj, hpast⟩ := List.forall_mem_cons.1 hpast
        rw [matchPieces_node _ _ _ _ hrest, matchPieces_node _ _ _ _ hrest', lead_renameSlot,
          List.length_map]
        have hturn := Ties.along_node h ht (hfirst i (List.mem_singleton_self i)) hj
        rw [hturn.eq]
        cases hx : matchNode t i j with
        | none => exact ⟨rfl, nofun⟩
        | some t' => exact ih hothers hpast _ (hturn.drawn t' hx)

theorem startsWell_renameSlot (ps : List Piece) (i : Node) :
    startsWell ps (renameSlot f i) = startsWell ps i := by
  cases ps with
  | nil => rfl
  | cons p ps => cases p <;> cases i <;> rfl

theorem keepsRanges_renameSlot (ends : Std.HashSet Label) (inner : List Node) :
    keepsRanges ends (inner.map (renameSlot f)) = keepsRanges ends inner := by
  unfold keepsRanges
  rw [List.all_map]
  congr 1
  funext i
  simp only [Function.comp, marker?_renameSlot]

theorem along_occurrence? (h : Separates params us f) {ps : List Piece}
    (hps : ∀ p ∈ ps, ∀ i ∈ p.nodes, Modest params width i) {host : List Node}
    (hh : ∀ j ∈ host, Covered us j) (ends : Std.HashSet Label) (start : Nat) :
    occurrence? ends ps start (host.map (renameSlot f)) =
        (occurrence? ends ps start host).map (Region.renamed width f) ∧
      ∀ r ∈ occurrence? ends ps start host, r.Drawn us width := by
  have hnone : ∀ r ∈ (none : Option Region), r.Drawn us width := nofun
  cases host with
  | nil => exact ⟨rfl, hnone⟩
  | cons i rest =>
    have hempty : Ties.Drawn us width {} := nofun
    obtain ⟨heq, hdrawn⟩ := along_pieces h hps hh start hempty
    have heq : matchPieces {} start ps (renameSlot f i :: rest.map (renameSlot f)) = _ := heq
    rw [List.map_cons]
    simp only [occurrence?, startsWell_renameSlot, heq]
    split
    · cases hm : matchPieces {} start ps (i :: rest) with
      | none => exact ⟨rfl, hnone⟩
      | some r =>
        simp only [Option.map_some, ← List.map_take, keepsRanges_renameSlot]
        split
        · exact ⟨rfl, fun _ hr => Option.some.inj hr ▸ hdrawn r hm⟩
        · exact ⟨rfl, hnone⟩
    · exact ⟨rfl, hnone⟩

theorem along_findFrom (h : Separates params us f) {ps : List Piece}
    (hps : ∀ p ∈ ps, ∀ i ∈ p.nodes, Modest params width i) {nodes : List Node}
    (hh : ∀ j ∈ nodes, Covered us j) (ends : Std.HashSet Label) {found : List Region}
    (hf : ∀ r ∈ found, r.Drawn us width) (skip start : Nat) :
    findFrom ends ps (found.map (Region.renamed width f)) skip start (nodes.map (renameSlot f)) =
        (findFrom ends ps found skip start nodes).map (Region.renamed width f) ∧
      ∀ r ∈ findFrom ends ps found skip start nodes, r.Drawn us width := by
  induction nodes generalizing found skip start with
  | nil => exact ⟨List.map_reverse.symm, fun r hr => hf r (List.mem_reverse.1 hr)⟩
  | cons i rest ih =>
    have hrest := (List.forall_mem_cons.1 hh).2
    cases skip with
    | succ skip => exact ih hrest hf skip (start + 1)
    | zero =>
      obtain ⟨heq, hdrawn⟩ := along_occurrence? h hps hh ends start
      rw [List.map_cons] at heq ⊢
      unfold findFrom
      simp only [heq]
      cases hr : occurrence? ends ps start (i :: rest) with
      | none => exact ih hrest hf 0 (start + 1)
      | some r => exact ih hrest (List.forall_mem_cons.2 ⟨hdrawn r hr, hf⟩) _ (start + 1)

end Renaming

theorem nodes_sub_of_mem_pieces {needle : List Node} {p : Piece} (hp : p ∈ pieces needle) :
    ∀ i ∈ p.nodes, i ∈ needle := by
  intro i hi
  have hmem : i ∈ withoutLines needle := by
    rw [← nodes_pieces]
    exact List.mem_flatMap.2 ⟨p, hp, hi⟩
  exact List.mem_of_mem_filter hmem

/-- What is found in code whose slots are renamed. -/
theorem findAll_renamed {m m' : Method} {needle : Code} {params : Nat} {f : Use → UInt16}
    (hr : Renamed f m m') (h : Separates params m.uses f)
    (hslots : ∀ a ∈ slotAccesses needle.toList, a.1.toNat < params) (hwidth : needle.OneWidth) :
    m'.code.findAll needle = (m.code.findAll needle).map (Region.renamed needle.tempWidth f) ∧
      ∀ r ∈ m.code.findAll needle, r.Drawn m.uses needle.tempWidth := by
  have hends : m'.code.boundaries = m.code.boundaries := by
    have hcode := congrArg Method.code hr.rest
    unfold boundaries
    rw [hcode]
  have hmodest : ∀ p ∈ pieces needle.toList, ∀ i ∈ p.nodes,
      Modest params needle.tempWidth i := by
    intro p hp i hi
    have hi := nodes_sub_of_mem_pieces hp i hi
    refine ⟨fun n w ha => hslots (n, w) (mem_slotAccesses.2 ⟨i, hi, ha⟩), fun t w ha => ?_⟩
    have ht : (t, w) ∈ tempAccesses needle.toList := mem_tempAccesses.2 ⟨i, hi, ha⟩
    exact hwidth.tempWidth_eq ht
  have hcovered : ∀ j ∈ m.code.toList, Covered m.uses j :=
    fun j hj => Covered.of_mem (fun u hu => List.mem_append_left _ hu) hj
  have hfound : ∀ r ∈ ([] : List Region), r.Drawn m.uses needle.tempWidth := nofun
  unfold findAll
  rw [hr.nodes, hends]
  split
  · exact ⟨rfl, nofun⟩
  · exact along_findFrom h hmodest hcovered _ hfound 0 0

end Code

/-- A needle that names slots of parameters only, and has each of its temporaries at one
width, is found in the renumbered method at the places where it was found before, with
the same labels. Each slot that it captured is renamed as it is renamed in the code. -/
theorem Method.renumbering_is_transparent {m : Method} {needle : Code} {params : Nat}
    (hc : m.code.Unshared) (hp : m.paramSlots = .ok params)
    (hsize : packedSize params m.uses ≤ 65535)
    (hslots : ∀ a ∈ Code.slotAccesses needle.toList, a.1.toNat < params)
    (hwidth : needle.OneWidth) :
    ∃ m' f, m.renumber = .ok m' ∧ Renamed f m m' ∧
      m'.code.findAll needle = (m.code.findAll needle).map (Region.renamed needle.tempWidth f) ∧
      ∀ r ∈ m.code.findAll needle, r.Drawn m.uses needle.tempWidth := by
  obtain ⟨m', hm, hr, _⟩ := renumber_eq_ok hc hp
  have hpacks := packs_packing m.uses_pos hsize
  exact ⟨m', _, hm, hr, Code.findAll_renamed hr hpacks.separates hslots hwidth⟩

/-- A method that stores its parameter twice, the second time where a wide value was. -/
def Method.storingTwice : Method where
  access := 8
  name := "m"
  desc := "(I)V"
  code := Code.empty.pushAll
    [.simple .DCONST_0, .var .DSTORE (.slot 9), .var .ILOAD (.slot 0), .var .ISTORE (.slot 5),
      .var .ILOAD (.slot 0), .var .ISTORE (.slot 9), .simple .RETURN]

/-- A store of the parameter to any slot. -/
def Code.storeAnywhere : Code :=
  Code.empty.pushAll [.var .ILOAD (.slot 0), .var .ISTORE (.temp 3)]

theorem Method.storingTwice_is_transparent :
    (Method.storingTwice.code.Unshared ∧ Method.storingTwice.paramSlots = .ok 1 ∧
      packedSize 1 Method.storingTwice.uses ≤ 65535 ∧
      (∀ a ∈ Code.slotAccesses Code.storeAnywhere.toList, a.1.toNat < 1) ∧
      Code.storeAnywhere.OneWidth) ∧
    ∃ m' f, Method.storingTwice.renumber = .ok m' ∧ Renamed f Method.storingTwice m' ∧
      m'.code.findAll Code.storeAnywhere = (Method.storingTwice.code.findAll Code.storeAnywhere).map
        (Region.renamed Code.storeAnywhere.tempWidth f) ∧
      ∀ r ∈ Method.storingTwice.code.findAll Code.storeAnywhere,
        r.Drawn Method.storingTwice.uses Code.storeAnywhere.tempWidth := by
  have hcode : Method.storingTwice.code.Unshared := by decide +kernel
  have hparams : Method.storingTwice.paramSlots = .ok 1 := by decide +kernel
  have hsize : packedSize 1 Method.storingTwice.uses ≤ 65535 := by decide +kernel
  have hslots : ∀ a ∈ Code.slotAccesses Code.storeAnywhere.toList, a.1.toNat < 1 := by decide +kernel
  have hwidth : Code.storeAnywhere.OneWidth := by decide +kernel
  exact ⟨⟨hcode, hparams, hsize, hslots, hwidth⟩,
    Method.renumbering_is_transparent hcode hparams hsize hslots hwidth⟩

end ClassPatch
