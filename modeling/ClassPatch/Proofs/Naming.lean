-- What the labels and temporaries of a template stand for at one place: a
-- bound label for the host's, any other for one that the host never had; a
-- captured temporary for its slot. The instructions that a splice puts in
-- are the template's under these names.
import ClassPatch.Proofs.Fragments
import ClassPatch.Proofs.Inserted

namespace ClassPatch

namespace Code

/-! ## Labels of a copy -/

/-- Numbers below the next one, no two labels with the same. -/
structure Numbered (m : Std.HashMap Label Label) : Prop where
  counted : Counted m
  apart : ∀ l l' k : Label, m[l]? = some k → m[l']? = some k → l = l'

theorem numbered_number {m : Std.HashMap Label Label} (h : Numbered m) (l : Label) :
    Numbered (number m l) := by
  refine ⟨counted_number h.counted l, ?_⟩
  unfold number
  split
  · exact h.apart
  · have hnew : ∀ k : Label, m[k]? ≠ some m.size := fun k hk =>
      Nat.lt_irrefl _ (h.counted k _ hk)
    intro k k' n hk hk'
    rw [Std.HashMap.getElem?_insert] at hk hk'
    by_cases he : k = l <;> by_cases he' : k' = l
    · rw [he, he']
    · rw [if_pos (by simp [he]), Option.some.injEq] at hk
      rw [if_neg (by simpa using Ne.symm he'), ← hk] at hk'
      exact absurd hk' (hnew k')
    · rw [if_pos (by simp [he']), Option.some.injEq] at hk'
      rw [if_neg (by simpa using Ne.symm he), ← hk'] at hk
      exact absurd hk (hnew k)
    · rw [if_neg (by simpa using Ne.symm he)] at hk
      rw [if_neg (by simpa using Ne.symm he')] at hk'
      exact h.apart k k' n hk hk'

/-- A copy keeps mentioned labels apart. -/
theorem relabel_inj {c : Code} {l l' : Label} (hl : l ∈ c.mentioned) (hl' : l' ∈ c.mentioned)
    (h : c.relabel l = c.relabel l') : l = l' := by
  have hn : Numbered c.numbering :=
    List.foldlRecOn c.mentioned number ⟨by simp [Counted], by simp⟩
      fun m hm k _ => numbered_number hm k
  exact hn.apart l l' _ (getElem?_numbering hl) (h ▸ getElem?_numbering hl')

/-! ## Bound labels -/

end Code

/-- The host's label that a binding gives for a label of the code, by the last of its names. -/
def Binding.host? (b : Binding) (code : Code) (l : Label) : Option Label :=
  b.labels.reverse.findSome? fun e => if code.names.get? e.1 = some l then some e.2 else none

namespace Code

theorem mentioned_of_name {code : Code} {name : String} {l : Label}
    (h : code.names.get? name = some l) : l ∈ code.mentioned :=
  List.mem_append_right _ (List.mem_map_of_mem (f := (·.2)) (Dict.mem_of_get? h))

theorem mentioned_of_host? {b : Binding} {code : Code} {l h : Label}
    (hl : b.host? code l = some h) : l ∈ code.mentioned := by
  obtain ⟨e, _, he⟩ := List.exists_of_findSome?_eq_some hl
  split at he
  · exact mentioned_of_name ‹_›
  · cases he

theorem imports_importLabel (pulled : Bool) (c : Code) (e : String × Label) :
    (c.importLabel pulled e).imports = match c.names.get? e.1 with
      | some own => c.imports.insert own ⟨e.2, pulled⟩
      | none => c.imports := by
  unfold importLabel
  cases c.names.get? e.1 <;> rfl

/-- A copy imports what its labels are bound to, and nothing else. -/
theorem get?_imports_bind {pulled : Bool} {b : Binding} {code : Code} {l : Label}
    (hl : l ∈ code.mentioned) :
    (code.copy.bind pulled b).imports.get? (code.relabel l) =
      (b.host? code l).map (⟨·, pulled⟩) := by
  have key : ∀ entries : Dict String Label,
      (entries.foldl (importLabel pulled) code.copy).names = code.copy.names ∧
      (entries.foldl (importLabel pulled) code.copy).imports.get? (code.relabel l) =
        (entries.reverse.findSome? fun e =>
          if code.names.get? e.1 = some l then some e.2 else none).map (⟨·, pulled⟩) := by
    intro entries
    induction entries using List.reverseRecOn with
    | nil => simp [imports_copy, Dict.get?]
    | append_singleton entries e ih =>
      obtain ⟨hnames, himports⟩ := ih
      rw [List.foldl_append, List.foldl_cons, List.foldl_nil, List.reverse_append,
        List.reverse_singleton, List.singleton_append, List.findSome?_cons]
      refine ⟨(importLabel_other ..).2.2.2.trans hnames, ?_⟩
      rw [imports_importLabel, hnames, names_copy]
      cases hk : code.names.get? e.1 with
      | none => simpa using himports
      | some k =>
        by_cases he : k = l
        · simp [he, Dict.get?_insert_self]
        · have hne : code.relabel l ≠ code.relabel k := fun h =>
            he (relabel_inj (mentioned_of_name hk) hl h.symm)
          simpa [he, Dict.get?_insert_of_ne hne] using himports
  exact (key b.labels).2

theorem toList_bind_copy (pulled : Bool) (b : Binding) (code : Code) :
    (code.copy.bind pulled b).toList = code.toList.map (Insn.mapLabels code.relabel) := by
  obtain ⟨hstore, horder, _⟩ := bind_other pulled b code.copy
  rw [← toList_copy, toList, hstore, horder]
  rfl

/-! ## Nodes changed once -/

/-- A change that does the same when made again is made once at every node in place. -/
theorem toList_mapNodes {f : Node → Node} (hf : ∀ i, f (f i) = f i) (c : Code) :
    (c.mapNodes f).toList = c.toList.map f := by
  have hrep : ∀ n i, Nat.repeat f (n + 1) i = f i := by
    intro n i
    induction n with
    | zero => rfl
    | succ n ih =>
      rw [Nat.repeat, ih, hf]
  unfold toList nodesOf
  rw [List.map_filterMap]
  apply List.filterMap_congr
  intro h hh
  have hh : h ∈ c.order.toList := hh
  obtain ⟨n, hn⟩ := Nat.exists_eq_succ_of_ne_zero (Nat.ne_of_gt (List.count_pos_iff.2 hh))
  rw [getElem?_mapNodes, hn]
  cases c.store[h]? with
  | none => rfl
  | some i => exact congrArg some (hrep n i)

theorem bindLocal_bindLocal (slots : Dict UInt16 UInt16) (x : Local) :
    bindLocal slots (bindLocal slots x) = bindLocal slots x := by
  cases x with
  | slot n => rfl
  | temp t =>
    cases h : slots.get? t with
    | none => simp [bindLocal, h]
    | some s => simp [bindLocal, h]

theorem toList_bindTemps (slots : Dict UInt16 UInt16) (c : Code) :
    (c.bindTemps slots).toList = c.toList.map (Insn.mapLocal (bindLocal slots)) := by
  apply toList_mapNodes
  intro i
  cases i <;> simp [Insn.mapLocal, bindLocal_bindLocal]

theorem mapLocal_congr {f g : Local → Local} {i : Node}
    (h : ∀ x w, i.access? = some (x, w) → f x = g x) : i.mapLocal f = i.mapLocal g := by
  cases i <;> simp_all [Insn.mapLocal, Insn.access?]

theorem mapLabels_mapLocal (f : Label → Label) (g : Local → Local) (i : Node) :
    (i.mapLocal g).mapLabels f = (i.mapLabels f).mapLocal g := by
  cases i <;> rfl

theorem isReal_mapLocal (f : Local → Local) (i : Node) : (i.mapLocal f).isReal = i.isReal := by
  cases i <;> rfl

end Code

/-! ## Slots of temporaries -/

theorem Method.bound_of_captured {m : Method} {fragment : Code} {t s s' : UInt16}
    (hs : fragment.captured.get? t = some s)
    (hs' : (m.slotsFor fragment).bound.get? t = some s') : s' = s := by
  have key : ∀ t s', (m.slotsFor fragment).bound.get? t = some s' →
      ∀ s, fragment.captured.get? t = some s → s' = s := by
    refine List.foldlRecOn (motive := fun sl : Slots => ∀ t s', sl.bound.get? t = some s' →
      ∀ s, fragment.captured.get? t = some s → s' = s) fragment.temps _ ?_ ?_
    · exact fun t s' h => nomatch h
    · intro sl h temp _
      unfold Slots.give
      split
      · rename_i slot hslot
        apply Dict.forall_get?_insert (p := fun t s' =>
          ∀ s, fragment.captured.get? t = some s → s' = s) _ h
        intro s hs
        rw [hslot] at hs
        exact Option.some.inj hs
      · rename_i hnone
        apply Dict.forall_get?_insert (p := fun t s' =>
          ∀ s, fragment.captured.get? t = some s → s' = s) _ h
        intro s hs
        rw [hnone] at hs
        cases hs
  exact key t s' hs' s hs

/-! ## A template at a place -/

section Place
variable (m : Method) (code : Code) (pulled : Bool) (b : Binding)

/-- What goes into the method: a bound copy, with slots for its temporaries. -/
def fragmentFor : Code :=
  (code.copy.bind pulled b).bindTemps (m.slotsFor (code.copy.bind pulled b)).bound

/-- What the labels and temporaries of the code stand for in the method. -/
def namingFor : Assignment where
  label l := (Code.adopt m.code (fragmentFor m code pulled b)).map (code.relabel l)
  slot t := (b.slots.get? t).getD
    (((m.slotsFor (code.copy.bind pulled b)).bound.get? t).getD 0)

/-- The code binds a label that it mentions to nothing of the host. -/
def Unbound (l : Label) : Prop := l ∈ code.mentioned ∧ b.host? code l = none

variable {m code pulled b}

theorem toList_fragmentFor : (fragmentFor m code pulled b).toList =
    (code.toList.map (Insn.mapLabels code.relabel)).map
      (Insn.mapLocal (Code.bindLocal (m.slotsFor (code.copy.bind pulled b)).bound)) := by
  rw [fragmentFor, Code.toList_bindTemps, Code.toList_bind_copy]

theorem issued_fragmentFor {l : Label} (hl : l ∈ code.mentioned) :
    code.relabel l ∈ (fragmentFor m code pulled b).issued := by
  apply (Code.mem_issued_mapNodes (Code.keepsLabels_mapLocal _)).2
  rw [Code.issued, (Code.bind_other pulled b code.copy).1]
  exact Code.issued_copy hl

/-- A fragment binds labels of the host if its binding names such. -/
theorem binds_fragmentFor {host : Code} (hb : ∀ e ∈ b.labels, e.2 ∈ host.issued) :
    (fragmentFor m code pulled b).Binds host := by
  intro l i hi
  exact Code.binds_bind hb l i hi

/-- A bound label stands for what it is bound to. -/
theorem label_of_host? (ho : OwnHandles m.code.store) {l h : Label} (hl : b.host? code l = some h) :
    (namingFor m code pulled b).label l = h := by
  have hmem := Code.mentioned_of_host? hl
  have himport : (fragmentFor m code pulled b).imports.get? (code.relabel l) = some ⟨h, pulled⟩ := by
    refine (Code.get?_imports_bind hmem).trans ?_
    rw [hl]
    rfl
  exact Code.map_of_bound ho (issued_fragmentFor hmem) himport

/-- Any other label stands for one of its own, which the host did not have. -/
theorem label_of_unbound (ho : OwnHandles m.code.store) {l : Label} (hl : Unbound code b l) :
    m.code.store.size ≤ (namingFor m code pulled b).label l ∧
      (Code.adopt m.code (fragmentFor m code pulled b)).host.store[
        (namingFor m code pulled b).label l]? = some (.label ((namingFor m code pulled b).label l)) ∧
      ∀ l', Unbound code b l' →
        (namingFor m code pulled b).label l = (namingFor m code pulled b).label l' → l = l' := by
  have hnone : ∀ k, Unbound code b k →
      (fragmentFor m code pulled b).imports.get? (code.relabel k) = none := by
    intro k hk
    refine (Code.get?_imports_bind hk.1).trans ?_
    rw [hk.2]
    rfl
  obtain ⟨_, hle, hstored⟩ := Code.map_of_unbound ho (issued_fragmentFor hl.1) (hnone l hl)
  refine ⟨hle, hstored, fun l' hl' he => Code.relabel_inj hl.1 hl'.1 ?_⟩
  exact Code.map_inj_of_unbound ho (issued_fragmentFor hl.1) (issued_fragmentFor hl'.1)
    (hnone l hl) (hnone l' hl') he

/-- A node of the template becomes what it stands for. -/
theorem mapLabels_fragmentFor {i : Node} (hi : i ∈ code.toList) :
    ((i.mapLabels code.relabel).mapLocal
      (Code.bindLocal (m.slotsFor (code.copy.bind pulled b)).bound)).mapLabels
        (Code.adopt m.code (fragmentFor m code pulled b)).map =
      (namingFor m code pulled b).onNode i := by
  rw [Code.mapLabels_mapLocal, Insn.mapLabels_mapLabels]
  apply Code.mapLocal_congr
  intro x w hx
  rw [Insn.access?_mapLabels] at hx
  cases x with
  | slot n => rfl
  | temp t =>
    have hin : i.mapLabels code.relabel ∈ (code.copy.bind pulled b).toList := by
      rw [Code.toList_bind_copy]
      exact List.mem_map_of_mem hi
    have hsome := m.slotsFor_covers hin (t := t) (w := w) (by rw [Insn.access?_mapLabels, hx])
    obtain ⟨s, hs⟩ := Option.isSome_iff_exists.1 hsome
    have hslot : (namingFor m code pulled b).slot t = s := by
      simp only [namingFor, hs, Option.getD_some]
      cases hc : b.slots.get? t with
      | none => rfl
      | some s' => exact (Method.bound_of_captured hc hs).symm
    simp only [Code.bindLocal, hs, Option.map_some, Option.getD_some, Assignment.onLocal, hslot]

/-- The instructions that a splice of the template puts in are the template's. -/
theorem realNodes_template (h : m.code.Stored)
    (hb : (fragmentFor m code pulled b).Binds m.code) (index count : Nat) :
    realNodes (Code.insertion m.code index count (fragmentFor m code pulled b)) =
      (realNodes code.toList).map (namingFor m code pulled b).onNode := by
  rw [Code.realNodes_insertion h hb, toList_fragmentFor,
    realNodes_map (Code.isReal_mapLocal _), realNodes_map (Insn.isReal_mapLabels _),
    List.map_map, List.map_map]
  apply List.map_congr_left
  intro i hi
  exact mapLabels_fragmentFor (List.mem_of_mem_filter hi)

end Place

/-! ## New bodies -/

/-- A method without code gets the nodes of its body, their labels as new
ones and their temporaries as slots. -/
theorem Method.toList_prepend_copy {m : Method} (h : m.code = {}) {code : Code}
    (hn : (markers code.toList).Nodup) : ∃ (f : Label → Label) (g : Local → Local),
      (m.prepend code.copy).2.code.toList = code.toList.map fun i => (i.mapLabels f).mapLocal g := by
  let fragment := code.copy.bindTemps (m.slotsFor code.copy).bound
  have hlist : fragment.toList = (code.toList.map (Insn.mapLabels code.relabel)).map
      (Insn.mapLocal (Code.bindLocal (m.slotsFor code.copy).bound)) := by
    rw [Code.toList_bindTemps, Code.toList_copy]
  have hmarkers : markers fragment.toList = (markers code.toList).map code.relabel := by
    rw [hlist, ← Code.markers_map, markers, List.filterMap_map]
    exact List.filterMap_congr fun i _ => (Code.keepsLabels_mapLocal fun _ => _).marker i
  have hnodup : (markers fragment.toList).Nodup := by
    rw [hmarkers]
    refine List.pairwise_map.2 (hn.imp_of_mem fun {l l'} hl hl' hne he => hne ?_)
    have hin : ∀ k ∈ markers code.toList, k ∈ code.mentioned := fun k hk =>
      List.mem_append_left _ (List.mem_append_left _
        (List.mem_flatMap.2 ⟨_, mem_markers.1 hk, List.mem_singleton_self _⟩))
    exact Code.relabel_inj (hin l hl) (hin l' hl') he
  have hstored : m.code.Stored := by
    rw [h]
    decide
  have hnodes : m.code.toList = [] := by
    rw [h]
    rfl
  have himports : fragment.imports = [] := Code.imports_copy code
  have hbinds : fragment.Binds m.code := Code.binds_copy code m.code
  refine ⟨fun l => (Code.adopt m.code fragment).map (code.relabel l),
    Code.bindLocal (m.slotsFor code.copy).bound, ?_⟩
  change (m.code.splice 0 0 fragment).2.toList = _
  rw [Code.toList_splice hstored hbinds, Code.insertion_of_unbound hstored himports hnodup, hnodes,
    hlist, List.map_map, List.map_map, List.take_nil, List.drop_nil, List.append_nil,
    List.nil_append]
  refine List.map_congr_left fun i _ => ?_
  simp only [Function.comp_def, Code.mapLabels_mapLocal, Insn.mapLabels_mapLabels]

end ClassPatch
