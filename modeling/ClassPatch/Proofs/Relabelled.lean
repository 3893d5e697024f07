-- The writer sees labels only by what they are tied to. Code whose labels are
-- renamed one to one, whatever else is stored with it, has the same bytes or
-- is refused for a fault of the same kind.
import ClassPatch.Proofs.RoundTrip

namespace ClassPatch

/-! ## Alike results -/

/-- The faults are of one kind; the labels and the texts in them may differ. -/
def Fault.SameKind (f g : Fault) : Prop := f.ctorIdx = g.ctorIdx

/-- Both give the same result, or both fail for faults of one kind. -/
inductive Alike {α : Type} : Except Fault α → Except Fault α → Prop
  | ok (a : α) : Alike (.ok a) (.ok a)
  | error {f g : Fault} (h : f.SameKind g) : Alike (.error f) (.error g)

namespace Alike
variable {α β γ : Type}

theorem refl (x : Except Fault α) : Alike x x := by
  cases x with
  | ok a => exact .ok a
  | error f => exact .error rfl

theorem bind {x y : Except Fault α} {f g : α → Except Fault β} (hxy : Alike x y)
    (hfg : ∀ a, x = .ok a → Alike (f a) (g a)) : Alike (x >>= f) (y >>= g) := by
  cases hxy with
  | ok a => exact hfg a rfl
  | error h => exact .error h

/-- A check of each item, and the check of what each item became. -/
theorem forM {f : α → Except Fault Unit} {g : β → Except Fault Unit} {k : α → β} {xs : List α}
    (h : ∀ x ∈ xs, Alike (f x) (g (k x))) : Alike (xs.forM f) ((xs.map k).forM g) := by
  induction xs with
  | nil => exact .ok ()
  | cons x xs ih =>
    apply bind (h x (List.mem_cons_self ..))
    intro _ _
    exact ih fun y hy => h y (List.mem_cons_of_mem _ hy)

end Alike

/-- Whatever the pool is, both give the same result and leave the same pool, or
both fail for faults of one kind. -/
def Builder.Alike {α : Type} (x y : Builder α) : Prop := ∀ b, ClassPatch.Alike (x b) (y b)

namespace Builder.Alike
variable {α β γ : Type}

theorem refl (x : Builder α) : Builder.Alike x x := fun _ => .refl _

theorem lift {x y : Except Fault α} (h : ClassPatch.Alike x y) :
    Builder.Alike (liftM x : Builder α) (liftM y) :=
  fun _ => h.bind fun _ _ => .refl _

theorem bind {x y : Builder α} {f g : α → Builder β} (hxy : Builder.Alike x y)
    (hfg : ∀ a b b', x b = .ok (a, b') → Builder.Alike (f a) (g a)) :
    Builder.Alike (x >>= f) (y >>= g) :=
  fun b => (hxy b).bind fun r hr => hfg r.1 b r.2 hr r.2

theorem forM {f : α → Builder Unit} {g : β → Builder Unit} {k : α → β} {xs : List α}
    (h : ∀ x ∈ xs, Builder.Alike (f x) (g (k x))) :
    Builder.Alike (xs.forM f) ((xs.map k).forM g) := by
  induction xs with
  | nil => exact refl _
  | cons x xs ih =>
    apply bind (h x (List.mem_cons_self ..))
    intro _ _ _ _
    exact ih fun y hy => h y (List.mem_cons_of_mem _ hy)

theorem mapM {r : α → β → Prop} {f : α → Builder γ} {g : β → Builder γ} {xs : List α} {ys : List β}
    (h : List.Forall₂ r xs ys) (hfg : ∀ x y, r x y → Builder.Alike (f x) (g y)) :
    Builder.Alike (xs.mapM f) (ys.mapM g) := by
  induction h with
  | nil => exact refl _
  | cons hxy _ ih =>
    rw [List.mapM_cons, List.mapM_cons]
    apply bind (hfg _ _ hxy)
    intro _ _ _ _
    apply bind ih
    intro _ _ _ _
    exact refl _

theorem map {f : α → Builder γ} {g : β → Builder γ} {k : α → β} {xs : List α}
    (h : ∀ x ∈ xs, Builder.Alike (f x) (g (k x))) :
    Builder.Alike (xs.mapM f) ((xs.map k).mapM g) :=
  mapM (List.forall₂_map_right_iff.2 (List.forall₂_same.2 h)) fun _ _ h => h

end Builder.Alike

/-! ## Labels under other names -/

/-- What the one table says of a label the other one says of its new name. -/
def Renames (f : Label → Label) (index index' : Std.HashMap Label Nat) (l : Label) : Prop :=
  index'[f l]? = index[l]?

/-- Where a marker stands is not changed by a renaming that keeps its label apart. -/
theorem renames_markerIndex {f : Label → Label} {nodes : List Node} {l : Label}
    (hf : ∀ k ∈ markers nodes, f k = f l → k = l) :
    Renames f (markerIndex nodes) (markerIndex (nodes.map (Insn.mapLabels f))) l := by
  unfold Renames
  induction nodes using List.reverseRecOn with
  | nil => simp [markerIndex]
  | append_singleton nodes i ih =>
    have ih := ih fun k hk => hf k (by rw [markers_append]; exact List.mem_append_left _ hk)
    rw [List.map_append, List.map_singleton, markerIndex_concat, markerIndex_concat,
      Insn.marker?_mapLabels, List.length_map]
    cases hi : i.marker? with
    | none => exact ih
    | some k =>
      have hk : k ∈ markers (nodes ++ [i]) := by
        rw [markers_append, markers_cons, hi]
        simp
      by_cases hkl : k = l
      · subst hkl
        simp
      · have hne : f k ≠ f l := fun h => hkl (hf k hk h)
        simp [Std.HashMap.getElem?_insert, hkl, hne, ih]

theorem Renames.contains {f : Label → Label} {index index' : Std.HashMap Label Nat} {l : Label}
    (h : Renames f index index' l) : index'.contains (f l) = index.contains l := by
  rw [Std.HashMap.contains_eq_isSome_getElem?, Std.HashMap.contains_eq_isSome_getElem?, h]

/-- The targets of the node are renamed. -/
def Insn.Renamed (f : Label → Label) (index index' : Std.HashMap Label Nat) (i : Node) : Prop :=
  ∀ l ∈ i.targets, Renames f index index' l

namespace Insn
variable {α β : Type}

theorem stackDelta_mapLabels (f : α → β) (i : Insn α) :
    (i.mapLabels f).stackDelta = i.stackDelta := by
  cases i <;> rfl

theorem endsFlow_mapLabels (f : α → β) (i : Insn α) : (i.mapLabels f).endsFlow = i.endsFlow := by
  cases i <;> rfl

end Insn

/-! ## The depth of the stack -/

namespace Code

section
variable {f : Label → Label} {index index' : Std.HashMap Label Nat}

theorem successors_mapLabels {i : Node} (hi : i.Renamed f index index') (size k : Nat) :
    successors index' size k (i.mapLabels f) = successors index size k i := by
  unfold successors
  rw [Insn.targets_mapLabels, Insn.endsFlow_mapLabels, List.filterMap_map]
  congr 1
  exact List.filterMap_congr hi

theorem visit_mapLabels {node : Node} (hi : node.Renamed f index index') (size : Nat) (s : Spread)
    (i : Nat) : s.visit index' size i (node.mapLabels f) = s.visit index size i node := by
  unfold Spread.visit depthAfter
  rw [successors_mapLabels hi, Insn.stackDelta_mapLabels]

end

end Code

/-! ## The layout -/

namespace Layout
variable {f : Label → Label} {index index' : Std.HashMap Label Nat} {items : List Item}

theorem placeOf_renamed (l : Layout) {label : Label} (h : Renames f index index' label) :
    l.placeOf index' (f label) = l.placeOf index label := by
  unfold placeOf
  rw [h]

theorem place_mapLabels (f : Label → Label) (wide : Std.HashSet Nat) (items : List Item) :
    place wide (mapNodes (Insn.mapLabels f) items) = place wide items := by
  unfold place mapNodes
  have hadd : ∀ p (item : Item), Placing.add wide p { item with node := item.node.mapLabels f } =
      Placing.add wide p item := by
    intro p item
    unfold Placing.add
    rw [Instruction.size_mapLabels]
  simp only [List.foldl_map, hadd]

theorem widens_mapLabels (l : Layout) (i : Nat) {node : Node} (h : node.Renamed f index index') :
    l.widens index' i (node.mapLabels f) = l.widens index i node := by
  cases node with
  | jump op target =>
    simp only [widens, Insn.mapLabels, l.placeOf_renamed (h target (List.mem_singleton_self _))]
  | _ => rfl

theorem foldlM_congr {ε α β : Type} {g h : β → α → Except ε β} {xs : List α}
    (hgh : ∀ b, ∀ x ∈ xs, g b x = h b x) (b : β) : xs.foldlM g b = xs.foldlM h b := by
  induction xs generalizing b with
  | nil => rfl
  | cons x xs ih =>
    rw [List.foldlM_cons, List.foldlM_cons, hgh b x (List.mem_cons_self ..)]
    exact bind_congr fun c => ih (fun b y hy => hgh b y (List.mem_cons_of_mem _ hy)) c

theorem growing_mapLabels (l : Layout) (h : ∀ item ∈ items, item.node.Renamed f index index') :
    l.growing index' (mapNodes (Insn.mapLabels f) items) = l.growing index items := by
  unfold growing mapNodes
  rw [List.zipIdx_map, List.foldlM_map]
  apply foldlM_congr
  rintro found ⟨item, i⟩ he
  have hitem : item ∈ items := List.mem_of_getElem? (List.mem_zipIdx_iff_getElem?.1 he)
  simp only [Prod.map, l.widens_mapLabels i (h item hitem), id_eq]

theorem settle_mapLabels (signature : String)
    (h : ∀ item ∈ items, item.node.Renamed f index index') (rounds : Nat)
    (wide : Std.HashSet Nat) :
    settle signature index' (mapNodes (Insn.mapLabels f) items) rounds wide =
      settle signature index items rounds wide := by
  induction rounds generalizing wide with
  | zero => rfl
  | succ rounds ih =>
    unfold settle
    simp only [place_mapLabels, growing_mapLabels _ h, ih]

/-- Renamed items are laid out in the same way. -/
theorem layOut_mapLabels (signature : String)
    (h : ∀ item ∈ items, item.node.Renamed f index index') :
    layOut signature index' (mapNodes (Insn.mapLabels f) items) = layOut signature index items := by
  unfold layOut
  rw [settle_mapLabels signature h, mapNodes, List.length_map]

end Layout

/-! ## Methods -/

/-- Every label that the method mentions. -/
def Method.labels (m : Method) : List Label :=
  m.code.toList.flatMap Insn.labels ++ m.code.handlers.toList.flatMap Handler.labels ++
    m.locals.flatMap fun v => [v.start, v.stop]

/-- The second method is the first one with its labels renamed, each to one of
its own. What is stored but not in place, names and bindings may be anything. -/
structure Method.Relabelled (f : Label → Label) (m n : Method) : Prop where
  access : n.access = m.access
  name : n.name = m.name
  desc : n.desc = m.desc
  exceptions : n.exceptions = m.exceptions
  maxLocals : n.maxLocals = m.maxLocals
  size : n.code.size = m.code.size
  nodes : n.code.toList = m.code.toList.map (Insn.mapLabels f)
  handlers : n.code.handlers = m.code.handlers.map (Handler.mapLabels f)
  locals : n.locals = m.locals.map (LocalVar.mapLabels f)
  injective : Set.InjOn f {l | l ∈ m.labels}

namespace Method
open Layout

variable {f : Label → Label} {m n : Method}

section
variable {index index' : Std.HashMap Label Nat}

theorem alike_requireMarker {l : Label} (h : Renames f index index' l) :
    Alike (requireMarker index l) (requireMarker index' (f l)) := by
  unfold requireMarker
  rw [h.contains]
  split
  · exact .ok ()
  · exact .error rfl

theorem alike_checkNode {i : Node} (h : i.Renamed f index index') :
    Alike (checkNode index i) (checkNode index' (i.mapLabels f)) := by
  unfold checkNode
  rw [Insn.access?_mapLabels, Insn.targets_mapLabels]
  split
  · exact .refl _
  · exact .forM fun l hl => alike_requireMarker (h l hl)

theorem alike_check (f : Label → Label) (i : Node) :
    Alike (Instruction.check i) (Instruction.check (i.mapLabels f)) := by
  cases i with
  | tableSwitch low otherwise ts =>
    have hencodable : Instruction.encodable (.tableSwitch low (f otherwise) (ts.map f)) =
        Instruction.encodable (.tableSwitch low otherwise ts) := by
      simp [Instruction.encodable]
    simp only [Insn.mapLabels, Instruction.check, hencodable]
    split
    · exact .ok ()
    · exact .error rfl
  | _ => exact .refl _

theorem codeBytes_mapLabels (l : Layout) {items : List Item}
    (h : ∀ item ∈ items, item.node.Renamed f index index') :
    codeBytes l index' (Layout.mapNodes (Insn.mapLabels f) items) = codeBytes l index items := by
  unfold codeBytes Layout.mapNodes
  rw [List.zipIdx_map, List.flatMap_map]
  apply List.flatMap_congr
  rintro ⟨item, i⟩ he
  have hitem : item ∈ items := List.mem_of_getElem? (List.mem_zipIdx_iff_getElem?.1 he)
  simp only [Prod.map, id_eq, Insn.mapLabels_mapLabels]
  by_cases hr : item.node.isReal
  · congr 1
    apply Outline.mapLabels_congr hr
    intro label hl
    exact congrArg Int.ofNat (l.placeOf_renamed (h item hitem label hl))
  · unfold Insn.isReal at hr
    cases hi : item.node <;> rw [hi] at hr <;> first | exact absurd rfl hr | rfl

end

theorem handlerBytes_congr {p q : Label → Nat} {h : Handler} (hpq : ∀ l ∈ h.labels, p l = q l) :
    handlerBytes p h = handlerBytes q h := by
  simp only [Handler.labels, List.forall_mem_cons] at hpq
  simp only [handlerBytes, hpq]

theorem localBytes_congr {p q : Label → Nat} {v : LocalVar}
    (hpq : ∀ l ∈ [v.start, v.stop], p l = q l) : localBytes p v = localBytes q v := by
  simp only [List.forall_mem_cons] at hpq
  simp only [localBytes, hpq]

theorem lineBytes_mapLabels (f : Label → Label) (l : Layout) (nodes : List Node) :
    lineBytes l (nodes.map (Insn.mapLabels f)) = lineBytes l nodes := by
  unfold lineBytes
  rw [List.zipIdx_map, List.filterMap_map]
  apply List.filterMap_congr
  rintro ⟨i, k⟩ _
  cases i <;> rfl

namespace Relabelled

/-- Each label that the method mentions has its marker where it was. -/
theorem renames (h : m.Relabelled f n) {l : Label} (hl : l ∈ m.labels) :
    Renames f (markerIndex m.code.toList) (markerIndex n.code.toList) l := by
  rw [h.nodes]
  apply renames_markerIndex
  intro k hk hkl
  refine h.injective ?_ hl hkl
  have hk : k ∈ m.code.toList.flatMap Insn.labels :=
    List.mem_flatMap.2 ⟨_, mem_markers.1 hk, List.mem_singleton_self k⟩
  exact List.mem_append_left _ (List.mem_append_left _ hk)

theorem renamed (h : m.Relabelled f n) {i : Node} (hi : i ∈ m.code.toList) :
    i.Renamed f (markerIndex m.code.toList) (markerIndex n.code.toList) := by
  intro l hl
  apply h.renames
  have hl : l ∈ i.labels := Insn.mem_labels_of_mem_targets hl
  exact List.mem_append_left _ (List.mem_append_left _ (List.mem_flatMap.2 ⟨i, hi, hl⟩))

theorem renames_handler (h : m.Relabelled f n) {e : Handler} (he : e ∈ m.code.handlers.toList) :
    ∀ l ∈ e.labels, Renames f (markerIndex m.code.toList) (markerIndex n.code.toList) l := by
  intro l hl
  apply h.renames
  exact List.mem_append_left _ (List.mem_append_right _ (List.mem_flatMap.2 ⟨e, he, hl⟩))

theorem renames_local (h : m.Relabelled f n) {v : LocalVar} (hv : v ∈ m.locals) :
    ∀ l ∈ [v.start, v.stop],
      Renames f (markerIndex m.code.toList) (markerIndex n.code.toList) l := by
  intro l hl
  apply h.renames
  exact List.mem_append_right _ (List.mem_flatMap.2 ⟨v, hv, hl⟩)

theorem isEmpty (h : m.Relabelled f n) : n.code.isEmpty = m.code.isEmpty := by
  have hsize := h.size
  unfold Code.size at hsize
  unfold Code.isEmpty Array.isEmpty
  rw [hsize]

theorem maxStack (h : m.Relabelled f n) : n.code.maxStack = m.code.maxStack := by
  unfold Code.maxStack
  have hstart : Code.Spread.start (markerIndex n.code.toList) n.code.handlers.toList =
      Code.Spread.start (markerIndex m.code.toList) m.code.handlers.toList := by
    unfold Code.Spread.start
    rw [h.handlers, Array.toList_map, List.filterMap_map]
    congr 1
    apply List.filterMap_congr
    intro e he
    exact h.renames_handler he e.target (by simp [Handler.labels])
  rw [h.isEmpty]
  split
  · rfl
  · have hrun := Code.Spread.run_map fun node (hn : node ∈ m.code.toList.toArray) s i =>
      Code.visit_mapLabels (h.renamed (List.mem_toArray.1 hn)) _ s i
    rw [List.map_toArray, ← h.nodes] at hrun
    dsimp only
    rw [hstart, hrun, h.nodes, List.length_map]

theorem neededLocals (h : m.Relabelled f n) : n.neededLocals = m.neededLocals := by
  have hparams : n.knownParams = m.knownParams := by
    unfold knownParams paramSlots isStatic
    rw [h.desc, h.access]
  have hfrontier : n.code.frontier = m.code.frontier := by
    unfold Code.frontier Code.slotAccesses Code.accesses
    rw [h.nodes, List.filterMap_map]
    simp only [Function.comp_def, Insn.access?_mapLabels]
  unfold Method.neededLocals
  rw [hparams, hfrontier, h.maxLocals, h.locals, List.map_map]
  rfl

theorem alike_checkLabels (h : m.Relabelled f n) :
    Alike (m.checkLabels (markerIndex m.code.toList))
      (n.checkLabels (markerIndex n.code.toList)) := by
  unfold checkLabels
  apply Alike.bind
  · rw [h.nodes]
    apply Alike.forM
    intro i hi
    rw [← h.nodes]
    exact alike_checkNode (h.renamed hi)
  intro _ _
  apply Alike.bind
  · rw [h.handlers, Array.toList_map]
    apply Alike.forM
    intro e he
    exact Alike.forM (k := f) fun l hl => alike_requireMarker (h.renames_handler he l hl)
  intro _ _
  rw [h.locals]
  apply Alike.forM
  intro v hv
  exact Alike.forM (k := f) fun l hl => alike_requireMarker (h.renames_local hv l hl)

/-- The bodies of renamed methods are alike. -/
theorem alike_encodeBody (h : m.Relabelled f n) : Builder.Alike m.encodeBody n.encodeBody := by
  have hsignature : n.signature = m.signature := by
    unfold signature
    rw [h.name, h.desc]
  unfold encodeBody
  apply Builder.Alike.bind (.lift h.alike_checkLabels)
  intro _ _ _ _
  have hitems : n.code.toList.mapM itemOf =
      Layout.mapNodes (Insn.mapLabels f) <$> m.code.toList.mapM itemOf := by
    rw [h.nodes]
    exact mapM_itemOf_map (operandOf_mapLabels f) _
  rw [hitems, bind_map_left]
  apply Builder.Alike.bind (.refl _)
  intro items b b' hrun
  have hrenamed : ∀ item ∈ items, item.node.Renamed f (markerIndex m.code.toList)
      (markerIndex n.code.toList) := by
    intro item hitem
    apply h.renamed
    rw [← node_of_mapM_itemOf hrun]
    exact List.mem_map_of_mem hitem
  rw [hsignature, layOut_mapLabels _ hrenamed]
  apply Builder.Alike.bind (.refl _)
  intro l _ _ _
  apply Builder.Alike.bind
  · rw [h.nodes]
    exact .forM fun i _ => .lift (alike_check f i)
  intro _ _ _ _
  apply Builder.Alike.bind
  · rw [h.handlers, Array.toList_map]
    apply Builder.Alike.map
    intro e he
    rw [handlerBytes_mapLabels, handlerBytes_congr fun k hk => l.placeOf_renamed (h.renames_handler he k hk)]
    exact .refl _
  intro _ _ _ _
  apply Builder.Alike.bind (.refl _)
  intro _ _ _ _
  apply Builder.Alike.bind
  · rw [h.locals]
    apply Builder.Alike.map
    intro v hv
    rw [localBytes_mapLabels, localBytes_congr fun k hk => l.placeOf_renamed (h.renames_local hv k hk)]
    exact .refl _
  intro _ _ _ _
  have hlines : lineBytes l n.code.toList = lineBytes l m.code.toList := by
    rw [h.nodes]
    exact lineBytes_mapLabels f l _
  simp only [hlines, h.maxStack, h.neededLocals, codeBytes_mapLabels l hrenamed]
  exact .refl _

/-- Renamed methods are written alike. -/
theorem alike_encode (h : m.Relabelled f n) : Builder.Alike m.encode n.encode := by
  unfold encode
  rw [h.name, h.desc, h.exceptions, h.access, h.isEmpty]
  apply Builder.Alike.bind (.refl _)
  intro _ _ _ _
  apply Builder.Alike.bind (.refl _)
  intro _ _ _ _
  apply Builder.Alike.bind (.refl _)
  intro _ _ _ _
  apply Builder.Alike.bind (.refl _)
  intro _ _ _ _
  dsimp only
  split
  · exact .refl _
  · apply Builder.Alike.bind h.alike_encodeBody
    intro _ _ _ _
    exact .refl _

end Relabelled

end Method

/-! ## Classes -/

/-- The second class is the first one with the labels of each method renamed. -/
structure Class.Relabelled (c d : Class) : Prop where
  header : d = { c with methods := d.methods }
  methods : List.Forall₂ (fun m n => ∃ f, m.Relabelled f n) c.methods d.methods

namespace Class.Relabelled

variable {c d : Class}

theorem names (h : c.Relabelled d) :
    d.methods.map (fun m => (m.name, m.desc)) = c.methods.map fun m => (m.name, m.desc) := by
  have hmethods := h.methods
  generalize c.methods = ms, d.methods = ns at hmethods ⊢
  induction hmethods with
  | nil => rfl
  | cons hmn _ ih =>
    obtain ⟨f, hmn⟩ := hmn
    rw [List.map_cons, List.map_cons, hmn.name, hmn.desc, ih]

theorem alike_encodeBody (h : c.Relabelled d) : Builder.Alike c.encodeBody d.encodeBody := by
  have hcount := h.methods.length_eq
  have hmethods := Builder.Alike.mapM h.methods fun m n ⟨_, hmn⟩ => hmn.alike_encode
  obtain ⟨header, -⟩ := h
  unfold encodeBody
  rw [header]
  dsimp only
  rw [← hcount]
  -- Up to the methods both writers are the same one.
  iterate 7
    apply Builder.Alike.bind (.refl _)
    intro _ _ _ _
  apply Builder.Alike.bind hmethods
  intro _ _ _ _
  exact .refl _

end Class.Relabelled

/-- The writer sees a class only up to the names of its labels: classes that
differ by a renaming have the same bytes, or both are refused for faults of
one kind. -/
theorem Class.relabelled_classes_encode_alike {c d : Class} (h : c.Relabelled d) :
    Alike c.encode d.encode := by
  have hbody : Alike (c.encodeBody {}) (d.encodeBody {}) := h.alike_encodeBody {}
  have hheader := h.header
  have hnames := h.names
  generalize d.methods = ns at hheader hnames
  subst hheader
  unfold Class.encode
  dsimp only
  rw [hnames]
  apply Alike.bind (.refl _)
  intro _ _
  apply Alike.bind (.refl _)
  intro _ _
  apply Alike.bind hbody
  intro _ _
  exact .refl _

/-- The loop once more: its label has another name, and a line number is
stored that is not in place. -/
def Method.respin : Method :=
  { Method.spin with code := { store := #[.line 3, .label 1, .jump .GOTO 1], order := #[1, 2] } }

def Class.respinner : Class := { Class.spinner with methods := [.respin] }

theorem Method.relabelled_respin : Method.spin.Relabelled (· + 1) .respin :=
  ⟨rfl, rfl, rfl, rfl, rfl, rfl, rfl, Array.map_empty.symm, rfl, fun _ _ _ _ h => Nat.succ.inj h⟩

theorem Class.relabelled_respinner : Class.spinner.Relabelled .respinner :=
  ⟨rfl, .cons ⟨_, Method.relabelled_respin⟩ .nil⟩

theorem Class.respinner_encodes_alike : Class.spinner.Relabelled .respinner ∧
    Class.spinner ≠ .respinner ∧ ∃ bytes, Class.spinner.encode = .ok bytes ∧
      Alike (.ok bytes) Class.respinner.encode := by
  obtain ⟨bytes, he⟩ := encode_spinner
  have halike := relabelled_classes_encode_alike relabelled_respinner
  rw [he] at halike
  have hne : Class.spinner ≠ .respinner := fun h =>
    absurd (congrArg (fun c : Class => c.methods.map (·.code.order)) h) (by decide)
  exact ⟨relabelled_respinner, hne, bytes, he, halike⟩

end ClassPatch
