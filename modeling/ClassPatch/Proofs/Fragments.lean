-- Fragments on their way into a method: a copy names its labels anew, names
-- shared with a needle bind some of them, and every temporary gets a slot.
-- What comes out fits the method that it is spliced into.
import ClassPatch.Code.Copy
import ClassPatch.Method
import ClassPatch.Proofs.Splicing

namespace ClassPatch

namespace Code

/-! ## Nodes changed in place -/

/-- The change leaves every label where it is. -/
structure KeepsLabels (f : Node → Node) : Prop where
  marker : ∀ i, (f i).marker? = i.marker?
  targets : ∀ i, (f i).targets = i.targets

theorem KeepsLabels.repeat {f : Node → Node} (hf : KeepsLabels f) (n : Nat) :
    KeepsLabels (Nat.repeat f n) := by
  induction n with
  | zero => exact ⟨fun _ => rfl, fun _ => rfl⟩
  | succ n ih =>
    exact ⟨fun i => (hf.marker _).trans (ih.marker i), fun i => (hf.targets _).trans (ih.targets i)⟩

theorem keepsLabels_mapLocal (f : Node → Local → Local) :
    KeepsLabels fun i => i.mapLocal (f i) :=
  ⟨fun i => by cases i <;> rfl, fun i => by cases i <;> rfl⟩

theorem getElem?_mapNodes (f : Node → Node) (c : Code) (h : Handle) :
    (c.mapNodes f).store[h]? = (c.store[h]?).map (Nat.repeat f (c.order.toList.count h)) := by
  unfold mapNodes
  rw [← Array.foldl_toList]
  exact getElem?_foldl_modify ..

theorem eq_label_of_marker? {i : Node} {l : Label} (h : i.marker? = some l) : i = .label l := by
  cases i <;> cases h
  rfl

/-- A marker of the changed code is a marker of the code. -/
theorem label_mapNodes {f : Node → Node} (hf : KeepsLabels f) {c : Code} {h : Handle} {l : Label} :
    (c.mapNodes f).store[h]? = some (.label l) ↔ c.store[h]? = some (.label l) := by
  rw [getElem?_mapNodes]
  cases hi : c.store[h]? with
  | none => simp
  | some i =>
    have hm := (hf.repeat (c.order.toList.count h)).marker i
    simp only [Option.map_some, Option.some.injEq]
    constructor <;> intro he
    · rw [he] at hm
      exact eq_label_of_marker? hm.symm
    · rw [he] at hm ⊢
      exact eq_label_of_marker? hm

theorem mem_markers_mapNodes {f : Node → Node} (hf : KeepsLabels f) {c : Code} {l : Label} :
    l ∈ markers (c.mapNodes f).toList ↔ l ∈ markers c.toList := by
  simp only [mem_markers, toList, mem_nodesOf]
  exact exists_congr fun h => and_congr_right fun _ => label_mapNodes hf

theorem mem_issued_mapNodes {f : Node → Node} (hf : KeepsLabels f) {c : Code} {l : Label} :
    l ∈ (c.mapNodes f).issued ↔ l ∈ c.issued := by
  simp only [issued, mem_markers, Array.mem_toList_iff, Array.mem_iff_getElem?]
  exact exists_congr fun h => label_mapNodes hf

/-- A node in place was changed at least once. -/
theorem mem_mapNodes {f : Node → Node} {c : Code} {i : Node} (hi : i ∈ (c.mapNodes f).toList) :
    ∃ j ∈ c.toList, ∃ n, i = Nat.repeat f (n + 1) j := by
  obtain ⟨h, hh, hi⟩ := mem_nodesOf.1 hi
  rw [getElem?_mapNodes] at hi
  obtain ⟨j, hj, rfl⟩ := Option.map_eq_some_iff.1 hi
  obtain ⟨n, hn⟩ := Nat.exists_eq_succ_of_ne_zero (Nat.ne_of_gt (List.count_pos_iff.2 hh))
  exact ⟨j, mem_nodesOf.2 ⟨h, hh, hj⟩, n, congrArg (Nat.repeat f · j) hn⟩

theorem targets_mapNodes {f : Node → Node} (hf : KeepsLabels f) {c : Code} {i : Node}
    (hi : i ∈ (c.mapNodes f).toList) : ∃ j ∈ c.toList, i.targets = j.targets := by
  obtain ⟨j, hj, n, rfl⟩ := mem_mapNodes hi
  exact ⟨j, hj, (hf.repeat (n + 1)).targets j⟩

theorem size_mapNodes (f : Node → Node) (c : Code) : (c.mapNodes f).store.size = c.store.size := by
  unfold mapNodes
  rw [← Array.foldl_toList]
  exact List.foldlRecOn (motive := fun s : Array Node => s.size = c.store.size) _ _ rfl
    fun s hs k _ => by rw [Array.size_modify, hs]

/-- What the change keeps of every node holds of all the changed code. -/
theorem forall_mapNodes {P : Node → Prop} {f : Node → Node} (hf : ∀ i, P i → P (f i)) {c : Code}
    (h : ∀ i ∈ c.toList, P i) : ∀ i ∈ (c.mapNodes f).toList, P i := by
  intro i hi
  obtain ⟨j, hj, n, rfl⟩ := mem_mapNodes hi
  clear hi
  induction n with
  | zero => exact hf _ (h j hj)
  | succ n ih => exact hf _ ih

theorem Stored.mapNodes {c : Code} (h : c.Stored) {f : Node → Node} (hf : KeepsLabels f) :
    (c.mapNodes f).Stored := by
  refine ⟨fun k l hl => h.own k l ((label_mapNodes hf).1 hl), fun k hk => ?_⟩
  rw [size_mapNodes]
  exact h.made k hk

theorem SelfContained.mapNodes {c : Code} (h : c.SelfContained) {f : Node → Node}
    (hf : KeepsLabels f) : (c.mapNodes f).SelfContained := by
  refine ⟨h.toStored.mapNodes hf, fun i hi l hl => ?_⟩
  obtain ⟨j, hj, hij⟩ := targets_mapNodes hf hi
  exact (mem_issued_mapNodes hf).2 (h.branches j hj l (hij ▸ hl))

/-- Linked code stays so when only its slots change. -/
theorem linked_mapNodes {f : Node → Node} (hf : KeepsLabels f)
    (ht : ∀ i : Node, i.NoTemp → (f i).NoTemp) {c : Code} (h : c.Linked) :
    (c.mapNodes f).Linked := by
  obtain ⟨hown, hmade⟩ := h.selfContained.toStored.mapNodes hf
  refine ⟨hown, hmade, h.once, ?_, ?_, forall_mapNodes ht h.slots⟩
  · intro i hi l hl
    obtain ⟨j, hj, hij⟩ := targets_mapNodes hf hi
    exact (mem_markers_mapNodes hf).2 (h.branches j hj l (hij ▸ hl))
  · exact fun r hr l hl => (mem_markers_mapNodes hf).2 (h.ranges r hr l hl)

/-! ## Code that is made node by node -/

theorem order_push (i : Node) (c : Code) :
    (c.push i).order.toList = c.order.toList ++ [i.marker?.getD c.store.size] := by
  cases i <;> simp [push, Insn.marker?]

/-- A node at the end changes nothing that stands beside the nodes. -/
theorem push_other (i : Node) (c : Code) :
    (c.push i).handlers = c.handlers ∧ (c.push i).names = c.names ∧
      (c.push i).imports = c.imports ∧ (c.push i).captured = c.captured := by
  cases i <;> exact ⟨rfl, rfl, rfl, rfl⟩

theorem unbound_pushAll (nodes : List Node) (c : Code) :
    (c.pushAll nodes).imports = c.imports ∧ (c.pushAll nodes).captured = c.captured := by
  induction nodes generalizing c with
  | nil => exact ⟨rfl, rfl⟩
  | cons i nodes ih =>
    obtain ⟨_, _, himports, hcaptured⟩ := push_other i c
    exact ⟨(ih _).1.trans himports, (ih _).2.trans hcaptured⟩

theorem retains_store_push (i : Node) (c : Code) : Retains c.store (c.push i).store := by
  cases i with
  | label l => exact .refl _
  | _ => exact retains_push _ _

/-- A node at the end is no new label. -/
theorem issued_push (c : Code) (i : Node) : (c.push i).issued = c.issued := by
  cases i with
  | label l => rfl
  | _ =>
    unfold issued push
    rw [Array.toList_push, markers_append]
    exact List.append_nil _

theorem issued_pushAll (c : Code) (nodes : List Node) : (c.pushAll nodes).issued = c.issued := by
  unfold pushAll
  induction nodes generalizing c with
  | nil => rfl
  | cons i nodes ih => rw [List.foldl_cons, ih, issued_push]

theorem issued_withLabels (n : Nat) : (withLabels n).issued = List.range n := by
  unfold issued withLabels markers
  rw [Array.toList_map, Array.toList_range, List.filterMap_map]
  exact List.filterMap_some

theorem Stored.push {c : Code} (h : c.Stored) {i : Node} (hi : ∀ l, i = .label l → l ∈ c.issued) :
    (c.push i).Stored := by
  refine ⟨?_, fun k hk => ?_⟩
  · cases i with
    | label l => exact h.own
    | _ => exact h.own.push (by rintro _ ⟨⟩)
  · rw [order_push, List.mem_append, List.mem_singleton] at hk
    rcases hk with hk | rfl
    · exact Nat.lt_of_lt_of_le (h.made k hk) (c.retains_store_push i).size_le
    · cases i with
      | label l => exact lt_size_of_issued h.own (hi l rfl)
      | _ => simp [Code.push, Insn.marker?]

/-- What holds of code with the labels below `n` after some nodes are pushed. -/
structure Laid (n : Nat) (nodes : List Node) (c : Code) : Prop where
  labels : ∀ l < n, c.store[l]? = some (.label l)
  own : OwnHandles c.store
  made : ∀ h ∈ c.order.toList, h < c.store.size
  toList : c.toList = nodes
  placed : ∀ h ∈ c.order.toList, n ≤ h ∨ h ∈ markers nodes
  once : (markers nodes).Nodup → c.order.toList.Nodup

theorem laid_withLabels (n : Nat) : Laid n [] (withLabels n) := by
  refine ⟨?_, ?_, ?_, rfl, ?_, fun _ => .nil⟩
  · intro l hl
    simp [withLabels, hl]
  · intro h l hl
    simp only [withLabels, Array.getElem?_map, Option.map_eq_some_iff, Insn.label.injEq] at hl
    obtain ⟨k, hk, rfl⟩ := hl
    simpa using (Array.getElem?_eq_some_iff.1 hk).2
  all_goals
    intro h hh
    cases hh

theorem Laid.push {n : Nat} {nodes : List Node} {c : Code} (h : Laid n nodes c) {i : Node}
    (hi : ∀ l, i = .label l → l < n) : Laid n (nodes ++ [i]) (c.push i) := by
  have hmarker : ∀ l, i = .label l → c.store[l]? = some i := fun l hl =>
    hl ▸ h.labels l (hi l hl)
  have hstored : (c.push i).Stored := Stored.push ⟨h.own, h.made⟩ fun l hl =>
    (mem_issued h.own).2 (h.labels l (hi l hl))
  refine ⟨fun l hl => c.retains_store_push i _ _ (h.labels l hl), hstored.own, hstored.made, ?_,
    fun k hk => ?_, fun hn => ?_⟩
  · rw [toList_push h.made hmarker, h.toList]
  · rw [order_push, List.mem_append, List.mem_singleton] at hk
    rw [markers_append, List.mem_append]
    rcases hk with hk | rfl
    · exact (h.placed k hk).imp_right .inl
    · cases i with
      | label l => exact .inr (.inr (List.mem_singleton_self l))
      | _ =>
        refine .inl (Nat.le_of_not_lt fun hlt => ?_)
        exact Nat.lt_irrefl _ (lt_size_of_getElem? (h.labels _ hlt))
  · rw [markers_append, List.nodup_append] at hn
    obtain ⟨hn, -, hd⟩ := hn
    rw [order_push, List.nodup_append]
    refine ⟨h.once hn, List.pairwise_singleton .., ?_⟩
    rintro k hk _ hl rfl
    cases List.mem_singleton.1 hl
    cases i with
    | label l =>
      rcases h.placed _ hk with hle | hm
      · exact Nat.not_lt_of_le hle (hi _ rfl)
      · exact hd _ hm _ (List.mem_singleton_self l) rfl
    | _ => exact Nat.lt_irrefl _ (h.made _ hk)

theorem laid_pushAll {n : Nat} {nodes : List Node} (hn : ∀ l ∈ markers nodes, l < n) :
    Laid n nodes ((withLabels n).pushAll nodes) := by
  have key : ∀ (rest done : List Node) (c : Code), (∀ l ∈ markers rest, l < n) → Laid n done c →
      Laid n (done ++ rest) (c.pushAll rest) := by
    intro rest
    induction rest with
    | nil =>
      intro done c _ h
      rwa [List.append_nil]
    | cons i rest ih =>
      intro done c hr h
      rw [List.append_cons]
      rw [markers_cons] at hr
      refine ih _ _ (fun l hl => hr l (List.mem_append_right _ hl)) (h.push ?_)
      rintro l rfl
      exact hr l (List.mem_append_left _ (List.mem_singleton_self _))
  exact key nodes [] _ hn (laid_withLabels n)

/-! ## Copies -/

/-- The numbers given so far are those below the next one. -/
def Counted (m : Std.HashMap Label Label) : Prop := ∀ (l k : Label), m[l]? = some k → k < m.size

theorem counted_number {m : Std.HashMap Label Label} (h : Counted m) (l : Label) :
    Counted (number m l) := by
  unfold number
  split
  · exact h
  · rename_i hc
    intro k j hj
    rw [← Std.HashMap.mem_iff_contains] at hc
    rw [Std.HashMap.size_insert, if_neg hc]
    rw [Std.HashMap.getElem?_insert] at hj
    split at hj
    · cases hj
      exact Nat.lt_succ_self _
    · exact Nat.lt_succ_of_lt (h k j hj)

theorem mem_number (m : Std.HashMap Label Label) (l k : Label) :
    k ∈ number m l ↔ k = l ∨ k ∈ m := by
  unfold number
  split
  · rename_i hc
    rw [← Std.HashMap.mem_iff_contains] at hc
    constructor
    · exact .inr
    · rintro (rfl | h)
      · exact hc
      · exact h
  · rw [Std.HashMap.mem_insert, beq_iff_eq]
    exact or_congr_left eq_comm

/-- Every label of a list has a number in the end. -/
theorem mem_foldl_number {ls : List Label} {l : Label} (hl : l ∈ ls) : l ∈ ls.foldl number ∅ := by
  refine foldl_reaches (Q := fun l (m : Std.HashMap Label Label) => l ∈ m) ?_ ?_ ls _ l hl
  · exact fun m k => (mem_number m k k).2 (.inl rfl)
  · exact fun m k j hk => (mem_number m j k).2 (.inr hk)

/-- A copy's label for a label of the code. -/
def relabel (c : Code) (l : Label) : Label := c.numbering.getD l l

/-- Every mentioned label has a number. -/
theorem getElem?_numbering {c : Code} {l : Label} (hl : l ∈ c.mentioned) :
    c.numbering[l]? = some (c.relabel l) := by
  have hmem : l ∈ c.numbering := mem_foldl_number hl
  rw [relabel, Std.HashMap.getD_eq_getD_getElem?, Std.HashMap.getElem?_eq_some_getElem hmem]
  rfl

/-- A mentioned label gets one of the labels that the copy has from the start. -/
theorem relabel_lt {c : Code} {l : Label} (hl : l ∈ c.mentioned) :
    c.relabel l < c.numbering.size := by
  have hcount : Counted c.numbering :=
    List.foldlRecOn c.mentioned number (by simp [Counted]) fun m hm k _ => counted_number hm k
  exact hcount l _ (getElem?_numbering hl)

theorem markers_map (f : Label → Label) (nodes : List Node) :
    markers (nodes.map (Insn.mapLabels f)) = (markers nodes).map f := by
  induction nodes with
  | nil => rfl
  | cons i nodes ih =>
    rw [List.map_cons, markers_cons, markers_cons, ih, Insn.marker?_mapLabels, List.map_append]
    cases i.marker? <;> rfl

theorem laid_copy (c : Code) :
    Laid c.numbering.size (c.toList.map (Insn.mapLabels c.relabel))
      ((withLabels c.numbering.size).pushAll (c.toList.map (Insn.mapLabels c.relabel))) := by
  refine laid_pushAll fun l hl => ?_
  rw [markers_map] at hl
  obtain ⟨k, hk, rfl⟩ := List.mem_map.1 hl
  refine relabel_lt ?_
  simp only [mentioned, List.mem_append, List.mem_flatMap]
  exact .inl (.inl ⟨_, mem_markers.1 hk, List.mem_singleton_self _⟩)

theorem toList_copy (c : Code) : c.copy.toList = c.toList.map (Insn.mapLabels c.relabel) :=
  (laid_copy c).toList

theorem handlers_copy (c : Code) :
    c.copy.handlers.toList = c.handlers.toList.map (Handler.mapLabels c.relabel) :=
  Array.toList_map ..

/-- The mentioned labels are labels of the copy, in place or not. -/
theorem issued_copy {c : Code} {l : Label} (hl : l ∈ c.mentioned) :
    c.relabel l ∈ c.copy.issued := by
  have := (laid_copy c).labels _ (relabel_lt hl)
  exact mem_markers.2 (Array.mem_toList_iff.2 (Array.mem_of_getElem? this))

/-- A copy has only its own labels, whatever the code was given. -/
theorem selfContained_copy (c : Code) : c.copy.SelfContained := by
  refine ⟨⟨c.laid_copy.own, c.laid_copy.made⟩, fun i hi l hl => ?_⟩
  rw [toList_copy, List.mem_map] at hi
  obtain ⟨j, hj, rfl⟩ := hi
  rw [Insn.targets_mapLabels, List.mem_map] at hl
  obtain ⟨k, hk, rfl⟩ := hl
  apply issued_copy
  have hin : k ∈ j.labels := Insn.mem_labels_of_mem_targets hk
  exact List.mem_append_left _ (List.mem_append_left _ (List.mem_flatMap.2 ⟨j, hj, hin⟩))

theorem get?_map (f : Label → Label) (d : Dict String Label) (k : String) :
    Dict.get? (d.map fun e => (e.1, f e.2)) k = (d.get? k).map f := by
  unfold Dict.get?
  rw [List.find?_map, Option.map_map, Option.map_map]
  rfl

theorem names_copy (c : Code) (name : String) :
    c.copy.names.get? name = (c.names.get? name).map c.relabel :=
  get?_map c.relabel c.names name

theorem imports_copy (c : Code) : c.copy.imports = [] := (unbound_pushAll ..).1

theorem captured_copy (c : Code) : c.copy.captured = [] := (unbound_pushAll ..).2

/-! ## Bindings -/

theorem importLabel_other (pulled : Bool) (c : Code) (e : String × Label) :
    (c.importLabel pulled e).store = c.store ∧ (c.importLabel pulled e).order = c.order ∧
      (c.importLabel pulled e).handlers = c.handlers ∧
      (c.importLabel pulled e).names = c.names := by
  unfold importLabel
  split <;> exact ⟨rfl, rfl, rfl, rfl⟩

/-- A binding changes nothing but what is bound. -/
theorem bind_other (pulled : Bool) (b : Binding) (c : Code) :
    (c.bind pulled b).store = c.store ∧ (c.bind pulled b).order = c.order ∧
      (c.bind pulled b).handlers = c.handlers ∧ (c.bind pulled b).names = c.names := by
  unfold bind
  refine List.foldlRecOn (motive := fun d : Code => d.store = c.store ∧ d.order = c.order ∧
    d.handlers = c.handlers ∧ d.names = c.names) b.labels _ ⟨rfl, rfl, rfl, rfl⟩ ?_
  intro d hd e _
  obtain ⟨h₁, h₂, h₃, h₄⟩ := importLabel_other pulled d e
  exact ⟨h₁.trans hd.1, h₂.trans hd.2.1, h₃.trans hd.2.2.1, h₄.trans hd.2.2.2⟩

theorem SelfContained.bind {c : Code} (h : c.SelfContained) (pulled : Bool) (b : Binding) :
    (c.bind pulled b).SelfContained := by
  obtain ⟨hstore, horder, _⟩ := bind_other pulled b c
  have hlist : (c.bind pulled b).toList = c.toList := by rw [toList, hstore, horder]; rfl
  have hissued : (c.bind pulled b).issued = c.issued := by rw [issued, hstore]; rfl
  refine ⟨⟨?_, ?_⟩, ?_⟩
  · rw [hstore]
    exact h.own
  · rw [hstore, horder]
    exact h.made
  · rw [hlist, hissued]
    exact h.branches

/-- What is bound is a label of a name that the binding has. -/
theorem bound_of_bind {pulled : Bool} {b : Binding} {c : Code} (hc : c.imports = []) {l : Label}
    {i : Import} (hi : (c.bind pulled b).imports.get? l = some i) :
    ∃ e ∈ b.labels, c.names.get? e.1 = some l ∧ i.host = e.2 := by
  have key : ∀ l i, (b.labels.foldl (importLabel pulled) c).imports.get? l = some i →
      ∃ e ∈ b.labels, c.names.get? e.1 = some l ∧ i.host = e.2 := by
    refine (List.foldlRecOn (motive := fun d : Code => d.names = c.names ∧
      ∀ l i, d.imports.get? l = some i →
        ∃ e ∈ b.labels, c.names.get? e.1 = some l ∧ i.host = e.2) b.labels _ ⟨rfl, ?_⟩ ?_).2
    · intro l i hi
      rw [hc] at hi
      cases hi
    · intro d hd e he
      refine ⟨(importLabel_other pulled d e).2.2.2.trans hd.1, ?_⟩
      intro l i hi
      unfold importLabel at hi
      split at hi
      · rename_i own hown
        rw [hd.1] at hown
        exact Dict.forall_get?_insert (p := fun l (i : Import) =>
          ∃ e ∈ b.labels, c.names.get? e.1 = some l ∧ i.host = e.2) ⟨e, he, hown, rfl⟩ hd.2 l i hi
      · exact hd.2 l i hi
  exact key l i hi

/-- A copy without a binding binds nothing. -/
theorem binds_copy (code host : Code) : code.copy.Binds host := by
  intro l i hi
  rw [imports_copy] at hi
  cases hi

/-- A copy binds labels of the host if its binding gives such. -/
theorem binds_bind {code host : Code} {pulled : Bool} {b : Binding}
    (hb : ∀ e ∈ b.labels, e.2 ∈ host.issued) : (code.copy.bind pulled b).Binds host := by
  intro l i hi
  obtain ⟨e, he, _, hhost⟩ := bound_of_bind (imports_copy code) hi
  exact hhost ▸ hb e he

/-- A label of a name that the binding has is bound. -/
theorem bind_of_name {pulled : Bool} {b : Binding} {c : Code} {e : String × Label}
    (he : e ∈ b.labels) {l : Label} (hl : c.names.get? e.1 = some l) :
    ((c.bind pulled b).imports.get? l).isSome := by
  have hnames : (c.bind pulled b).names = c.names := (bind_other pulled b c).2.2.2
  refine foldl_reaches (Q := fun (e : String × Label) (d : Code) => d.names = c.names →
    c.names.get? e.1 = some l → (d.imports.get? l).isSome) ?_ ?_ b.labels c e he hnames hl
  · intro d e hd hl
    rw [(importLabel_other pulled d e).2.2.2] at hd
    rw [← hd] at hl
    simp only [importLabel, hl]
    exact (Dict.isSome_get?_insert ..).2 (.inl rfl)
  · intro d e e' hd hnames hl
    have := hd ((importLabel_other pulled d e').2.2.2.symm.trans hnames) hl
    unfold importLabel
    split
    · exact (Dict.isSome_get?_insert ..).2 (.inr this)
    · exact this

/-! ## Closed fragments -/

/-- What the code branches to and what its handlers name. -/
def named (c : Code) : List Label :=
  c.toList.flatMap Insn.targets ++ c.handlers.toList.flatMap Handler.labels

/-- The label has a name under which the needle marks or branches to a label. -/
def SharesName (needle c : Code) (l : Label) : Prop :=
  ∃ name k, c.names.get? name = some l ∧ needle.names.get? name = some k ∧
    k ∈ needle.toList.flatMap Insn.labels

/-- The code names nothing but what it marks or what a needle gives. -/
def Closed (needle : Option Code) (c : Code) : Prop :=
  ∀ l ∈ c.named, l ∈ markers c.toList ∨ ∃ n, needle = some n ∧ SharesName n c l

/-- A copy fits where it binds only labels of the host, and enough of them. -/
theorem fits_of_copy {code fragment host : Code} (hstore : fragment.store = code.copy.store)
    (horder : fragment.order = code.copy.order) (hhandlers : fragment.handlers = code.copy.handlers)
    (hbound : ∀ l i, fragment.imports.get? l = some i →
      (∃ name, code.copy.names.get? name = some l) ∧ i.host ∈ markers host.toList)
    (hcover : ∀ l ∈ code.named, l ∈ markers code.toList ∨
      (fragment.imports.get? (code.relabel l)).isSome) : fragment.Fits host := by
  have hlist : fragment.toList = code.toList.map (Insn.mapLabels code.relabel) := by
    rw [← toList_copy, toList, hstore, horder]
    rfl
  have hground : ∀ l ∈ code.named, fragment.Grounded (code.relabel l) := by
    intro l hl
    rcases hcover l hl with hm | hi
    · refine .inl ?_
      rw [hlist, markers_map]
      exact List.mem_map_of_mem hm
    · exact .inr hi
  refine ⟨?_, ?_, ?_⟩
  · intro l i hi
    obtain ⟨⟨name, hname⟩, hhost⟩ := hbound l i hi
    rw [names_copy, Option.map_eq_some_iff] at hname
    obtain ⟨k, hk, rfl⟩ := hname
    refine ⟨?_, hhost⟩
    rw [issued, hstore]
    exact issued_copy (List.mem_append_right _ (List.mem_map_of_mem (Dict.mem_of_get? hk)))
  · intro i hi l hl
    rw [hlist, List.mem_map] at hi
    obtain ⟨j, hj, rfl⟩ := hi
    rw [Insn.targets_mapLabels, List.mem_map] at hl
    obtain ⟨k, hk, rfl⟩ := hl
    exact hground k (List.mem_append_left _ (List.mem_flatMap.2 ⟨j, hj, hk⟩))
  · intro r hr l hl
    rw [hhandlers, handlers_copy, List.mem_map] at hr
    obtain ⟨q, hq, rfl⟩ := hr
    have hl : l ∈ q.labels.map code.relabel := hl
    obtain ⟨k, hk, rfl⟩ := List.mem_map.1 hl
    exact hground k (List.mem_append_right _ (List.mem_flatMap.2 ⟨q, hq, hk⟩))

/-- A copy of code that is closed by itself fits everywhere. -/
theorem fits_copy {code : Code} (hc : code.Closed none) (host : Code) : code.copy.Fits host := by
  refine fits_of_copy rfl rfl rfl ?_ ?_
  · intro l i hi
    rw [imports_copy] at hi
    cases hi
  · intro l hl
    rcases hc l hl with hm | ⟨n, hn, _⟩
    · exact .inl hm
    · cases hn

/-- A copy with bound names fits where the host marks what they are bound to. -/
theorem fits_bind {code host : Code} {pulled : Bool} {b : Binding}
    (hb : ∀ e ∈ b.labels, e.2 ∈ markers host.toList)
    (hcover : ∀ l ∈ code.named, l ∈ markers code.toList ∨
      ∃ e ∈ b.labels, code.names.get? e.1 = some l) : (code.copy.bind pulled b).Fits host := by
  obtain ⟨hstore, horder, hhandlers, _⟩ := bind_other pulled b code.copy
  refine fits_of_copy hstore horder hhandlers ?_ ?_
  · intro l i hi
    obtain ⟨e, he, hname, hhost⟩ := bound_of_bind (imports_copy code) hi
    exact ⟨⟨e.1, hname⟩, hhost ▸ hb e he⟩
  · intro l hl
    refine (hcover l hl).imp_right ?_
    rintro ⟨e, he, hname⟩
    exact bind_of_name he (by rw [names_copy, hname]; rfl)

theorem fits_mapNodes {f : Node → Node} (hf : KeepsLabels f) {fragment host : Code}
    (h : fragment.Fits host) : (fragment.mapNodes f).Fits host := by
  have hground : ∀ l, fragment.Grounded l → (fragment.mapNodes f).Grounded l := fun l hl =>
    hl.imp_left (mem_markers_mapNodes hf).2
  refine ⟨?_, ?_, ?_⟩
  · intro l i hi
    have := h.bound l i hi
    exact ⟨(mem_issued_mapNodes hf).2 this.1, this.2⟩
  · intro i hi l hl
    obtain ⟨j, hj, hij⟩ := targets_mapNodes hf hi
    exact hground l (h.branches j hj l (hij ▸ hl))
  · exact fun r hr l hl => hground l (h.ranges r hr l hl)

/-! ## Temporaries -/

theorem access?_mapLocal (f : Local → Local) (i : Node) :
    (i.mapLocal f).access? = i.access?.map fun a => (f a.1, a.2) := by
  cases i <;> rfl

/-- A node whose temporaries all have slots is left with slots. -/
theorem noTemp_bindLocal {slots : Dict UInt16 UInt16} {i : Node}
    (h : ∀ t w, i.access? = some (.temp t, w) → (slots.get? t).isSome) :
    (i.mapLocal (bindLocal slots)).NoTemp := by
  intro t w hc
  rw [access?_mapLocal, Option.map_eq_some_iff] at hc
  obtain ⟨⟨x, w'⟩, hx, he⟩ := hc
  simp only [Prod.mk.injEq] at he
  cases x with
  | slot n => exact Local.noConfusion he.1
  | temp t' =>
    obtain ⟨s, hs⟩ := Option.isSome_iff_exists.1 (h t' w' hx)
    rw [bindLocal, hs] at he
    exact Local.noConfusion he.1

theorem noTemp_bindTemps {slots : Dict UInt16 UInt16} {c : Code}
    (h : ∀ i ∈ c.toList, ∀ t w, i.access? = some (.temp t, w) → (slots.get? t).isSome) :
    ∀ i ∈ (c.bindTemps slots).toList, i.NoTemp := by
  intro i hi
  obtain ⟨j, hj, n, rfl⟩ := mem_mapNodes hi
  clear hi
  induction n with
  | zero => exact noTemp_bindLocal (h j hj)
  | succ n ih => exact noTemp_bindLocal fun t w ht => absurd ht (ih t w)

end Code

namespace Method

/-- The code is linked and marks what the debug entries name. -/
structure Linked (m : Method) : Prop where
  code : m.code.Linked
  locals : ∀ v ∈ m.locals, v.start ∈ markers m.code.toList ∧ v.stop ∈ markers m.code.toList

/-- A method without code and debug entries is linked. -/
theorem linked_of_empty {m : Method} (hc : m.code = {}) (hl : m.locals = []) : m.Linked := by
  refine ⟨?_, ?_⟩
  · rw [hc]
    refine ⟨?_, ?_, .nil, ?_, ?_, ?_⟩
    · intro h l hl
      simp at hl
    all_goals
      intro x hx
      cases hx
  · rw [hl]
    intro v hv
    cases hv

/-- Every temporary of a fragment gets a slot. -/
theorem slotsFor_covers (m : Method) {fragment : Code} {i : Node} (hi : i ∈ fragment.toList)
    {t : UInt16} {w : Nat} (ht : i.access? = some (.temp t, w)) :
    ((m.slotsFor fragment).bound.get? t).isSome := by
  have hacc : (t, w) ∈ Code.tempAccesses fragment.toList :=
    List.mem_filterMap.2 ⟨_, List.mem_filterMap.2 ⟨i, hi, ht⟩, rfl⟩
  have htemps : (fragment.temps.get? t).isSome := by
    refine foldl_reaches (Q := fun (a : UInt16 × Nat) (d : Dict UInt16 Nat) =>
      (d.get? a.1).isSome) ?_ ?_ _ _ _ hacc
    · exact fun d a => (Dict.isSome_get?_insert ..).2 (.inl rfl)
    · exact fun d a b h => (Dict.isSome_get?_insert ..).2 (.inr h)
  obtain ⟨w', hw⟩ := Option.isSome_iff_exists.1 htemps
  refine foldl_reaches (Q := fun (a : UInt16 × Nat) (s : Slots) =>
    (s.bound.get? a.1).isSome) ?_ ?_ _ _ _ (Dict.mem_of_get? hw)
  · intro s a
    unfold Slots.give
    split <;> exact (Dict.isSome_get?_insert ..).2 (.inl rfl)
  · intro s a b h
    unfold Slots.give
    split <;> exact (Dict.isSome_get?_insert ..).2 (.inr h)

/-- A splice of a fragment that fits leaves the method linked and unmarks nothing. -/
theorem linked_splice {m : Method} (h : m.Linked) {fragment : Code} (hf : fragment.Fits m.code)
    (index count : Nat) :
    (m.splice index count fragment).2.Linked ∧
      ∀ l ∈ markers m.code.toList, l ∈ markers (m.splice index count fragment).2.code.toList := by
  have hk := Code.keepsLabels_mapLocal fun _ => Code.bindLocal (m.slotsFor fragment).bound
  have hfit : (fragment.bindTemps (m.slotsFor fragment).bound).Fits m.code :=
    Code.fits_mapNodes hk hf
  have hslots : ∀ i ∈ (fragment.bindTemps (m.slotsFor fragment).bound).toList, i.NoTemp :=
    Code.noTemp_bindTemps fun i hi t w ht => m.slotsFor_covers hi ht
  have hmark : ∀ l ∈ markers m.code.toList,
      l ∈ markers (m.splice index count fragment).2.code.toList := fun l hl =>
    Code.marked_splice h.code hfit index count hl
  refine ⟨⟨Code.linked_splice h.code hfit hslots index count, ?_⟩, hmark⟩
  intro v hv
  exact ⟨hmark _ (h.locals v hv).1, hmark _ (h.locals v hv).2⟩

end Method

end ClassPatch
