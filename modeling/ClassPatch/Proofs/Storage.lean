-- What handles stand for while code is edited: a store only grows, and each
-- marker stands under its own label. So the markers in place are those
-- handles in place that are labels.
import ClassPatch.Code
import Mathlib.Data.List.Basic
import Mathlib.Data.List.Induction

namespace ClassPatch

/-! ## Stores -/

/-- Every node of the first store has its handle in the second one. -/
def Retains (store store' : Array Node) : Prop :=
  ∀ (h : Handle) (i : Node), store[h]? = some i → store'[h]? = some i

/-- Each marker is stored under its own label. -/
def OwnHandles (store : Array Node) : Prop :=
  ∀ (h : Handle) (l : Label), store[h]? = some (.label l) → h = l

instance (store : Array Node) : Decidable (OwnHandles store) :=
  decidable_of_iff (∀ h : Fin store.size, store[h].marker?.all (· == h.val)) <| by
    constructor
    · intro own h l hl
      obtain ⟨hlt, hget⟩ := Array.getElem?_eq_some_iff.1 hl
      have := own ⟨h, hlt⟩
      simp [hget, Insn.marker?] at this
      exact this.symm
    · intro own h
      have := own h
      rw [Array.getElem?_eq_getElem h.isLt] at this
      cases hi : store[h.val] <;> simp_all [Insn.marker?]

theorem Retains.refl (store : Array Node) : Retains store store := fun _ _ h => h

theorem Retains.trans {a b c : Array Node} (hab : Retains a b) (hbc : Retains b c) :
    Retains a c := fun h i hi => hbc h i (hab h i hi)

theorem lt_size_of_getElem? {store : Array Node} {h : Handle} {i : Node}
    (hi : store[h]? = some i) : h < store.size := (Array.getElem?_eq_some_iff.1 hi).1

theorem retains_push (store : Array Node) (i : Node) : Retains store (store.push i) := by
  intro h j hj
  have hlt := lt_size_of_getElem? hj
  rw [Array.getElem?_push_lt hlt, ← hj, Array.getElem?_eq_getElem hlt]

/-- A node of a grown store is an old one or the new one. -/
theorem getElem?_push_cases {store : Array Node} {i j : Node} {h : Handle}
    (hj : (store.push i)[h]? = some j) : store[h]? = some j ∨ h = store.size ∧ j = i := by
  rw [Array.getElem?_push] at hj
  split at hj
  · cases hj
    exact .inr ⟨‹_›, rfl⟩
  · exact .inl hj

theorem OwnHandles.push {store : Array Node} (ho : OwnHandles store) {i : Node}
    (hi : ∀ l, i = .label l → l = store.size) : OwnHandles (store.push i) := by
  intro h l hl
  rcases getElem?_push_cases hl with h' | ⟨rfl, h'⟩
  · exact ho h l h'
  · exact (hi l h'.symm).symm

theorem Retains.size_le {store store' : Array Node} (hr : Retains store store') :
    store.size ≤ store'.size := by
  cases hs : store.size with
  | zero => exact Nat.zero_le _
  | succ n =>
    have hn : n < store.size := by omega
    exact lt_size_of_getElem? (hr n _ (Array.getElem?_eq_getElem hn))

/-! ## Folds over what is stored -/

/-- What each turn brings about for its own item, and no later turn undoes,
holds for every item in the end. -/
theorem foldl_reaches {σ ι : Type} {f : σ → ι → σ} {Q : ι → σ → Prop}
    (turn : ∀ s i, Q i (f s i)) (later : ∀ s i j, Q i s → Q i (f s j)) (items : List ι) (s : σ) :
    ∀ i ∈ items, Q i (items.foldl f s) := by
  induction items generalizing s with
  | nil => exact fun _ hi => nomatch hi
  | cons j items ih =>
    intro i hi
    rw [List.foldl_cons]
    rcases List.mem_cons.1 hi with rfl | hi
    · exact List.foldlRecOn (motive := Q i) items f (turn s i) fun s hs j _ => later s i j hs
    · exact ih (f s j) i hi

theorem repeat_succ_comm (f : Node → Node) (n : Nat) (i : Node) :
    Nat.repeat f n (f i) = Nat.repeat f (n + 1) i := by
  induction n with
  | zero => rfl
  | succ n ih =>
    rw [Nat.repeat, ih]
    rfl

/-- Each handle is changed as often as it is listed. -/
theorem getElem?_foldl_modify (f : Node → Node) (handles : List Handle) (store : Array Node)
    (h : Handle) :
    (handles.foldl (fun store h => store.modify h f) store)[h]? =
      (store[h]?).map (Nat.repeat f (handles.count h)) := by
  induction handles generalizing store with
  | nil => cases hi : store[h]? <;> simp [Nat.repeat, hi]
  | cons k ks ih =>
    rw [List.foldl_cons, ih, Array.getElem?_modify, List.count_cons]
    by_cases hk : k = h
    · subst hk
      cases store[k]? with
      | none => simp
      | some i => simp [repeat_succ_comm]
    · simp [hk]

/-! ## Nodes in place -/

theorem mem_nodesOf {store : Array Node} {handles : List Handle} {i : Node} :
    i ∈ nodesOf store handles ↔ ∃ h ∈ handles, store[h]? = some i := List.mem_filterMap

theorem mem_markers {nodes : List Node} {l : Label} : l ∈ markers nodes ↔ .label l ∈ nodes := by
  unfold markers
  rw [List.mem_filterMap]
  constructor
  · rintro ⟨i, hi, hl⟩
    cases i <;> cases hl
    exact hi
  · exact fun h => ⟨_, h, rfl⟩

/-- A label is marked by some handles if it is one of them. -/
theorem mem_markers_nodesOf {store : Array Node} (ho : OwnHandles store) {handles : List Handle}
    {l : Label} :
    l ∈ markers (nodesOf store handles) ↔ l ∈ handles ∧ store[l]? = some (.label l) := by
  rw [mem_markers, mem_nodesOf]
  constructor
  · rintro ⟨h, hh, hl⟩
    cases ho h l hl
    exact ⟨hh, hl⟩
  · rintro ⟨hh, hl⟩
    exact ⟨l, hh, hl⟩

theorem markers_cons (i : Node) (nodes : List Node) :
    markers (i :: nodes) = i.marker?.toList ++ markers nodes := by
  unfold markers
  rw [List.filterMap_cons]
  cases i.marker? <;> rfl

theorem markers_append (a b : List Node) : markers (a ++ b) = markers a ++ markers b :=
  List.filterMap_append

theorem Code.toList_of_isEmpty {c : Code} (h : c.isEmpty) : c.toList = [] := by
  have : c.order = #[] := Array.isEmpty_iff.1 h
  unfold Code.toList
  rw [this]
  rfl

/-! ## Where markers are -/

theorem foldl_markerIndex_snd (nodes : List Node) :
    (nodes.foldl (fun (m, i) node =>
      match node.marker? with
      | some l => (m.insert l i, i + 1)
      | none => (m, i + 1)) ((∅ : Std.HashMap Label Nat), 0)).2 = nodes.length := by
  induction nodes using List.reverseRecOn with
  | nil => rfl
  | append_singleton nodes i ih =>
    rw [List.foldl_append, List.foldl_cons, List.foldl_nil, List.length_append, ← ih]
    cases i.marker? <;> rfl

theorem markerIndex_concat (nodes : List Node) (i : Node) :
    markerIndex (nodes ++ [i]) = match i.marker? with
      | some l => (markerIndex nodes).insert l nodes.length
      | none => markerIndex nodes := by
  have h := foldl_markerIndex_snd nodes
  unfold markerIndex
  rw [List.foldl_append, List.foldl_cons, List.foldl_nil, ← h]
  cases i.marker? <;> rfl

/-- Where markers are depends on no other nodes. -/
theorem markerIndex_congr {nodes nodes' : List Node}
    (h : nodes.map Insn.marker? = nodes'.map Insn.marker?) :
    markerIndex nodes = markerIndex nodes' := by
  have hmarkers : ∀ nodes : List Node, markerIndex nodes =
      ((nodes.map Insn.marker?).foldl (fun (m, i) marker =>
        match marker with
        | some l => (m.insert l i, i + 1)
        | none => (m, i + 1)) ((∅ : Std.HashMap Label Nat), 0)).1 := by
    intro nodes
    rw [List.foldl_map]
    rfl
  rw [hmarkers, hmarkers, h]

theorem mem_markerIndex {nodes : List Node} {l : Label} :
    (markerIndex nodes).contains l = true ↔ l ∈ markers nodes := by
  induction nodes using List.reverseRecOn with
  | nil => simp [markerIndex, markers]
  | append_singleton nodes i ih =>
    rw [markerIndex_concat, markers_append, List.mem_append, ← ih]
    cases i with
    | label k =>
      rw [Insn.marker?, Std.HashMap.contains_insert, Bool.or_eq_true, beq_iff_eq]
      rw [show markers [.label k] = [k] from rfl, List.mem_singleton]
      exact or_comm.trans (or_congr_right eq_comm)
    | _ => simp [markers, Insn.marker?]

/-- The index of a marker is that of one of the nodes. -/
theorem lt_of_markerIndex {nodes : List Node} {l : Label} {i : Nat}
    (h : (markerIndex nodes)[l]? = some i) : i < nodes.length := by
  induction nodes using List.reverseRecOn with
  | nil => simp [markerIndex] at h
  | append_singleton nodes n ih =>
    rw [markerIndex_concat] at h
    rw [List.length_append, List.length_singleton]
    split at h
    · rw [Std.HashMap.getElem?_insert] at h
      split at h
      · cases h
        exact Nat.lt_succ_self _
      · exact Nat.lt_succ_of_lt (ih h)
    · exact Nat.lt_succ_of_lt (ih h)

/-- The labels that some handles mark are those handles that are labels. -/
theorem markers_nodesOf {store : Array Node} (ho : OwnHandles store) (handles : List Handle) :
    markers (nodesOf store handles) =
      handles.filter fun h => store[h]? == some (.label h) := by
  induction handles with
  | nil => rfl
  | cons h hs ih =>
    have hc : nodesOf store (h :: hs) = (store[h]?).toList ++ nodesOf store hs := by
      unfold nodesOf
      rw [List.filterMap_cons]
      cases store[h]? <;> rfl
    rw [hc, markers_append, ih, List.filter_cons]
    cases hi : store[h]? with
    | none => rfl
    | some i =>
      by_cases hl : i = .label h
      · subst hl
        simp [markers, Insn.marker?]
      · have hne : ¬ (some i == some (.label h)) = true := by simpa using hl
        rw [if_neg hne]
        cases i with
        | label l => exact absurd (by rw [ho h l hi]) hl
        | _ => rfl

/-- Handles that stand in place once mark each label once. -/
theorem nodup_markers_nodesOf {store : Array Node} (ho : OwnHandles store) {handles : List Handle}
    (hn : handles.Nodup) : (markers (nodesOf store handles)).Nodup := by
  rw [markers_nodesOf ho]
  exact hn.filter _

/-- A label is marked as often as its handle stands in place. -/
theorem count_markers_nodesOf {store : Array Node} (ho : OwnHandles store) {l : Label}
    (hl : store[l]? = some (.label l)) (handles : List Handle) :
    (markers (nodesOf store handles)).count l = handles.count l := by
  rw [markers_nodesOf ho, List.count_filter (by simp [hl])]

/-! ## Handles that are all stored -/

section Made
variable {store : Array Node} {handles : List Handle}

theorem nodesOf_cons {h : Handle} {i : Node} (hi : store[h]? = some i) (handles : List Handle) :
    nodesOf store (h :: handles) = i :: nodesOf store handles := by
  simp [nodesOf, hi]

/-- Handles that are labels stand for markers. -/
theorem nodesOf_labels {ls : List Label}
    (h : ∀ l ∈ ls, store[l]? = some (.label l)) : nodesOf store ls = ls.map .label := by
  induction ls with
  | nil => rfl
  | cons l ls ih =>
    rw [nodesOf_cons (h l (List.mem_cons_self ..)), ih fun k hk => h k (List.mem_cons_of_mem _ hk)]
    rfl

theorem length_nodesOf (hm : ∀ h ∈ handles, h < store.size) :
    (nodesOf store handles).length = handles.length := by
  induction handles with
  | nil => rfl
  | cons h hs ih =>
    have hi := Array.getElem?_eq_getElem (hm h (List.mem_cons_self ..))
    simp [nodesOf_cons hi, ih fun k hk => hm k (List.mem_cons_of_mem _ hk)]

theorem nodesOf_take (hm : ∀ h ∈ handles, h < store.size) (n : Nat) :
    nodesOf store (handles.take n) = (nodesOf store handles).take n := by
  have hsplit := nodesOf_append store (handles.take n) (handles.drop n)
  rw [List.take_append_drop] at hsplit
  have hlen := length_nodesOf fun h hh => hm h (List.mem_of_mem_take (i := n) hh)
  rw [List.length_take] at hlen
  by_cases hn : n ≤ handles.length
  · rw [hsplit, List.take_left' (by omega)]
  · rw [List.take_of_length_le (by omega), List.take_of_length_le (by rw [length_nodesOf hm]; omega)]

theorem nodesOf_drop (hm : ∀ h ∈ handles, h < store.size) (n : Nat) :
    nodesOf store (handles.drop n) = (nodesOf store handles).drop n := by
  have hsplit := nodesOf_append store (handles.take n) (handles.drop n)
  rw [List.take_append_drop, nodesOf_take hm] at hsplit
  exact List.append_cancel_left (hsplit.symm.trans (List.take_append_drop n _).symm)

/-- A grown store has the same nodes under old handles. -/
theorem Retains.nodesOf {store' : Array Node} (hr : Retains store store')
    (hm : ∀ h ∈ handles, h < store.size) : nodesOf store' handles = nodesOf store handles := by
  apply List.filterMap_congr
  intro h hh
  have hi := Array.getElem?_eq_getElem (hm h hh)
  rw [hi, hr h _ hi]

end Made

end ClassPatch
