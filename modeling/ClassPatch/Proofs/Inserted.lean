-- A splice seen in the list of nodes: the nodes around the gap stay, and the
-- gap gets the fragment's instructions with their labels mapped. The markers
-- put in are those of the gap and new ones, never one that stands elsewhere.
import ClassPatch.Proofs.Splicing

namespace ClassPatch

theorem realNodes_append (a b : List Node) : realNodes (a ++ b) = realNodes a ++ realNodes b :=
  List.filter_append ..

/-- A change that leaves instructions instructions leaves out the same nodes. -/
theorem realNodes_map {f : Node → Node} (hf : ∀ i, (f i).isReal = i.isReal) (nodes : List Node) :
    realNodes (nodes.map f) = (realNodes nodes).map f := by
  simp [realNodes, List.filter_map, Function.comp_def, hf]

theorem isReal_of_marker? {i : Node} {l : Label} (h : i.marker? = some l) : i.isReal = false := by
  cases i <;> cases h
  rfl

namespace Code

/-! ## The nodes of a segment -/

/-- The nodes that a segment puts in place, the first one first. -/
def Segment.nodes (s : Segment) : List Node := nodesOf s.store s.handles.reverse

section Segment
variable {base : Array Node} {outside : Std.HashSet Handle} {map : Label → Label}
  {imports : Dict Label Import} {runs : Std.HashMap Label (List Label)} {nodes : List Node}
  {s : Segment}

theorem Segment.Sound.nodes_push (h : s.Sound base outside map nodes) (i : Node) :
    (s.push i).nodes = s.nodes ++ [i] := by
  have hlt : ∀ k ∈ s.handles.reverse, k < s.store.size := fun k hk =>
    h.lt_size (List.mem_reverse.1 hk)
  simp only [Segment.nodes, Segment.push, List.reverse_cons, nodesOf_append, nodesOf_push i hlt]
  rw [nodesOf_singleton Array.getElem?_push_size]

/-- Markers are put behind what is there, those that are new among them. -/
theorem Segment.nodes_marks (outside : Std.HashSet Handle) {labels : List Label}
    (hl : ∀ l ∈ labels, s.store[l]? = some (.label l)) :
    ∃ put : List Label, (labels.foldl (Segment.mark outside) s).nodes = s.nodes ++ put.map .label ∧
      ∀ l ∈ labels, l ∉ outside → l ∉ s.marked → l ∈ put := by
  obtain ⟨put, hput, -, hmem, -⟩ := handles_marks outside labels s
  refine ⟨put.reverse, ?_, fun l h hout hnew => List.mem_reverse.2 ((hmem l).2 ⟨h, hout, hnew⟩)⟩
  have hstored : ∀ l ∈ put.reverse, s.store[l]? = some (.label l) := fun l h =>
    hl l ((hmem l).1 (List.mem_reverse.1 h)).1
  rw [Segment.nodes, store_marks, hput, List.reverse_append, nodesOf_append, nodesOf_labels hstored]
  rfl

/-- Markers in place add no instruction. -/
theorem Segment.realNodes_marks {labels : List Label}
    (hl : ∀ l ∈ labels, s.store[l]? = some (.label l)) :
    realNodes (labels.foldl (Segment.mark outside) s).nodes = realNodes s.nodes := by
  obtain ⟨put, hput, -⟩ := nodes_marks outside hl
  have hnone : realNodes (put.map .label) = [] :=
    List.filter_eq_nil_iff.2 (List.forall_mem_map.2 fun _ _ => Bool.false_ne_true)
  rw [hput, realNodes_append, hnone, List.append_nil]

/-- A marker and those that it brings along are stored. -/
theorem Segment.Sound.stored_brought (h : s.Sound base outside map nodes)
    (hmap : ∀ l ∈ markers nodes, base[map l]? = some (.label (map l)))
    (hruns : ∀ k, ∀ l ∈ runs.getD k [], base[l]? = some (.label l)) {own : Label}
    (hown : own ∈ markers nodes) :
    ∀ l ∈ map own :: runs.getD (map own) [], s.store[l]? = some (.label l) := by
  intro l hl
  apply h.retains
  rcases List.mem_cons.1 hl with rfl | hl
  · exact hmap own hown
  · exact hruns _ l hl

/-- A node of the fragment adds itself if it is an instruction, and none if it is not. -/
theorem Segment.Sound.realNodes_add (h : s.Sound base outside map nodes)
    (hmap : ∀ l ∈ markers nodes, base[map l]? = some (.label (map l)))
    (hruns : ∀ k, ∀ l ∈ runs.getD k [], base[l]? = some (.label l)) {i : Node} (hi : i ∈ nodes) :
    realNodes (s.add map imports outside runs i).nodes =
      realNodes s.nodes ++ (realNodes [i]).map (Insn.mapLabels map) := by
  have hone : (realNodes [i]).map (Insn.mapLabels map) = realNodes [i.mapLabels map] :=
    (realNodes_map (Insn.isReal_mapLabels map) [i]).symm
  unfold Segment.add
  split
  · rw [h.nodes_push, realNodes_append, hone]
  · rename_i own hown
    have hnone : realNodes [i] = [] := by simp [realNodes, isReal_of_marker? hown]
    rw [hnone, List.map_nil, List.append_nil]
    dsimp only
    split
    · rfl
    · exact realNodes_marks
        (h.stored_brought hmap hruns (List.mem_filterMap.2 ⟨i, hi, hown⟩))

theorem Segment.Sound.realNodes_foldl (h : s.Sound base outside map nodes)
    (hmap : ∀ l ∈ markers nodes, base[map l]? = some (.label (map l)))
    (hruns : ∀ k, ∀ l ∈ runs.getD k [], base[l]? = some (.label l)) {rest : List Node}
    (hrest : ∀ i ∈ rest, i ∈ nodes) :
    realNodes (rest.foldl (Segment.add map imports outside runs) s).nodes =
      realNodes s.nodes ++ (realNodes rest).map (Insn.mapLabels map) := by
  induction rest generalizing s with
  | nil => simp [realNodes]
  | cons i rest ih =>
    have hi := hrest i (List.mem_cons_self ..)
    rw [List.foldl_cons, ih (h.add hmap hruns hi) fun j hj => hrest j (List.mem_cons_of_mem _ hj),
      h.realNodes_add hmap hruns hi, List.append_assoc, ← List.map_append, ← realNodes_append]
    rfl

end Segment

/-! ## The nodes that a splice puts in -/

section Splice
variable {host fragment : Code} {index count : Nat}

/-- What a splice puts into the gap: markers that stood there, then the segment. -/
def insertion (host : Code) (index count : Nat) (fragment : Code) : List Node :=
  nodesOf (segment host index count fragment).store
    ((segment host index count fragment).hoisted (removed host index count)) ++
    (segment host index count fragment).nodes

/-- What is put in stands between what is around the gap. -/
theorem nodesOf_splice (host fragment : Code) (index count : Nat) :
    (host.splice index count fragment).2.toList =
      nodesOf (segment host index count fragment).store (host.order.toList.take index) ++
        insertion host index count fragment ++
        nodesOf (segment host index count fragment).store
          (host.order.toList.drop (index + count)) := by
  rw [toList, toList_order_splice, nodesOf_append, nodesOf_append, nodesOf_append]
  rfl

/-- Around the gap nothing changes. -/
theorem toList_splice (h : host.Stored) (hb : fragment.Binds host) (index count : Nat) :
    (host.splice index count fragment).2.toList =
      host.toList.take index ++ insertion host index count fragment ++
        host.toList.drop (index + count) := by
  have hr := retains_splice h hb index count
  have hbefore := hr.nodesOf fun k hk => h.made k (List.mem_of_mem_take (i := index) hk)
  have hafter := hr.nodesOf fun k hk => h.made k (List.mem_of_mem_drop (i := index + count) hk)
  rw [nodesOf_take h.made] at hbefore
  rw [nodesOf_drop h.made] at hafter
  rw [nodesOf_splice]
  exact congrArg₂ (· ++ insertion host index count fragment ++ ·) hbefore hafter

theorem length_insertion (h : host.Stored) (hb : fragment.Binds host) (index count : Nat) :
    (insertion host index count fragment).length = (host.splice index count fragment).1 := by
  have hs := sound_segment h.own hb index count
  unfold insertion Segment.nodes
  rw [List.length_append, length_nodesOf fun k hk => lt_size_of_hoisted h hb hk,
    length_nodesOf fun k hk => hs.lt_size (List.mem_reverse.1 hk)]
  simp [splice, segment, kept, removed]

theorem Segment.realNodes_hoisted (s : Segment) (handles : List Handle) :
    realNodes (nodesOf s.store (s.hoisted handles)) = [] := by
  rw [realNodes, List.filter_eq_nil_iff]
  intro i hi
  obtain ⟨k, hk, hstored⟩ := mem_nodesOf.1 hi
  have hm := (List.mem_filter.1 hk).2
  rw [hstored] at hm
  cases i <;> first | exact Bool.false_ne_true | cases hm

/-- The instructions put in are those of the fragment. -/
theorem realNodes_insertion (h : host.Stored) (hb : fragment.Binds host) (index count : Nat) :
    realNodes (insertion host index count fragment) =
      (realNodes fragment.toList).map (Insn.mapLabels (adopt host fragment).map) := by
  rw [insertion, realNodes_append, Segment.realNodes_hoisted, List.nil_append, segment,
    (sound_start h.own index count).realNodes_foldl (stored_map_marker h.own hb)
      (stored_runs h.own index count) fun i hi => hi]
  simp [Segment.nodes, nodesOf, realNodes]

/-! ## The markers that a splice puts in -/

theorem nodesOf_removed (h : host.Stored) (index count : Nat) :
    nodesOf host.store (removed host index count) = (host.toList.drop index).take count := by
  rw [removed, nodesOf_take fun k hk => h.made k (List.mem_of_mem_drop hk), nodesOf_drop h.made]
  rfl

/-- The segment takes a handle of the host only as a marker that it puts in
place, and that one stands nowhere around the gap. -/
theorem marked_of_mem_handles (h : host.Stored) (hb : fragment.Binds host) (index count : Nat)
    {l : Label} (hin : l ∈ host.order.toList) (hl : l ∈ (segment host index count fragment).handles) :
    l ∈ (segment host index count fragment).marked ∧ l ∉ kept host index count := by
  have hs := sound_segment h.own hb index count
  rcases hs.origin l hl with ⟨hm, _⟩ | ⟨hle, _⟩
  · exact ⟨hm, fun hk => (hs.marked l hm).2 (by simpa [Std.HashSet.mem_ofList] using hk)⟩
  · have hsize := (settled_adopt h.own fragment).retains.size_le
    exact absurd (h.made l hin) (Nat.not_lt_of_le (Nat.le_trans hsize hle))

/-- A marker that stays around the gap does not go into it, unless it stood there too. -/
theorem not_mem_insertion (h : host.Stored) (hb : fragment.Binds host) {l : Label}
    (hl : l ∈ markers host.toList)
    (hgap : l ∉ markers ((host.toList.drop index).take count)) :
    l ∉ markers (insertion host index count fragment) := by
  have hs := sound_segment h.own hb index count
  obtain ⟨hin, hstored⟩ := (mem_markers_nodesOf h.own).1 hl
  have hremoved : l ∉ removed host index count := by
    intro hr
    rw [← nodesOf_removed h] at hgap
    exact hgap ((mem_markers_nodesOf h.own).2 ⟨hr, hstored⟩)
  have hkept : l ∈ kept host index count := by
    rcases List.mem_append.1 ((order_perm host index count).mem_iff.1 hin) with hk | hr
    · exact hk
    · exact absurd hr hremoved
  rw [insertion, markers_append, Segment.nodes, List.mem_append, mem_markers_nodesOf hs.own,
    mem_markers_nodesOf hs.own, List.mem_reverse]
  rintro (⟨hr, _⟩ | ⟨hh, _⟩)
  · exact hremoved (List.mem_filter.1 hr).1
  · exact (marked_of_mem_handles h hb index count hin hh).2 hkept

/-- How often a removed marker is hoisted: not at all if the segment has it. -/
theorem Segment.count_hoisted {s : Segment} {l : Label} (hl : s.store[l]? = some (.label l))
    (handles : List Handle) :
    (s.hoisted handles).count l = if l ∈ s.marked then 0 else handles.count l := by
  by_cases hm : l ∈ s.marked
  · rw [if_pos hm, List.count_eq_zero]
    intro hh
    have := (List.mem_filter.1 hh).2
    rw [hl] at this
    simp [Insn.marker?, hm] at this
  · rw [if_neg hm, Segment.hoisted, List.count_filter]
    rw [hl]
    simpa [Insn.marker?] using hm

theorem count_hoisted (h : host.Stored) (hb : fragment.Binds host) {l : Label}
    (hl : host.store[l]? = some (.label l)) :
    ((segment host index count fragment).hoisted (removed host index count)).count l =
      if l ∈ (segment host index count fragment).marked then 0
      else (removed host index count).count l :=
  Segment.count_hoisted (retains_splice h hb index count l _ hl) _

/-- Where the markers of a stored label can be after a splice. -/
theorem count_markers_splice (ho : OwnHandles (host.splice index count fragment).2.store)
    {l : Label} (hl : (host.splice index count fragment).2.store[l]? = some (.label l)) :
    (markers (host.splice index count fragment).2.toList).count l =
      (kept host index count).count l +
        (((segment host index count fragment).hoisted (removed host index count)).count l +
          (segment host index count fragment).handles.count l) := by
  rw [toList, count_markers_nodesOf ho hl, (order_splice index count).count_eq, List.count_append,
    List.count_append]

/-- A label that the host marks once is marked once after a splice. -/
theorem count_splice (h : host.Stored) (hb : fragment.Binds host) (index count : Nat) {l : Label}
    (hl : (markers host.toList).count l = 1) :
    (markers (host.splice index count fragment).2.toList).count l = 1 := by
  have hmem : l ∈ markers host.toList := List.count_pos_iff.1 (by omega)
  obtain ⟨hin, hold⟩ := (mem_markers_nodesOf h.own).1 hmem
  have hnew := retains_splice h hb index count l _ hold
  rw [toList, count_markers_nodesOf h.own hold, (order_perm host index count).count_eq,
    List.count_append] at hl
  rw [count_markers_splice (stored_splice h hb index count).own hnew, count_hoisted h hb hold]
  have hs := sound_segment h.own hb index count
  have hhandles := marked_of_mem_handles h hb index count hin
  by_cases hm : l ∈ (segment host index count fragment).marked
  · have hh := (hs.marked l hm).1
    have hone := hs.once.count (a := l)
    rw [if_pos hh] at hone
    rw [if_pos hm, hone, List.count_eq_zero.2 (hhandles hh).2]
  · have hnot : l ∉ (segment host index count fragment).handles := fun hh => hm (hhandles hh).1
    rw [if_neg hm, List.count_eq_zero.2 hnot]
    exact hl

theorem markers_around (index count : Nat) (nodes : List Node) :
    markers nodes = markers (nodes.take index) ++ markers ((nodes.drop index).take count) ++
      markers (nodes.drop (index + count)) := by
  rw [← markers_append, ← markers_append, List.append_assoc, ← List.drop_drop,
    List.take_append_drop, List.take_append_drop]

/-- A splice puts in what it takes away of a label that is marked once. -/
theorem mem_insertion (h : host.Stored) (hb : fragment.Binds host) {l : Label}
    (hl : (markers host.toList).count l = 1) :
    l ∈ markers (insertion host index count fragment) ↔
      l ∈ markers ((host.toList.drop index).take count) := by
  constructor
  · intro hin
    by_contra hgap
    exact not_mem_insertion h hb (List.count_pos_iff.1 (by omega)) hgap hin
  · intro hgap
    have hnew := count_splice h hb index count hl
    rw [toList_splice h hb, markers_append, markers_append, List.count_append,
      List.count_append] at hnew
    rw [markers_around index count, List.count_append, List.count_append] at hl
    have hpos := List.count_pos_iff.2 hgap
    exact List.count_pos_iff.1 (by omega)

end Splice

/-! ## Fragments that bind nothing -/

section Fresh
variable {base : Array Node} {outside : Std.HashSet Handle} {map : Label → Label}
  {nodes : List Node}

/-- Nodes with labels of their own each add themselves. -/
theorem Segment.Sound.nodes_foldl {s : Segment} (h : s.Sound base outside map nodes)
    (hmap : ∀ l ∈ markers nodes, base[map l]? = some (.label (map l))) {rest : List Node}
    (hrest : ∀ i ∈ rest, i ∈ nodes) (hn : ((markers rest).map map).Nodup)
    (hnew : ∀ l ∈ markers rest, map l ∉ outside ∧ map l ∉ s.marked) :
    (rest.foldl (Segment.add map [] outside ∅) s).nodes =
      s.nodes ++ rest.map (Insn.mapLabels map) := by
  induction rest generalizing s with
  | nil => rw [List.map_nil, List.append_nil]; rfl
  | cons i rest ih =>
    have hi := hrest i (List.mem_cons_self ..)
    have hruns : ∀ k, ∀ l ∈ (∅ : Std.HashMap Label (List Label)).getD k [],
        base[l]? = some (.label l) := by simp
    rw [List.forall_mem_cons] at hrest
    rw [markers_cons] at hn hnew
    have step : (s.add map [] outside ∅ i).nodes = s.nodes ++ [i.mapLabels map] ∧
        ∀ l ∈ markers rest, map l ∉ (s.add map [] outside ∅ i).marked := by
      unfold Segment.add
      split
      · exact ⟨h.nodes_push _, fun l hl => (hnew l (List.mem_append_right _ hl)).2⟩
      · rename_i own hown
        have hlabel : i = .label own := by cases i <;> cases hown; rfl
        subst hlabel
        obtain ⟨hout, hmarked⟩ := hnew own (List.mem_append_left _ (by simp [hown]))
        have hstored := h.retains _ _ (hmap own (mem_markers.2 hi))
        have hne : ∀ l ∈ markers rest, map own ≠ map l := by
          intro l hl he
          simp [Insn.marker?] at hn
          exact hn.1 l hl he.symm
        refine ⟨?_, fun l hl => ?_⟩
        · simp [Segment.mark, Segment.nodes, Dict.get?, hout, hmarked, nodesOf_append,
            nodesOf_singleton hstored, Insn.mapLabels]
        · have := (hnew l (List.mem_append_right _ hl)).2
          simp [Segment.mark, Dict.get?, hout, hmarked, hne l hl, this]
    rw [List.map_append] at hn
    rw [List.foldl_cons, ih (h.add hmap hruns hi) hrest.2 (List.nodup_append.1 hn).2.1, step.1,
      List.append_assoc]
    · rfl
    · exact fun l hl => ⟨(hnew l (List.mem_append_right _ hl)).1, step.2 l hl⟩

end Fresh

/-- A fragment that binds nothing is put in node by node, its labels as new ones. -/
theorem insertion_of_unbound {host fragment : Code} (h : host.Stored) (hi : fragment.imports = [])
    (hn : (markers fragment.toList).Nodup) (index : Nat) :
    insertion host index 0 fragment =
      fragment.toList.map (Insn.mapLabels (adopt host fragment).map) := by
  have hs := settled_adopt h.own fragment
  have hb : fragment.Binds host := by
    intro l i hl
    rw [hi] at hl
    cases hl
  have hnone : ∀ l, fragment.imports.get? l = none := fun l => by rw [hi]; rfl
  have hremoved : removed host index 0 = [] := List.take_zero
  have hruns : runTable (nodesOf host.store (removed host index 0)) = ∅ := by
    rw [hremoved]
    rfl
  have hsegment : (segment host index 0 fragment).nodes =
      fragment.toList.map (Insn.mapLabels (adopt host fragment).map) := by
    unfold segment
    rw [hruns, hi, (sound_start h.own index 0).nodes_foldl]
    · rfl
    · exact stored_map_marker h.own hb
    · exact fun i hi => hi
    · refine List.pairwise_map.2 (hn.imp_of_mem fun {l l'} hl hl' hne he => hne ?_)
      exact map_inj_of_unbound h.own (mem_issued_of_mem_markers hl) (mem_issued_of_mem_markers hl')
        (hnone l) (hnone l') he
    · intro l hl
      obtain ⟨_, hle, _⟩ := map_of_unbound h.own (mem_issued_of_mem_markers hl) (hnone l)
      refine ⟨?_, by simp⟩
      rw [Std.HashSet.mem_ofList, List.contains_iff_mem]
      intro hin
      have hlt := h.made _ ((order_perm host index 0).mem_iff.2 (List.mem_append_left _ hin))
      exact Nat.not_lt_of_le hle hlt
  rw [insertion, hsegment, Segment.hoisted, hremoved]
  rfl

end Code

end ClassPatch
