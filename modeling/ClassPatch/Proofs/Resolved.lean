-- A body that is read resolves to code of the same outline. Each label is
-- marked where its position is, so as many instructions stand before the
-- marker as positions come before that one.
import ClassPatch.Proofs.BodyBytes

namespace ClassPatch

/-! ## Markers and real indices -/

theorem markerIndex_append {before after : List Node} {l : Label} (h : l ∉ markers after) :
    (markerIndex (before ++ .label l :: after))[l]? = some before.length := by
  induction after using List.reverseRecOn with
  | nil =>
    rw [markerIndex_concat]
    exact Std.HashMap.getElem?_insert_self
  | append_singleton after i ih =>
    rw [markers_append, List.mem_append, not_or] at h
    rw [← List.cons_append, ← List.append_assoc, markerIndex_concat]
    cases hi : i.marker? with
    | none => exact ih h.1
    | some k =>
      have hk : k ≠ l := by
        rintro rfl
        refine h.2 ?_
        rw [markers_cons, hi]
        exact List.mem_cons_self ..
      dsimp only
      rw [Std.HashMap.getElem?_insert, if_neg (by simpa using hk), ih h.1]

/-- The last marker of a label decides. -/
theorem realIndex_append {before after : List Node} {l : Label} (h : l ∉ markers after) :
    realIndex (before ++ .label l :: after) l = before.countP Insn.isReal := by
  unfold realIndex realBefore
  rw [Std.HashMap.getD_eq_getD_getElem?, markerIndex_append h, Option.getD_some,
    List.take_left' rfl]

namespace CodeBody

/-! ## Blocks of nodes -/

variable {labels : Std.HashMap Nat Label} {lines : Std.HashMap Nat (List UInt16)}

theorem countP_markerAt (p : Nat) : (markerAt labels p).countP Insn.isReal = 0 := by
  unfold markerAt
  split <;> rfl

theorem realNodes_markerAt (labels : Std.HashMap Nat Label) (p : Nat) :
    realNodes (markerAt labels p) = [] := by
  unfold markerAt
  split <;> rfl

theorem lineMarks_markerAt (k p : Nat) : lineMarks k (markerAt labels p) = [] := by
  unfold markerAt
  split <;> rfl

theorem countP_lines (ns : List UInt16) :
    (ns.map (Insn.line : UInt16 → Node)).countP Insn.isReal = 0 := by
  rw [List.countP_map, List.countP_eq_zero]
  exact fun n _ => Bool.false_ne_true

theorem countP_nodesAt {i : Nat × Insn Int} (hi : i.2.isReal) :
    (nodesAt labels lines i).countP Insn.isReal = 1 := by
  have hinsn := Insn.isReal_mapLabels (fun place : Int => labels.getD place.toNat 0) i.2
  unfold nodesAt
  rw [List.countP_append, List.countP_append, countP_markerAt, countP_lines,
    List.countP_singleton, hinsn, hi]
  rfl

theorem countP_blocks {is : List (Nat × Insn Int)} (h : ∀ i ∈ is, i.2.isReal) :
    (is.flatMap (nodesAt labels lines)).countP Insn.isReal = is.length := by
  induction is with
  | nil => rfl
  | cons i is ih =>
    rw [List.flatMap_cons, List.countP_append, countP_nodesAt (h i (List.mem_cons_self ..)),
      ih fun j hj => h j (List.mem_cons_of_mem _ hj), List.length_cons, Nat.add_comm]

theorem realNodes_blocks {is : List (Nat × Insn Int)} (h : ∀ i ∈ is, i.2.isReal) :
    realNodes (is.flatMap (nodesAt labels lines)) =
      is.map fun i => i.2.mapLabels fun place => labels.getD place.toNat 0 := by
  have hmarker := realNodes_markerAt labels
  have hlines : ∀ ns : List UInt16, realNodes (ns.map (Insn.line : UInt16 → Node)) = [] := by
    intro ns
    rw [realNodes, List.filter_eq_nil_iff]
    exact List.forall_mem_map.2 fun n _ => Bool.false_ne_true
  induction is with
  | nil => rfl
  | cons i is ih =>
    have hi := h i (List.mem_cons_self ..)
    rw [← Insn.isReal_mapLabels fun place : Int => labels.getD place.toNat 0] at hi
    have ih := ih fun j hj => h j (List.mem_cons_of_mem _ hj)
    unfold realNodes at hmarker hlines ih ⊢
    rw [List.flatMap_cons, List.filter_append, ih, nodesAt, List.filter_append, List.filter_append,
      hmarker, hlines, List.filter_cons, if_pos hi]
    rfl

theorem lineMarks_blocks {is : List (Nat × Insn Int)} (h : ∀ i ∈ is, i.2.isReal) (k : Nat) :
    lineMarks k (is.flatMap (nodesAt labels lines)) =
      (is.zipIdx k).flatMap fun e => (lines.getD e.1.1 []).map fun n => (e.2, n) := by
  have hlines : ∀ (ns : List UInt16) k,
      lineMarks k (ns.map (Insn.line : UInt16 → Node)) = ns.map fun n => (k, n) := by
    intro ns k
    induction ns with
    | nil => rfl
    | cons n ns ih => rw [List.map_cons, lineMarks, ih, List.map_cons]
  have hinsn : ∀ i : Insn Int, i.isReal → ∀ f k, lineMarks k [i.mapLabels f] = [] := by
    intro i hi f k
    unfold Insn.isReal at hi
    cases i <;> first | rfl | cases hi
  induction is generalizing k with
  | nil => rfl
  | cons i is ih =>
    have hi := h i (List.mem_cons_self ..)
    rw [List.flatMap_cons, lineMarks_append, countP_nodesAt hi,
      ih fun j hj => h j (List.mem_cons_of_mem _ hj), List.zipIdx_cons, List.flatMap_cons, nodesAt,
      lineMarks_append, lineMarks_append, lineMarks_markerAt, countP_markerAt, Nat.add_zero, hlines,
      hinsn _ hi, List.nil_append, List.append_nil]

/-! ## Positions of labels -/

variable {b : CodeBody}

theorem countP_before (h : b.Sound) {r : Nat} (hr : r ≤ b.insns.length) :
    ((b.insns.take r).flatMap (nodesAt b.labelTable b.lineTable)).countP Insn.isReal = r := by
  rw [countP_blocks fun i hi => (h.legible i (List.mem_of_mem_take hi)).real, List.length_take,
    Nat.min_eq_left hr]

/-- Each instruction splits the nodes at its block. -/
theorem nodes_eq_at_insn {r : Nat} {i : Nat × Insn Int} (hr : b.insns[r]? = some i) : b.nodes =
    (b.insns.take r).flatMap (nodesAt b.labelTable b.lineTable) ++
      (nodesAt b.labelTable b.lineTable i ++
        ((b.insns.drop (r + 1)).flatMap (nodesAt b.labelTable b.lineTable) ++
          markerAt b.labelTable b.size)) := by
  obtain ⟨hlt, rfl⟩ := List.getElem?_eq_some_iff.1 hr
  have hsplit : b.insns = b.insns.take r ++ b.insns[r] :: b.insns.drop (r + 1) := by
    rw [List.getElem_cons_drop, List.take_append_drop]
  unfold nodes
  conv_lhs => rw [hsplit]
  rw [List.flatMap_append, List.flatMap_cons, List.append_assoc, List.append_assoc]

/-- A marked position splits the nodes at its marker; before it stand the
blocks of the instructions before the position. -/
theorem nodes_eq_at_marker {r p : Nat} {l : Label} (hr : b.stops[r]? = some p)
    (hmark : markerAt b.labelTable p = [.label l]) :
    r ≤ b.insns.length ∧ ∃ after, b.nodes =
      (b.insns.take r).flatMap (nodesAt b.labelTable b.lineTable) ++ .label l :: after := by
  have hlen : (b.insns.map (·.1)).length = b.insns.length := List.length_map ..
  unfold stops at hr
  by_cases hlt : r < b.insns.length
  · rw [List.getElem?_append_left (by omega), List.getElem?_map,
      List.getElem?_eq_getElem hlt] at hr
    obtain rfl : b.insns[r].1 = p := Option.some.inj hr
    have hnodes := nodes_eq_at_insn (List.getElem?_eq_getElem hlt)
    rw [nodesAt, hmark] at hnodes
    exact ⟨Nat.le_of_lt hlt, _, hnodes⟩
  · rw [List.getElem?_append_right (by omega), List.getElem?_singleton] at hr
    split at hr
    · rename_i hz
      cases hr
      have hend : r = b.insns.length := by omega
      subst hend
      refine ⟨Nat.le_refl _, [], ?_⟩
      rw [nodes, hmark, List.take_length]
    · cases hr

/-- The marker of a named place stands after as many instructions as there
are positions before it. -/
theorem realIndex_labelAt (h : b.Sound) {r p : Nat} (hr : b.stops[r]? = some p) (hp : p ∈ b.named) :
    realIndex b.nodes (b.labelTable.getD p 0) = r := by
  obtain ⟨l, hl⟩ := List.getElem?_of_mem (mem_places_of_named h hp)
  have hl := (getElem?_labelTable h).2 hl
  rw [Std.HashMap.getD_eq_getD_getElem?, hl, Option.getD_some]
  obtain ⟨hle, after, hnodes⟩ := nodes_eq_at_marker (l := l) hr (by rw [markerAt, hl])
  have hnodup : (markers b.nodes).Nodup := by
    rw [markers_nodes h]
    exact List.nodup_range
  rw [hnodes] at hnodup ⊢
  rw [markers_append, markers_cons] at hnodup
  have hnot := (List.nodup_cons.1 (List.nodup_append.1 hnodup).2.1).1
  rw [realIndex_append hnot, countP_before h hle]

/-- The line numbers of a position, in their order. -/
theorem getD_lineTable (b : CodeBody) (p : Nat) :
    b.lineTable.getD p [] = (b.lines.filter (·.1 = p)).map (·.2) := by
  unfold lineTable
  induction b.lines with
  | nil => exact Std.HashMap.getD_empty
  | cons l ls ih =>
    rw [List.foldr_cons, Std.HashMap.getD_insert, ih, List.filter_cons]
    by_cases hl : l.1 = p
    · subst hl
      simp [ih]
    · rw [if_neg (by simpa using hl), if_neg (by simpa using hl)]

theorem realNodes_nodes (h : b.Sound) : realNodes b.nodes =
    b.insns.map fun i => i.2.mapLabels fun p => b.labelTable.getD p.toNat 0 := by
  have hend := realNodes_markerAt b.labelTable b.size
  have hblocks : realNodes (b.insns.flatMap (nodesAt b.labelTable b.lineTable)) =
      b.insns.map fun i => i.2.mapLabels fun p => b.labelTable.getD p.toNat 0 :=
    realNodes_blocks fun i hi => (h.legible i hi).real
  unfold realNodes at hend hblocks ⊢
  rw [nodes, List.filter_append, hblocks, hend, List.append_nil]

theorem lineMarks_nodes (h : b.Sound) : lineMarks 0 b.nodes =
    b.insns.zipIdx.flatMap fun e =>
      ((b.lines.filter (·.1 = e.1.1)).map (·.2)).map fun n => (e.2, n) := by
  rw [nodes, lineMarks_append, lineMarks_markerAt, List.append_nil,
    lineMarks_blocks fun i hi => (h.legible i hi).real]
  simp only [getD_lineTable]

/-- A sound body passes the checks. -/
theorem check_of_sound (h : b.Sound) : b.check = .ok () := by
  have hplace : ∀ {pc p : Nat}, p ∈ b.stops → checkPlace b.starts b.size pc p = .ok () := by
    intro pc p hp
    unfold checkPlace
    rw [if_pos]
    rcases List.mem_append.1 hp with hp | hp
    · exact .inr (mem_starts.2 hp)
    · exact .inl (List.mem_singleton.1 hp)
  have hinsns : (b.insns.forM fun i => i.2.targets.forM (checkBranch b.starts i.1)) = .ok () := by
    refine forM_ok.2 fun i hi => forM_ok.2 fun t ht => ?_
    obtain ⟨h0, hin⟩ := h.branches i hi t ht
    unfold checkBranch
    rw [if_pos ⟨h0, mem_starts.2 hin⟩]
  have hranges : (b.ranges.forM fun r => [r.start, r.stop, r.target].forM fun p =>
      checkPlace b.starts b.size p p) = .ok () :=
    forM_ok.2 fun r hr => forM_ok.2 fun p hp => hplace (h.ranges r hr p hp)
  have hlocals : (b.locals.forM fun v => [v.start, v.start + v.length].forM
      (checkPlace b.starts b.size v.start)) = .ok () :=
    forM_ok.2 fun v hv => forM_ok.2 fun p hp => hplace (h.locals v hv p hp)
  have hlines : (b.lines.forM fun l => checkPlace b.starts b.size l.1 l.1) = .ok () :=
    forM_ok.2 fun l hl => hplace (h.lines l hl)
  unfold check
  dsimp only
  rw [hinsns, hranges, hlocals, hlines]
  rfl

end CodeBody

end ClassPatch
