-- A replace keeps protected ranges: a needle that starts with an instruction
-- occurs only where no range begins or ends inside, and what takes its place
-- is in the same ranges. An end of a range is in no gap and in no segment,
-- so it is told by the nodes in front alone on which side of it a site is.
import ClassPatch.Proofs.Sites
import ClassPatch.Proofs.Surviving
import ClassPatch.Proofs.Tight

namespace ClassPatch

/-! ## Nodes with many gaps filled -/

section Substituted
variable {spot : Spot} {nodes : List Node} {sites : List Site} {n : Nat}

/-- Sites past index `n`, one after the other. -/
def Ascending (spot : Spot) (n : Nat) (sites : List Site) : Prop :=
  (∀ s ∈ sites, n ≤ spot.first s.region ∧ spot.first s.region ≤ spot.last s.region) ∧
    sites.Pairwise fun s s' => spot.last s.region ≤ spot.first s'.region

theorem Ascending.tail {s : Site} (h : Ascending spot n (s :: sites)) :
    Ascending spot (spot.last s.region) sites := by
  obtain ⟨hall, hpair⟩ := h
  rw [List.pairwise_cons] at hpair
  refine ⟨fun q hq => ⟨hpair.1 q hq, (hall q (List.mem_cons_of_mem _ hq)).2⟩, hpair.2⟩

/-- What one site has before it, in the gap and after it. -/
theorem drop_eq_around (nodes : List Node) {s : Site} (h : Ascending spot n (s :: sites)) :
    nodes.drop n = (nodes.drop n).take (spot.first s.region - n) ++ spot.gap nodes s.region ++
      nodes.drop (spot.last s.region) := by
  obtain ⟨hn, hle⟩ := h.1 s (List.mem_cons_self ..)
  have hgap : spot.gap nodes s.region =
      ((nodes.drop n).drop (spot.first s.region - n)).take
        (spot.last s.region - spot.first s.region) := by
    rw [Spot.gap, List.drop_drop, Nat.add_sub_cancel' hn]
  have hdrop : nodes.drop (spot.last s.region) = ((nodes.drop n).drop (spot.first s.region - n)).drop
      (spot.last s.region - spot.first s.region) := by
    rw [List.drop_drop, List.drop_drop]
    congr 1
    omega
  rw [hgap, hdrop, List.append_assoc, List.take_append_drop, List.take_append_drop]

/-- The label is marked in no gap and in no segment. -/
structure Clear (spot : Spot) (nodes : List Node) (sites : List Site) (l : Label) : Prop where
  gaps : ∀ s ∈ sites, l ∉ markers (spot.gap nodes s.region)
  segments : ∀ s ∈ sites, l ∉ markers s.segment

/-- A label that is clear of all sites is marked as often as before. -/
theorem Clear.count_substituted {l : Label} (hl : Clear spot nodes sites l)
    (h : Ascending spot n sites) :
    (markers (substituted spot nodes n sites)).count l = (markers (nodes.drop n)).count l := by
  induction sites generalizing n with
  | nil => rfl
  | cons s sites ih =>
    obtain ⟨hgaps, hsegments⟩ := hl
    rw [List.forall_mem_cons] at hgaps hsegments
    have hsplit := congrArg (fun ns => (markers ns).count l) (drop_eq_around nodes h)
    simp only [markers_append, List.count_append] at hsplit
    rw [hsplit, substituted_cons]
    simp only [markers_append, List.count_append]
    rw [ih ⟨hgaps.2, hsegments.2⟩ h.tail, List.count_eq_zero.2 hgaps.1,
      List.count_eq_zero.2 hsegments.1]

/-- The part in front of a site is that of the nodes in front of its gap. -/
theorem substituted_append {done : List Site} {s : Site} {rest : List Site}
    (h : Ascending spot n (done ++ s :: rest)) :
    substituted spot nodes n (done ++ s :: rest) =
      substituted spot (nodes.take (spot.first s.region)) n done ++
        (s.segment ++ substituted spot nodes (spot.last s.region) rest) := by
  induction done generalizing n with
  | nil =>
    rw [List.nil_append, substituted_cons, substituted, List.drop_take, List.append_assoc]
  | cons q done ih =>
    have hfirst : spot.first q.region ≤ spot.first s.region := by
      have hq := (h.1 q (List.mem_cons_self ..)).2
      have hs := (List.pairwise_cons.1 h.2).1 s (List.mem_append_right _ (List.mem_cons_self ..))
      omega
    rw [List.cons_append, substituted_cons, substituted_cons, ih h.tail, List.drop_take,
      List.take_take, Nat.min_eq_left (by omega)]
    simp only [List.append_assoc]

/-- A gap in front of an index is a gap of the nodes in front of it. -/
theorem gap_take {r : Region} {k : Nat} (h : spot.last r ≤ k) :
    spot.gap (nodes.take k) r = spot.gap nodes r := by
  rw [Spot.gap, Spot.gap, List.drop_take, List.take_take]
  congr 1
  omega

end Substituted

/-! ## Ends of ranges -/

/-- In code whose named labels are all marked, no label is foreign. -/
theorem Method.selfContained_of_references {m : Method} (h : m.code.Stored)
    (hm : ∀ l ∈ m.references, l ∈ markers m.code.toList) : m.code.SelfContained := by
  refine ⟨h, fun i hi l hl => Code.mem_issued_of_mem_markers (hm l ?_)⟩
  exact List.mem_append_left _ (List.mem_append_left _ (List.mem_flatMap.2 ⟨i, hi, hl⟩))

/-- A region that starts with an instruction has no end of a range among its nodes. -/
theorem not_mem_gap {host needle : Code} {r : Region} (hr : Code.Placed host needle 0 r) {i : Node}
    (hi : (Code.withoutLines needle.toList).head? = some i) (hreal : i.isReal) {l : Label}
    (hl : l ∈ host.handlers.toList.flatMap Handler.labels) :
    l ∉ markers (Spot.whole.gap host.toList r) := by
  rw [mem_markers]
  intro hmem
  obtain ⟨k, hk⟩ := List.getElem?_of_mem hmem
  have hlt : k < r.stop - r.start := by
    have := (List.getElem?_eq_some_iff.1 hk).1
    rw [Spot.gap, List.length_take] at this
    exact Nat.lt_of_lt_of_le this (Nat.min_le_left ..)
  have hk : ((host.toList.drop r.start).take (r.stop - r.start))[k]? = some (.label l) := hk
  rw [List.getElem?_take_of_lt hlt] at hk
  cases k with
  | zero =>
    obtain ⟨j, h, hj, hh, -, hmark⟩ := hr.starts
    rw [hi, Option.some.injEq] at hj
    subst hj
    rw [List.head?_eq_getElem?] at hh
    rw [hh, Option.some.injEq] at hk
    subst hk
    have hnone := hmark.1 rfl
    obtain ⟨l', hl'⟩ := Option.isSome_iff_exists.1 hnone
    rw [isReal_of_marker? hl'] at hreal
    cases hreal
  | succ k => exact hr.undivided (k + 1) l (Nat.succ_pos k) hlt hk hl

/-! ## The law of replaces -/

/-- Every node from index `i` up to `j` is in the handler's range. -/
def Handler.Protects (h : Handler) (nodes : List Node) (i j : Nat) : Prop :=
  ∀ k, i ≤ k → k < j → Covers nodes h.start h.stop k

/-- No node from index `i` up to `j` is in the handler's range. -/
def Handler.Spares (h : Handler) (nodes : List Node) (i j : Nat) : Prop :=
  ∀ k, i ≤ k → k < j → ¬ Covers nodes h.start h.stop k

/-- The index in the result at which a site begins, after the sites in `done`. -/
def Site.offset (nodes : List Node) (done : List Site) (s : Site) : Nat :=
  (substituted .whole (nodes.take s.region.start) 0 done).length

/-- The handlers that a site was under are those that it is under in the result. -/
structure Site.Kept (m : Method) (result : Method) (done : List Site) (s : Site) : Prop where
  lands : ∀ k < s.segment.length,
    result.code.toList[s.offset m.code.toList done + k]? = s.segment[k]?
  kept : ∀ h ∈ m.code.handlers.toList, h ∈ result.code.handlers.toList
  ranges : ∀ h ∈ m.code.handlers.toList,
    h.Protects m.code.toList s.region.start s.region.stop ∧
        h.Protects result.code.toList (s.offset m.code.toList done)
          (s.offset m.code.toList done + s.segment.length) ∨
      h.Spares m.code.toList s.region.start s.region.stop ∧
        h.Spares result.code.toList (s.offset m.code.toList done)
          (s.offset m.code.toList done + s.segment.length)

/-- The side of a label on which nodes are that do not mark it. -/
theorem before_iff_take {nodes front inner back : List Node} {l : Label}
    (hnodes : nodes = front ++ (inner ++ back)) (hl : l ∉ markers inner) {k : Nat}
    (hk : k ≤ inner.length) : Before nodes l (front.length + k) ↔ l ∈ markers front := by
  have hin : l ∉ markers (inner.take k) := fun h => hl (by
    rw [mem_markers] at h ⊢
    exact List.mem_of_mem_take h)
  rw [Before, hnodes, List.take_length_add_append, List.take_append_of_le_length hk,
    markers_append, List.mem_append]
  exact or_iff_left hin

/-- Whether nodes that mark no end of a range are in it is told by the nodes in front. -/
theorem covers_iff_take {nodes front inner back : List Node} {start stop : Label}
    (hnodes : nodes = front ++ (inner ++ back)) (hstart : start ∉ markers inner)
    (hstop : stop ∉ markers inner) (hone : (markers nodes).count stop = 1) {k : Nat}
    (hk : k < inner.length) :
    Covers nodes start stop (front.length + k) ↔ start ∈ markers front ∧ stop ∉ markers front := by
  have hat : nodes[front.length + k]? ≠ some (.label stop) := by
    rw [hnodes, List.getElem?_append_right (Nat.le_add_right ..), Nat.add_sub_cancel_left,
      List.getElem?_append_left hk]
    intro hget
    exact hstop (mem_markers.2 (List.mem_of_getElem? hget))
  rw [Covers, after_iff hone, before_iff_take hnodes hstart (Nat.le_of_lt hk),
    before_iff_take hnodes hstop (Nat.le_of_lt hk)]
  exact and_congr_right fun _ => and_iff_left hat

/-- A label that is clear of all sites is before a site exactly if it was before its region. -/
theorem Clear.mem_front {nodes : List Node} {done rest : List Site} {s : Site} {l : Label}
    (hl : Clear .whole nodes (done ++ s :: rest) l) (h : Ascending .whole 0 (done ++ s :: rest)) :
    l ∈ markers (substituted .whole (nodes.take s.region.start) 0 done) ↔
      l ∈ markers (nodes.take s.region.start) := by
  have hdone : ∀ q ∈ done, q ∈ done ++ s :: rest := fun q hq => List.mem_append_left _ hq
  have hpair := List.pairwise_append.1 h.2
  have hfront : Ascending .whole 0 done := ⟨fun q hq => h.1 q (hdone q hq), hpair.1⟩
  have hclear : Clear .whole (nodes.take s.region.start) done l := by
    refine ⟨fun q hq => ?_, fun q hq => hl.segments q (hdone q hq)⟩
    have hle : Spot.whole.last q.region ≤ s.region.start :=
      hpair.2.2 q hq s (List.mem_cons_self ..)
    rw [gap_take hle]
    exact hl.gaps q (hdone q hq)
  rw [← List.count_pos_iff, hclear.count_substituted hfront, List.drop_zero, List.count_pos_iff]

/-- A range without an end in a region covers the places of it exactly if it starts in
front of the region and does not stop there. -/
theorem covers_region_iff {nodes : List Node} {s : Site} (hs : s.region.start ≤ s.region.stop)
    (hlen : s.region.stop ≤ nodes.length) {start stop : Label}
    (hstart : start ∉ markers (Spot.whole.gap nodes s.region))
    (hstop : stop ∉ markers (Spot.whole.gap nodes s.region))
    (hone : (markers nodes).count stop = 1) {k : Nat} (hk : s.region.start ≤ k)
    (hk' : k < s.region.stop) :
    Covers nodes start stop k ↔ start ∈ markers (nodes.take s.region.start) ∧
      stop ∉ markers (nodes.take s.region.start) := by
  have halone : Ascending .whole 0 [s] :=
    ⟨List.forall_mem_singleton.2 ⟨Nat.zero_le _, hs⟩, List.pairwise_singleton ..⟩
  have hsplit := drop_eq_around nodes halone
  rw [List.drop_zero, Nat.sub_zero, List.append_assoc] at hsplit
  have hfront : (nodes.take s.region.start).length = s.region.start :=
    List.length_take_of_le (Nat.le_trans hs hlen)
  have hgap : (Spot.whole.gap nodes s.region).length = s.region.stop - s.region.start := by
    simp only [Spot.gap, Spot.first, Spot.last, List.length_take, List.length_drop]
    omega
  have := covers_iff_take hsplit hstart hstop hone (k := k - s.region.start) (by omega)
  rwa [Spot.first, hfront, Nat.add_sub_cancel' hk] at this

/-- The segment of a site is covered exactly if its region was. -/
theorem covers_segment_iff {nodes : List Node} {done rest : List Site} {s : Site}
    (hasc : Ascending .whole 0 (done ++ s :: rest)) {start stop : Label}
    (hstart : Clear .whole nodes (done ++ s :: rest) start)
    (hstop : Clear .whole nodes (done ++ s :: rest) stop)
    (hone : (markers nodes).count stop = 1) {k : Nat} (hk : s.offset nodes done ≤ k)
    (hk' : k < s.offset nodes done + s.segment.length) :
    Covers (substituted .whole nodes 0 (done ++ s :: rest)) start stop k ↔
      start ∈ markers (nodes.take s.region.start) ∧
        stop ∉ markers (nodes.take s.region.start) := by
  have hmem : s ∈ done ++ s :: rest := List.mem_append_right _ (List.mem_cons_self ..)
  have hcount : (markers (substituted .whole nodes 0 (done ++ s :: rest))).count stop = 1 := by
    rw [hstop.count_substituted hasc]
    exact hone
  have := covers_iff_take (substituted_append hasc) (hstart.segments s hmem)
    (hstop.segments s hmem) hcount (k := k - s.offset nodes done) (by omega)
  rw [Spot.first, hstart.mem_front hasc, hstop.mem_front hasc] at this
  rwa [← Site.offset, Nat.add_sub_cancel' hk] at this

/-- A site keeps the ranges whose ends are clear of all sites. -/
theorem Simultaneous.kept {needle code : Code} {m : Method} {result : Nat × Method}
    {done rest : List Site} {s : Site}
    (hs : Simultaneous .whole needle code m result (done ++ s :: rest))
    (hclear : ∀ l ∈ m.code.handlers.toList.flatMap Handler.labels,
      Clear .whole m.code.toList (done ++ s :: rest) l ∧ (markers m.code.toList).count l = 1) :
    s.Kept m result.2 done := by
  have hmem : s ∈ done ++ s :: rest := List.mem_append_right _ (List.mem_cons_self ..)
  obtain ⟨hle, hlen⟩ := hs.bounded s hmem
  have hasc : Ascending .whole 0 (done ++ s :: rest) :=
    ⟨fun q hq => ⟨Nat.zero_le _, (hs.bounded q hq).1⟩, hs.ordered⟩
  refine ⟨?_, ?_, ?_⟩
  · intro k hk
    rw [hs.nodes.trans (substituted_append hasc), Site.offset, Spot.first,
      List.getElem?_append_right (Nat.le_add_right ..), Nat.add_sub_cancel_left,
      List.getElem?_append_left hk]
  · intro h hh
    obtain ⟨own, hown⟩ := hs.handlers
    rw [hown]
    exact List.mem_append_right _ hh
  · intro h hh
    have hends : ∀ l ∈ h.labels, l ∈ m.code.handlers.toList.flatMap Handler.labels :=
      fun l hl => List.mem_flatMap.2 ⟨h, hh, hl⟩
    obtain ⟨hstart, _⟩ := hclear h.start (hends _ (List.mem_cons_self ..))
    obtain ⟨hstop, hone⟩ := hclear h.stop (hends _ (by simp [Handler.labels]))
    have hold := fun k => covers_region_iff hle hlen (hstart.gaps s hmem) (hstop.gaps s hmem) hone
      (k := k)
    have hnew := fun k => covers_segment_iff hasc hstart hstop hone (k := k)
    rw [← hs.nodes] at hnew
    by_cases hin : h.start ∈ markers (m.code.toList.take s.region.start) ∧
        h.stop ∉ markers (m.code.toList.take s.region.start)
    · exact .inl ⟨fun k hk hk' => (hold k hk hk').2 hin, fun k hk hk' => (hnew k hk hk').2 hin⟩
    · exact .inr ⟨fun k hk hk' hc => hin ((hold k hk hk').1 hc),
        fun k hk hk' hc => hin ((hnew k hk hk').1 hc)⟩

/-- A replace with a needle that starts with an instruction keeps every
site under the handlers that it was under, however many sites there are. -/
theorem replace_keeps_ranges {needle code : Code} {m : Method} (h : m.code.Stored)
    (hm : ∀ l ∈ m.references, (markers m.code.toList).count l = 1)
    (hneedle : ∃ i, (Code.withoutLines needle.toList).head? = some i ∧ i.isReal)
    (hi : Spot.whole.Indexable needle code m) :
    ∃ sites, Simultaneous .whole needle code m (Edit.replaceIn needle code m) sites ∧
      ∀ done s rest, sites = done ++ s :: rest →
        s.Kept m (Edit.replaceIn needle code m).2 done := by
  have hmarked : ∀ l ∈ m.references, l ∈ markers m.code.toList := fun l hl =>
    List.count_pos_iff.1 (by rw [hm l hl]; exact Nat.one_pos)
  have hends : ∀ l ∈ m.code.handlers.toList.flatMap Handler.labels, l ∈ m.references :=
    fun l hl => List.mem_append_left _ (List.mem_append_right _ hl)
  obtain ⟨i, hfirst, hreal⟩ := hneedle
  obtain ⟨sites, hs⟩ := simultaneous_atEach .whole needle code
    (Method.selfContained_of_references h hmarked) hi
  refine ⟨sites, hs, ?_⟩
  rintro done s rest rfl
  apply hs.kept
  intro l hl
  have hgaps : ∀ q ∈ done ++ s :: rest, l ∉ markers (Spot.whole.gap m.code.toList q.region) := by
    intro q hq
    have hplaced := (Code.placed_findAll m.code needle).1 q.region
      (hs.regions ▸ List.mem_map_of_mem hq)
    exact not_mem_gap hplaced hfirst hreal hl
  exact ⟨⟨hgaps, hs.untouched l (hmarked l (hends l hl)) hgaps⟩, hm l (hends l hl)⟩

theorem pausing_replace_keeps_ranges :
    pausingMethod.code.Stored ∧
      (∀ l ∈ pausingMethod.references, (markers pausingMethod.code.toList).count l = 1) ∧
      (∃ i, (Code.withoutLines pauseNeedle.toList).head? = some i ∧ i.isReal) ∧
      Spot.whole.Indexable pauseNeedle pauseCode pausingMethod ∧
      ∃ sites, Simultaneous .whole pauseNeedle pauseCode pausingMethod
          (Edit.replaceIn pauseNeedle pauseCode pausingMethod) sites ∧
        ∀ done s rest, sites = done ++ s :: rest →
          s.Kept pausingMethod (Edit.replaceIn pauseNeedle pauseCode pausingMethod).2 done := by
  have h : pausingMethod.code.Stored := by decide
  have hm : ∀ l ∈ pausingMethod.references, (markers pausingMethod.code.toList).count l = 1 := by
    decide
  have hneedle : ∃ i, (Code.withoutLines pauseNeedle.toList).head? = some i ∧ i.isReal :=
    ⟨.simple .NOP, rfl, rfl⟩
  exact ⟨h, hm, hneedle, indexable_pausing,
    replace_keeps_ranges h hm hneedle indexable_pausing⟩

end ClassPatch
