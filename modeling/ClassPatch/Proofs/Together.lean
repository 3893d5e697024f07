-- Removed markers that share a place stay together. A splice hoists all of
-- them, or puts all of them where the fragment takes over the first one, so
-- nothing but markers comes between them, whatever the fragment binds.
import ClassPatch.Proofs.Pulled

namespace ClassPatch

/-! ## What stands between two markers -/

def Insn.isMarker {α : Type} (i : Insn α) : Bool := i.marker?.isSome

/-- The first label is marked before the second one, with only such nodes between them. -/
def Followed (only : Node → Bool) (nodes : List Node) (k l : Label) : Prop :=
  ∃ before between after, nodes = before ++ .label k :: (between ++ .label l :: after) ∧
    ∀ i ∈ between, only i

/-- The markers of the two labels have only such nodes between them, in whichever order. -/
def Parted (only : Node → Bool) (nodes : List Node) (k l : Label) : Prop :=
  Followed only nodes k l ∨ Followed only nodes l k

section Parted
variable {only : Node → Bool} {nodes : List Node} {k l : Label}

theorem Followed.within (h : Followed only nodes k l) (front back : List Node) :
    Followed only (front ++ nodes ++ back) k l := by
  obtain ⟨before, between, after, rfl, honly⟩ := h
  exact ⟨front ++ before, between, after ++ back, by simp, honly⟩

theorem Parted.within (h : Parted only nodes k l) (front back : List Node) :
    Parted only (front ++ nodes ++ back) k l :=
  h.imp (fun h => h.within front back) fun h => h.within front back

/-- In a list of markers any two have only markers between them. -/
theorem parted_of_mem {ls : List Label} (hk : k ∈ ls) (hl : l ∈ ls) (hne : k ≠ l) :
    Parted Insn.isMarker (ls.map .label) k l := by
  have hmarkers : ∀ between : List Label, ∀ i ∈ between.map (Insn.label : Label → Node),
      i.isMarker := fun _ => List.forall_mem_map.2 fun _ _ => rfl
  obtain ⟨a, b, rfl⟩ := List.append_of_mem hk
  rcases List.mem_append.1 hl with hl | hl
  · obtain ⟨c, d, rfl⟩ := List.append_of_mem hl
    exact .inr ⟨c.map .label, d.map .label, b.map .label, by simp, hmarkers d⟩
  · obtain ⟨c, d, rfl⟩ := List.append_of_mem (List.mem_of_ne_of_mem hne.symm hl)
    exact .inl ⟨a.map .label, c.map .label, d.map .label, by simp, hmarkers c⟩

/-- Markers with no instruction between them share a place. -/
theorem Followed.samePlace (h : Followed Insn.isPseudo nodes k l) :
    ∃ n, MarkedAt nodes n k ∧ MarkedAt nodes n l := by
  obtain ⟨before, between, after, rfl, honly⟩ := h
  have hnone : between.countP Insn.isReal = 0 :=
    List.countP_eq_zero.2 fun i hi => by simp [Insn.isReal, honly i hi]
  refine ⟨_, ⟨before, _, rfl, rfl⟩, before ++ .label k :: between, after, by simp, ?_⟩
  rw [List.countP_append, List.countP_cons, hnone]
  rfl

theorem Parted.samePlace (h : Parted Insn.isPseudo nodes k l) :
    ∃ n, MarkedAt nodes n k ∧ MarkedAt nodes n l := by
  rcases h with h | h
  · exact h.samePlace
  · obtain ⟨n, hl, hk⟩ := h.samePlace
    exact ⟨n, hk, hl⟩

/-- A label that is marked once does not stand apart from itself. -/
theorem Parted.ne (hn : (markers nodes).Nodup) (h : Parted only nodes k l) : k ≠ l := by
  rintro rfl
  obtain ⟨before, between, after, rfl, -⟩ : Followed only nodes k k := h.elim id id
  rw [markers_append, markers_cons, markers_append, markers_cons] at hn
  simp [Insn.marker?, List.nodup_append] at hn

/-- The labels that share the place of a marker are those with a marker after as
many instructions. -/
theorem samePlace_of_markedAt {n : Nat} (hn : (markers nodes).Nodup) (hl : MarkedAt nodes n l) :
    SamePlace nodes l k ↔ MarkedAt nodes n k := by
  constructor
  · rintro (rfl | ⟨m, hm, hk⟩)
    · exact hl
    · exact hm.unique hn hl ▸ hk
  · exact fun hk => .inr ⟨n, hl, hk⟩

theorem SamePlace.symm (h : SamePlace nodes k l) : SamePlace nodes l k := by
  rcases h with rfl | ⟨n, hk, hl⟩
  · exact .inl rfl
  · exact .inr ⟨n, hl, hk⟩

end Parted

namespace Code

/-! ## A group in a segment -/

section Segment
variable {outside : Std.HashSet Handle} {map : Label → Label} {imports : Dict Label Import}
  {runs : Std.HashMap Label (List Label)} {s : Segment} {group : Label → Prop}

/-- Whatever a node of the fragment adds, what is stored keeps its handle, and no
marker is stored. -/
theorem Segment.stores_add (s : Segment) (i : Node) :
    Retains s.store (s.add map imports outside runs i).store ∧
      (OwnHandles s.store → OwnHandles (s.add map imports outside runs i).store) := by
  unfold Segment.add
  split
  · rename_i hm
    refine ⟨retains_push _ _, fun ho => ho.push fun l hl => ?_⟩
    have := Insn.marker?_mapLabels map i
    rw [hl, hm] at this
    cases this
  · dsimp only
    split
    · exact ⟨.refl _, id⟩
    · rw [store_marks]
      exact ⟨.refl _, id⟩

/-- The segment has none of the group. -/
def Segment.Lacks (group : Label → Prop) (s : Segment) : Prop :=
  ∀ l, group l → l ∉ s.marked ∧ l ∉ s.handles

/-- The segment has the whole group, one marker after the other. -/
def Segment.Gathered (group : Label → Prop) (s : Segment) : Prop :=
  (∀ l, group l → l ∈ s.marked) ∧ ∃ later together earlier,
    s.handles = later ++ together ++ earlier ∧ together.Nodup ∧ (∀ l, l ∈ together ↔ group l) ∧
      ∀ l ∈ later ++ earlier, ¬group l

/-- The group is not broken up: it is still to come, or has come as a whole. -/
def Segment.Unbroken (group : Label → Prop) (s : Segment) : Prop :=
  s.Lacks group ∨ s.Gathered group

/-- Other handles behind a group leave it unbroken. -/
theorem Segment.Unbroken.behind (h : s.Unbroken group) {t : Segment} {more : List Handle}
    (hmore : ∀ l ∈ more, ¬group l) (hhandles : t.handles = more ++ s.handles)
    (hmarked : ∀ l, group l → (l ∈ t.marked ↔ l ∈ s.marked)) : t.Unbroken group := by
  refine h.imp (fun h l hl => ?_) ?_
  · rw [hhandles, List.mem_append, hmarked l hl]
    exact ⟨(h l hl).1, fun hin => hin.elim (hmore l · hl) (h l hl).2⟩
  · rintro ⟨hall, later, together, earlier, hs, hnodup, hmem, hother⟩
    refine ⟨fun l hl => (hmarked l hl).2 (hall l hl), more ++ later, together, earlier, ?_, hnodup,
      hmem, ?_⟩
    · rw [hhandles, hs]
      simp
    · intro l hl
      rw [List.append_assoc, List.mem_append] at hl
      exact hl.elim (hmore l) (hother l)

theorem Segment.Gathered.count (h : s.Gathered group) {l : Label} (hl : group l) :
    s.handles.count l = 1 := by
  obtain ⟨-, later, together, earlier, hs, hnodup, hmem, hother⟩ := h
  have hnot : ∀ {ls}, ls ⊆ later ++ earlier → l ∉ ls := fun hls hin => hother l (hls hin) hl
  rw [hs, List.count_append, List.count_append, hnodup.count, if_pos ((hmem l).2 hl),
    List.count_eq_zero.2 (hnot (List.subset_append_left ..)),
    List.count_eq_zero.2 (hnot (List.subset_append_right ..))]

/-- A marker of the group brings along the whole group, and one of another place
nothing of it. -/
theorem Segment.Unbroken.add (h : s.Unbroken group) (hsize : ∀ l, group l → l < s.store.size)
    (hout : ∀ l, group l → l ∉ outside)
    (hruns : ∀ l k, k ∈ l :: runs.getD l [] → (group k ↔ group l))
    (hall : ∀ l k, group l → group k → k ∈ l :: runs.getD l []) (i : Node) :
    (s.add map imports outside runs i).Unbroken group := by
  unfold Segment.add
  split
  · have hother : ∀ l ∈ [s.store.size], ¬group l := by
      intro l hl hg
      rw [List.mem_singleton.1 hl] at hg
      exact Nat.lt_irrefl _ (hsize _ hg)
    exact h.behind hother rfl fun _ _ => Iff.rfl
  · rename_i own _
    dsimp only
    split
    · exact h
    · rename_i hc
      simp only [Bool.or_eq_true, not_or, Std.HashSet.contains_iff_mem] at hc
      obtain ⟨put, hput, hnodup, hmem, hmarked⟩ :=
        handles_marks outside (map own :: runs.getD (map own) []) s
      by_cases hg : group (map own)
      · have hlacks : s.Lacks group := h.resolve_right fun hgathered => hc.2 (hgathered.1 _ hg)
        have hiff : ∀ l, l ∈ put ↔ group l := by
          intro l
          rw [hmem]
          constructor
          · exact fun hl => (hruns _ l hl.1).2 hg
          · exact fun hl => ⟨hall _ l hg hl, hout l hl, (hlacks l hl).1⟩
        refine .inr ⟨fun l hl => (hmarked l).2 (.inr ((hiff l).2 hl)), [], put, s.handles, hput,
          hnodup, hiff, ?_⟩
        exact fun l hl hgl => (hlacks l hgl).2 hl
      · have hnone : ∀ l ∈ put, ¬group l := fun l hl hgl =>
          hg ((hruns _ l ((hmem l).1 hl).1).1 hgl)
        refine h.behind hnone hput fun l hl => (hmarked l).trans ?_
        exact ⟨fun hin => hin.resolve_right fun hp => hnone l hp hl, .inl⟩

end Segment

/-! ## Groups of the host -/

section Splice
variable {host : Code} {index count n : Nat} {k l : Label}

/-- The host's handles outlive a segment, whatever the fragment binds. -/
theorem stores_segment (h : host.Stored) (index count : Nat) (fragment : Code) :
    Retains host.store (segment host index count fragment).store ∧
      OwnHandles (segment host index count fragment).store := by
  have hs := settled_adopt h.own fragment
  refine List.foldlRecOn (motive := fun s => Retains host.store (Segment.store s) ∧
    OwnHandles (Segment.store s)) _ _ ⟨hs.retains, hs.own⟩ fun s ih i _ => ?_
  exact ⟨ih.1.trans (s.stores_add i).1, (s.stores_add i).2 ih.2⟩

/-- A splice does not break up the markers of one place of the gap. -/
theorem unbroken_segment (h : host.Stored) (hn : (markers host.toList).Nodup) (index count n : Nat)
    (fragment : Code) :
    (segment host index count fragment).Unbroken (MarkedAt (gap host index count) n) := by
  have hgap : (markers (gap host index count)).Nodup := nodup_gap hn
  have hplace : ∀ l, MarkedAt (gap host index count) n l → l < host.store.size := fun l hl =>
    lt_size_of_issued h.own (issued_of_mem_gap hl.mem)
  have hbrought : ∀ l k, k ∈ l :: (runTable (gap host index count)).getD l [] ↔
      SamePlace (gap host index count) l k := fun l k =>
    List.mem_cons.trans (samePlace_iff hgap l k).symm
  have hs : host.store.size ≤ (adopt host fragment).host.store.size :=
    (settled_adopt h.own fragment).retains.size_le
  rw [segment_eq h]
  refine (List.foldlRecOn (motive := fun s => Segment.Unbroken _ s ∧
    host.store.size ≤ s.store.size) _ _ ⟨.inl ?_, hs⟩
    fun s ih i _ => ⟨ih.1.add ?_ ?_ ?_ ?_ i, ?_⟩).1
  · exact fun l _ => ⟨Std.HashSet.not_mem_empty, List.not_mem_nil⟩
  · exact fun l hl => Nat.lt_of_lt_of_le (hplace l hl) ih.2
  · intro l hl hout
    exact (apart_of_mem_gap h hn hl.mem).2 (by simpa [Std.HashSet.mem_ofList] using hout)
  · intro l k hk
    rw [hbrought] at hk
    exact ⟨fun h => (samePlace_of_markedAt hgap h).1 hk.symm,
      fun h => (samePlace_of_markedAt hgap h).1 hk⟩
  · intro l k hl hk
    exact (hbrought l k).2 ((samePlace_of_markedAt hgap hl).2 hk)
  · exact Nat.le_trans ih.2 (s.stores_add i).1.size_le

/-- What is hoisted are markers. -/
theorem Segment.nodesOf_hoisted {s : Segment} (ho : OwnHandles s.store) (handles : List Handle) :
    nodesOf s.store (s.hoisted handles) = (s.hoisted handles).map .label := by
  refine nodesOf_labels fun l hl => ?_
  have hm := (List.mem_filter.1 hl).2
  cases hi : s.store[l]? with
  | none =>
    rw [hi] at hm
    cases hm
  | some i =>
    rw [hi] at hm
    cases i with
    | label k => rw [ho l k hi]
    | _ => cases hm

/-- A removed marker is stored where it was, and stood once in the order. -/
theorem stored_of_mem_gap (h : host.Stored) (hn : (markers host.toList).Nodup)
    (hl : l ∈ markers (gap host index count)) :
    host.store[l]? = some (.label l) ∧ (removed host index count).count l = 1 := by
  have hstored := (mem_issued h.own).1 (issued_of_mem_gap hl)
  have hgap : (markers (gap host index count)).Nodup := nodup_gap hn
  have hone := hgap.count (a := l)
  rw [if_pos hl, gap, ← nodesOf_removed h, count_markers_nodesOf h.own hstored] at hone
  exact ⟨hstored, hone⟩

/-- A removed marker is in place once after a splice. -/
theorem count_splice_of_gap (h : host.Stored) (hn : (markers host.toList).Nodup) (fragment : Code)
    (hl : MarkedAt (gap host index count) n l) :
    (markers (host.splice index count fragment).2.toList).count l = 1 := by
  obtain ⟨hretains, hown⟩ := stores_segment h index count fragment
  obtain ⟨hstored, hremoved⟩ := stored_of_mem_gap h hn hl.mem
  have hkept := List.count_eq_zero.2 (apart_of_mem_gap h hn hl.mem).2
  have hnew : (host.splice index count fragment).2.store[l]? = some (.label l) :=
    hretains _ _ hstored
  rw [count_markers_splice hown hnew, Segment.count_hoisted (hretains _ _ hstored), hkept, hremoved]
  rcases unbroken_segment h hn index count n fragment with hlacks | hgathered
  · rw [if_neg (hlacks l hl).1, List.count_eq_zero.2 (hlacks l hl).2]
  · rw [if_pos (hgathered.1 l hl), hgathered.count hl]

/-- Markers of one place of the gap have only markers between them after a splice. -/
theorem parted_splice (h : host.Stored) (hn : (markers host.toList).Nodup) (fragment : Code)
    (hk : MarkedAt (gap host index count) n k) (hl : MarkedAt (gap host index count) n l)
    (hne : k ≠ l) : Parted Insn.isMarker (host.splice index count fragment).2.toList k l := by
  obtain ⟨hretains, hown⟩ := stores_segment h index count fragment
  rw [nodesOf_splice, insertion, Segment.nodes]
  refine Parted.within ?_ _ _
  rcases unbroken_segment h hn index count n fragment with hlacks | ⟨-, later, together, earlier,
    hhandles, -, hmem, -⟩
  -- What the segment lacks is hoisted, all of it.
  · have hin : ∀ {l}, MarkedAt (gap host index count) n l →
        l ∈ (segment host index count fragment).hoisted (removed host index count) := by
      intro l hl
      obtain ⟨hstored, hremoved⟩ := stored_of_mem_gap h hn hl.mem
      rw [← List.count_pos_iff, Segment.count_hoisted (hretains _ _ hstored),
        if_neg (hlacks l hl).1, hremoved]
      exact Nat.one_pos
    rw [Segment.nodesOf_hoisted hown]
    exact (parted_of_mem (hin hk) (hin hl) hne).within [] _
  · have htogether : nodesOf (segment host index count fragment).store together.reverse =
        together.reverse.map .label := by
      refine nodesOf_labels fun l hl => hretains _ _ ?_
      exact (stored_of_mem_gap h hn ((hmem l).1 (List.mem_reverse.1 hl)).mem).1
    have hparted := parted_of_mem (List.mem_reverse.2 ((hmem k).2 hk))
      (List.mem_reverse.2 ((hmem l).2 hl)) hne
    rw [hhandles, List.reverse_append, List.reverse_append, nodesOf_append, nodesOf_append,
      htogether, ← List.append_assoc, ← List.append_assoc]
    exact hparted.within _ _

/-- Two removed markers with nothing but markers and lines between them have
only markers between them after the splice, whatever the fragment binds. Each
is in place once. -/
theorem removed_neighbours_stay_together (h : host.Stored) (hn : (markers host.toList).Nodup)
    (index count : Nat) (fragment : Code)
    (hkl : Parted Insn.isPseudo (gap host index count) k l) :
    (markers (host.splice index count fragment).2.toList).count k = 1 ∧
      (markers (host.splice index count fragment).2.toList).count l = 1 ∧
      Parted Insn.isMarker (host.splice index count fragment).2.toList k l := by
  obtain ⟨n, hk, hl⟩ := hkl.samePlace
  exact ⟨count_splice_of_gap h hn fragment hk, count_splice_of_gap h hn fragment hl,
    parted_splice h hn fragment hk hl (hkl.ne (nodup_gap hn))⟩

end Splice

/-- Two markers with a line number between them. -/
def pairedHost : Code :=
  ((((Code.empty.push (.simple .ICONST_0)).mark "a").push (.line 7)).mark "b").push (.simple .POP)

/-- Code that has the two the other way round, with an instruction between them. -/
def crossingFragment : Code :=
  ((((Code.empty.mark "b").push (.simple .ICONST_1)).mark "a").push (.simple .POP)).pullLabels
    { labels := [("a", 1), ("b", 3)] }

theorem paired_markers_stay_together :
    pairedHost.Stored ∧ (markers pairedHost.toList).Nodup ∧
    Parted Insn.isPseudo (gap pairedHost 0 5) 1 3 ∧
    Parted Insn.isMarker (pairedHost.splice 0 5 crossingFragment).2.toList 1 3 := by
  have hstored : pairedHost.Stored := by decide
  have hn : (markers pairedHost.toList).Nodup := by decide
  have hparted : Parted Insn.isPseudo (gap pairedHost 0 5) 1 3 :=
    .inl ⟨[.simple .ICONST_0], [.line 7], [.simple .POP], by decide, by decide⟩
  exact ⟨hstored, hn, hparted,
    (removed_neighbours_stay_together hstored hn 0 5 crossingFragment hparted).2.2⟩

end Code

end ClassPatch
