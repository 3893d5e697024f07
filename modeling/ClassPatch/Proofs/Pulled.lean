-- Where a splice puts the markers that a fragment pulls. A pulled marker
-- brings along all that shared its place, so the first of them to be pulled
-- decides for the others, and a marker that is alone lands at its own mark.
import ClassPatch.Proofs.Places
import ClassPatch.Proofs.Inserted

namespace ClassPatch.Code

/-! ## Growing segments -/

section Segment
variable {base : Array Node} {outside : Std.HashSet Handle} {map : Label → Label}
  {imports : Dict Label Import} {runs : Std.HashMap Label (List Label)} {nodes : List Node}
  {s : Segment}

/-- The fragment's marker of the label goes into the segment: it is not bound, or pulled. -/
def Moves (imports : Dict Label Import) (own : Label) : Prop :=
  ((imports.get? own).map Import.pulled).getD true = true

/-- A segment marks only labels of markers that move, and what these bring along. -/
theorem Segment.mem_marked {rest : List Node} {k : Label}
    (hk : k ∈ (rest.foldl (Segment.add map imports outside runs) s).marked) :
    k ∈ s.marked ∨ ∃ own ∈ markers rest, Moves imports own ∧
      (k = map own ∨ k ∈ runs.getD (map own) []) := by
  induction rest generalizing s with
  | nil => exact .inl hk
  | cons i rest ih =>
    rw [List.foldl_cons] at hk
    rw [markers_cons]
    rcases ih hk with hk | ⟨own, hown, hmoves⟩
    · unfold Segment.add at hk
      split at hk
      · exact .inl hk
      · rename_i own hown
        dsimp only at hk
        split at hk
        · exact .inl hk
        · rename_i hc
          simp only [Bool.or_eq_true, not_or, Bool.not_eq_true', Bool.not_eq_false] at hc
          obtain ⟨_, -, -, hmem, hmarked⟩ :=
            handles_marks outside (map own :: runs.getD (map own) []) s
          rcases (hmarked k).1 hk with hk | hk
          · exact .inl hk
          · refine .inr ⟨own, List.mem_append_left _ ?_, hc.1.1,
              List.mem_cons.1 ((hmem k).1 hk).1⟩
            rw [hown]
            exact List.mem_singleton_self own
    · exact .inr ⟨own, List.mem_append_right _ hown, hmoves⟩

/-- What is in the segment stays in front. -/
theorem Segment.Sound.extends_add (h : s.Sound base outside map nodes)
    (hmap : ∀ l ∈ markers nodes, base[map l]? = some (.label (map l)))
    (hruns : ∀ k, ∀ l ∈ runs.getD k [], base[l]? = some (.label l)) {i : Node} (hi : i ∈ nodes) :
    ∃ more, (s.add map imports outside runs i).nodes = s.nodes ++ more := by
  unfold Segment.add
  split
  · exact ⟨_, h.nodes_push _⟩
  · rename_i own hown
    dsimp only
    split
    · exact ⟨[], (List.append_nil _).symm⟩
    · obtain ⟨put, hput, -⟩ := Segment.nodes_marks outside
        (h.stored_brought hmap hruns (List.mem_filterMap.2 ⟨i, hi, hown⟩))
      exact ⟨_, hput⟩

/-- A marker that moves puts itself, and each that it brings along, behind
the instructions that are there. -/
theorem Segment.Sound.markedAt_add (h : s.Sound base outside map nodes)
    (hmap : ∀ l ∈ markers nodes, base[map l]? = some (.label (map l)))
    (hruns : ∀ k, ∀ l ∈ runs.getD k [], base[l]? = some (.label l)) {own l : Label}
    (hown : own ∈ markers nodes) (hmoves : Moves imports own)
    (hnew : map own ∉ outside ∧ map own ∉ s.marked)
    (hl : l = map own ∨ l ∈ runs.getD (map own) []) (hlnew : l ∉ outside ∧ l ∉ s.marked) :
    MarkedAt (s.add map imports outside runs (.label own)).nodes (s.nodes.countP Insn.isReal)
      l := by
  obtain ⟨put, hput, hall⟩ := Segment.nodes_marks outside
    (h.stored_brought hmap hruns hown)
  have hadd : s.add map imports outside runs (.label own) =
      (map own :: runs.getD (map own) []).foldl (Segment.mark outside) s := by
    unfold Moves at hmoves
    simp only [Segment.add, Insn.marker?, hmoves,
      Std.HashSet.contains_eq_false_iff_not_mem.2 hnew.1,
      Std.HashSet.contains_eq_false_iff_not_mem.2 hnew.2]
    rfl
  obtain ⟨a, b, rfl⟩ := List.append_of_mem (hall l (List.mem_cons.2 hl) hlnew.1 hlnew.2)
  refine ⟨s.nodes ++ a.map .label, b.map .label, ?_, ?_⟩
  · rw [hadd, hput, List.map_append, List.map_cons, List.append_assoc]
  · have hnone : (a.map (Insn.label : Label → Node)).countP Insn.isReal = 0 := by
      rw [List.countP_map, List.countP_eq_zero]
      exact fun _ _ => Bool.false_ne_true
    rw [List.countP_append, hnone, Nat.add_zero]

theorem Segment.Sound.extends_foldl (h : s.Sound base outside map nodes)
    (hmap : ∀ l ∈ markers nodes, base[map l]? = some (.label (map l)))
    (hruns : ∀ k, ∀ l ∈ runs.getD k [], base[l]? = some (.label l)) {rest : List Node}
    (hrest : ∀ i ∈ rest, i ∈ nodes) :
    ∃ more, (rest.foldl (Segment.add map imports outside runs) s).nodes = s.nodes ++ more := by
  induction rest generalizing s with
  | nil => exact ⟨[], (List.append_nil _).symm⟩
  | cons i rest ih =>
    have hi := hrest i (List.mem_cons_self ..)
    obtain ⟨put, hput⟩ : ∃ put, (s.add map imports outside runs i).nodes = s.nodes ++ put :=
      h.extends_add hmap hruns hi
    obtain ⟨more, hmore⟩ := ih (h.add hmap hruns hi) fun j hj => hrest j (List.mem_cons_of_mem _ hj)
    exact ⟨put ++ more, by rw [List.foldl_cons, hmore, hput, List.append_assoc]⟩

end Segment

/-! ## The first marker that is pulled to a place -/

/-- The fragment pulls the label to the place that `l` has in the gap. -/
def PulledTo (gap : List Node) (fragment : Code) (l own : Label) : Prop :=
  ∃ i, fragment.imports.get? own = some i ∧ i.pulled ∧ SamePlace gap i.host l

/-- After so many instructions the fragment has the first marker that it pulls
to the place of `l`. -/
def FirstPull (gap : List Node) (fragment : Code) (l : Label) (n : Nat) : Prop :=
  ∃ before first after, fragment.toList = before ++ .label first :: after ∧
    before.countP Insn.isReal = n ∧ PulledTo gap fragment l first ∧
      ∀ own ∈ markers before, ¬PulledTo gap fragment l own

theorem exists_first {p : Label → Prop} {nodes : List Node} {l : Label} (hl : l ∈ markers nodes)
    (hp : p l) : ∃ before first after, nodes = before ++ .label first :: after ∧ p first ∧
      ∀ k ∈ markers before, ¬p k := by
  induction nodes with
  | nil => cases hl
  | cons i nodes ih =>
    by_cases hi : ∃ first, i = .label first ∧ p first
    · obtain ⟨first, rfl, hfirst⟩ := hi
      exact ⟨[], first, nodes, rfl, hfirst, nofun⟩
    · have hhead : ∀ k, i.marker? = some k → ¬p k := by
        intro k hk hpk
        refine hi ⟨k, ?_, hpk⟩
        cases i <;> cases hk
        rfl
      rw [markers_cons, List.mem_append, Option.mem_toList] at hl
      obtain ⟨before, first, after, rfl, hfirst, hno⟩ :=
        ih (hl.resolve_left fun h => hhead l h hp)
      refine ⟨i :: before, first, after, rfl, hfirst, fun k hk => ?_⟩
      rw [markers_cons, List.mem_append, Option.mem_toList] at hk
      rcases hk with hk | hk
      · exact hhead k hk
      · exact hno k hk

/-! ## Pulled markers in the host -/

section Splice
variable {host fragment : Code} {index count : Nat}

/-- The nodes that a splice takes away. -/
def gap (host : Code) (index count : Nat) : List Node := (host.toList.drop index).take count

theorem mem_kept (h : host.Stored) {l : Label} (hl : l ∈ host.issued) :
    l ∈ kept host index count ↔
      l ∈ markers (host.toList.take index) ∨ l ∈ markers (host.toList.drop (index + count)) := by
  have hstored := (mem_issued h.own).1 hl
  rw [toList, ← nodesOf_take h.made, ← nodesOf_drop h.made, mem_markers_nodesOf h.own,
    mem_markers_nodesOf h.own, kept, List.mem_append]
  simp only [hstored, and_true]

theorem issued_of_mem_gap {l : Label} (hl : l ∈ markers (gap host index count)) :
    l ∈ host.issued := by
  apply mem_issued_of_mem_markers
  rw [markers_around index count, List.mem_append, List.mem_append]
  exact .inl (.inr hl)

/-- A label that is marked in the gap is one of the host, and stands nowhere else. -/
theorem apart_of_mem_gap (h : host.Stored) (hn : (markers host.toList).Nodup) {l : Label}
    (hl : l ∈ markers (gap host index count)) : l ∈ host.issued ∧ l ∉ kept host index count := by
  have hissued := issued_of_mem_gap hl
  refine ⟨hissued, fun hk => ?_⟩
  rw [markers_around index count, List.nodup_append, List.nodup_append] at hn
  obtain ⟨⟨-, -, hbefore⟩, -, hafter⟩ := hn
  rcases (mem_kept h hissued).1 hk with hk | hk
  · exact hbefore l hk l hl rfl
  · exact hafter l (List.mem_append_right _ hl) l hk rfl

theorem nodup_gap (hn : (markers host.toList).Nodup) : (markers (gap host index count)).Nodup := by
  rw [markers_around index count, List.nodup_append, List.nodup_append] at hn
  exact hn.1.2.1

/-- The segment after a part of the fragment. -/
def segmentOf (host fragment : Code) (index count : Nat) (nodes : List Node) : Segment :=
  nodes.foldl (Segment.add (adopt host fragment).map fragment.imports
    (Std.HashSet.ofList (kept host index count)) (runTable (gap host index count)))
      { store := (adopt host fragment).host.store }

theorem segment_eq (h : host.Stored) (index count : Nat) :
    segment host index count fragment = segmentOf host fragment index count fragment.toList := by
  rw [segment, nodesOf_removed h, segmentOf, gap]

theorem stored_gap (h : host.Stored) (k : Label) :
    ∀ l ∈ (runTable (gap host index count)).getD k [],
      (adopt host fragment).host.store[l]? = some (.label l) := by
  rw [gap, ← nodesOf_removed h]
  exact stored_runs h.own index count k

theorem sound_segmentOf (h : host.Stored) (hb : fragment.Binds host) {nodes : List Node}
    (hsub : ∀ i ∈ nodes, i ∈ fragment.toList) (index count : Nat) :
    (segmentOf host fragment index count nodes).Sound (adopt host fragment).host.store
      (Std.HashSet.ofList (kept host index count)) (adopt host fragment).map fragment.toList := by
  refine List.foldlRecOn (motive := Segment.Sound _ _ _ _) _ _ ?_ fun s hs i hi => ?_
  · exact sound_start h.own index count
  · exact hs.add (stored_map_marker h.own hb) (stored_gap h) (hsub i hi)

/-- The segment has as many instructions as the part of the fragment. -/
theorem countP_segmentOf (h : host.Stored) (hb : fragment.Binds host) {nodes : List Node}
    (hsub : ∀ i ∈ nodes, i ∈ fragment.toList) :
    (segmentOf host fragment index count nodes).nodes.countP Insn.isReal =
      nodes.countP Insn.isReal := by
  have hreal : realNodes (segmentOf host fragment index count nodes).nodes = _ :=
    (sound_start h.own index count).realNodes_foldl (stored_map_marker h.own hb) (stored_gap h) hsub
  have hlen := congrArg List.length hreal
  rw [List.length_append, List.length_map] at hlen
  rw [List.countP_eq_length_filter, List.countP_eq_length_filter]
  simpa [segmentOf, realNodes, Segment.nodes, nodesOf] using hlen

/-- A marker that the segment has before the first one pulled to a place is not of that place. -/
theorem not_samePlace_of_marked (h : host.Stored) (hn : (markers host.toList).Nodup)
    {nodes : List Node} (hsub : ∀ i ∈ nodes, i ∈ fragment.toList) {l : Label} (hl : l ∈ host.issued)
    (hno : ∀ own ∈ markers nodes, ¬PulledTo (gap host index count) fragment l own) {k : Label}
    (hk : k ∈ (segmentOf host fragment index count nodes).marked) :
    ¬SamePlace (gap host index count) k l := by
  intro hsame
  rcases Segment.mem_marked hk with hk | ⟨own, hown, hmoves, hk⟩
  · exact Std.HashSet.not_mem_empty hk
  have hplace := (samePlace_iff (nodup_gap hn) ((adopt host fragment).map own) k).2 hk
  have hto := hplace.trans (nodup_gap hn) hsame
  have hissued : own ∈ fragment.issued :=
    mem_issued_of_mem_markers (mem_markers.2 (hsub _ (mem_markers.1 hown)))
  cases hi : fragment.imports.get? own with
  | some i =>
    unfold Moves at hmoves
    rw [hi] at hmoves
    rw [map_of_bound h.own hissued hi] at hto
    exact hno own hown ⟨i, hi, hmoves, hto⟩
  | none =>
    -- A new label is none of the host.
    obtain ⟨-, hle, -⟩ := map_of_unbound h.own hissued hi
    rcases hto with heq | ⟨n, hfresh, -⟩
    · exact Nat.not_lt_of_le hle (heq ▸ lt_size_of_issued h.own hl)
    · exact Nat.not_lt_of_le hle (lt_size_of_issued h.own (issued_of_mem_gap hfresh.mem))

/-- Where the fragment's marker of a label that is new moves, the label and
those that it brings along land with as many instructions before them as the
marker has. -/
theorem markedAt_segment_of_new (h : host.Stored) (hb : fragment.Binds host)
    {before after : List Node} {own l : Label}
    (hsplit : fragment.toList = before ++ .label own :: after)
    (hmoves : Moves fragment.imports own)
    (hnew : (adopt host fragment).map own ∉ kept host index count ∧
      (adopt host fragment).map own ∉ (segmentOf host fragment index count before).marked)
    (hbrought : l = (adopt host fragment).map own ∨
      l ∈ (runTable (gap host index count)).getD ((adopt host fragment).map own) [])
    (hl : l ∉ kept host index count ∧ l ∉ (segmentOf host fragment index count before).marked) :
    MarkedAt (segment host index count fragment).nodes (before.countP Insn.isReal) l := by
  have hparts : ∀ {i}, i ∈ before ∨ i = .label own ∨ i ∈ after → i ∈ fragment.toList :=
    fun hi => by rwa [hsplit, List.mem_append, List.mem_cons]
  have hbefore : ∀ i ∈ before, i ∈ fragment.toList := fun i hi => hparts (.inl hi)
  have hown : .label own ∈ fragment.toList := hparts (.inr (.inl rfl))
  have hafter : ∀ i ∈ after, i ∈ fragment.toList := fun i hi => hparts (.inr (.inr hi))
  have hmap := stored_map_marker h.own hb
  have hs := sound_segmentOf h hb hbefore index count
  have notOutside : ∀ {k : Label}, k ∉ kept host index count →
      k ∉ Std.HashSet.ofList (kept host index count) := fun hk hin =>
    hk (by simpa [Std.HashSet.mem_ofList] using hin)
  have hmark := hs.markedAt_add hmap (stored_gap h) (mem_markers.2 hown) hmoves
    (hnew.imp_left notOutside) hbrought (hl.imp_left notOutside)
  rw [countP_segmentOf h hb hbefore] at hmark
  obtain ⟨more, hmore⟩ := Segment.Sound.extends_foldl
    (hs.add hmap (stored_gap h) hown) hmap (stored_gap h) hafter
  rw [segment_eq h, hsplit, segmentOf, List.foldl_append, List.foldl_cons]
  exact hmore ▸ hmark.append more

/-- The first marker that is pulled to a place takes all markers of the place
along, so they land with as many instructions before them as it has. -/
theorem markedAt_segment (h : host.Stored) (hb : fragment.Binds host)
    (hn : (markers host.toList).Nodup) {l : Label} (hl : l ∈ host.issued)
    (hout : l ∉ kept host index count) {n : Nat}
    (hfirst : FirstPull (gap host index count) fragment l n) :
    MarkedAt (segment host index count fragment).nodes n l := by
  obtain ⟨before, first, after, hsplit, rfl, ⟨i, hi, hpulled, hsame⟩, hno⟩ := hfirst
  have hbefore : ∀ i ∈ before, i ∈ fragment.toList := fun i hi => by
    rw [hsplit]
    exact List.mem_append_left _ hi
  have hfirst : first ∈ fragment.issued := mem_issued_of_mem_markers <| mem_markers.2 <| by
    rw [hsplit]
    exact List.mem_append_right _ (List.mem_cons_self ..)
  have hnot := fun k => not_samePlace_of_marked (k := k) h hn hbefore hl hno
  have hhost : (adopt host fragment).map first = i.host := map_of_bound h.own hfirst hi
  have hhostOut : i.host ∉ kept host index count := by
    rcases hsame with rfl | ⟨m, hm, -⟩
    · exact hout
    · exact (apart_of_mem_gap h hn hm.mem).2
  have hmoves : Moves fragment.imports first := by
    rw [Moves, hi]
    exact hpulled
  refine markedAt_segment_of_new h hb hsplit hmoves ?_ ((samePlace_iff (nodup_gap hn) _ _).1 ?_)
    ⟨hout, fun hk => hnot _ hk (.inl rfl)⟩
  · rw [hhost]
    exact ⟨hhostOut, fun hk => hnot _ hk hsame⟩
  · rw [hhost]
    exact hsame

/-- The markers of the gap that come first stand before every instruction. -/
theorem markedAt_insertion {l : Label} {n : Nat}
    (hl : MarkedAt (segment host index count fragment).nodes n l) :
    MarkedAt (insertion host index count fragment) n l := by
  have hhoisted := (segment host index count fragment).realNodes_hoisted (removed host index count)
  have hput := hl.prepend (nodesOf (segment host index count fragment).store
    ((segment host index count fragment).hoisted (removed host index count)))
  unfold realNodes at hhoisted
  rwa [List.countP_eq_length_filter, hhoisted, List.length_nil, Nat.zero_add] at hput

/-- A label of the host that the segment marks is marked once in all that is put in. -/
theorem count_insertion (h : host.Stored) (hb : fragment.Binds host) {l : Label}
    (hl : l ∈ host.issued) (hm : l ∈ markers (segment host index count fragment).nodes) :
    (markers (insertion host index count fragment)).count l = 1 := by
  have hs := sound_segment h.own hb index count
  have hold := (mem_issued h.own).1 hl
  have hstored : (segment host index count fragment).store[l]? = some (.label l) :=
    retains_splice h hb index count l _ hold
  have hin : l ∈ (segment host index count fragment).handles :=
    List.mem_reverse.1 ((mem_markers_nodesOf hs.own).1 hm).1
  have hmarked : l ∈ (segment host index count fragment).marked := by
    rcases hs.origin l hin with ⟨hmarked, -⟩ | ⟨hle, -⟩
    · exact hmarked
    · have hsize := (settled_adopt h.own fragment).retains.size_le
      exact absurd (lt_size_of_getElem? hold) (Nat.not_lt_of_le (Nat.le_trans hsize hle))
  rw [insertion, markers_append, List.count_append, Segment.nodes,
    count_markers_nodesOf hs.own hstored, count_markers_nodesOf hs.own hstored,
    count_hoisted h hb hold, if_pos hmarked, List.count_reverse, hs.once.count, if_pos hin]

/-- Whatever a splice takes away, the marker of each pulled label that stands
nowhere else goes in with the fragment. It has as many instructions before it
as the first marker that the fragment pulls to its place, so as its own if the
fragment has no such marker earlier. -/
theorem splice_pulls (h : host.Stored) (hb : fragment.Binds host)
    (hn : (markers host.toList).Nodup) (index count : Nat) : ∃ put label,
      put.length = (host.splice index count fragment).1 ∧
      (host.splice index count fragment).2.toList =
        host.toList.take index ++ put ++ host.toList.drop (index + count) ∧
      realNodes put = (realNodes fragment.toList).map (Insn.mapLabels label) ∧
      ∀ own ∈ markers fragment.toList, ∀ i, fragment.imports.get? own = some i → i.pulled →
        i.host ∉ markers (host.toList.take index) →
        i.host ∉ markers (host.toList.drop (index + count)) →
          (markers put).count i.host = 1 ∧
          (∃ n, FirstPull (gap host index count) fragment i.host n ∧ MarkedAt put n i.host) ∧
          ∀ before after, fragment.toList = before ++ .label own :: after →
            (∀ k ∈ markers before, ¬PulledTo (gap host index count) fragment i.host k) →
              MarkedAt put (before.countP Insn.isReal) i.host := by
  refine ⟨insertion host index count fragment, (adopt host fragment).map,
    length_insertion h hb index count, toList_splice h hb index count,
    realNodes_insertion h hb index count, ?_⟩
  intro own hown i hi hpulled hbefore hafter
  have hissued := hb own i hi
  have hout : i.host ∉ kept host index count := fun hk =>
    ((mem_kept h hissued).1 hk).elim hbefore hafter
  have hto : PulledTo (gap host index count) fragment i.host own := ⟨i, hi, hpulled, .inl rfl⟩
  obtain ⟨before, first, after, hsplit, hfirst, hno⟩ := exists_first hown hto
  have hpull : FirstPull (gap host index count) fragment i.host (before.countP Insn.isReal) :=
    ⟨before, first, after, hsplit, rfl, hfirst, hno⟩
  have hsegment := markedAt_segment h hb hn hissued hout hpull
  refine ⟨count_insertion h hb hissued hsegment.mem, ⟨_, hpull, markedAt_insertion hsegment⟩, ?_⟩
  intro before after hsplit hno
  exact markedAt_insertion
    (markedAt_segment h hb hn hissued hout ⟨before, own, after, hsplit, rfl, hto, hno⟩)

end Splice

/-- Two markers that share a place. -/
def sharingHost : Code :=
  (((Code.empty.push (.simple .ICONST_0)).mark "a").mark "b").push (.simple .POP)

/-- Code that has the two at different places. -/
def splittingFragment : Code :=
  (((((Code.empty.push (.simple .NOP)).mark "a").push (.simple .ICONST_1)).mark "b").push
    (.simple .POP)).pullLabels { labels := [("a", 1), ("b", 2)] }

theorem get?_imports_splitting {l : Label} {i : Import}
    (hi : splittingFragment.imports.get? l = some i) :
    l = 1 ∧ i = ⟨1, true⟩ ∨ l = 3 ∧ i = ⟨2, true⟩ := by
  have himports : splittingFragment.imports = [(1, ⟨1, true⟩), (3, ⟨2, true⟩)] := by decide
  have he := Dict.mem_of_get? (himports ▸ hi)
  simpa using he

theorem binds_splitting : splittingFragment.Binds sharingHost := by
  intro l i hi
  rcases get?_imports_splitting hi with ⟨-, rfl⟩ | ⟨-, rfl⟩ <;> decide

theorem splitting_is_pulled :
    sharingHost.Stored ∧ splittingFragment.Binds sharingHost ∧ (markers sharingHost.toList).Nodup ∧
    MarkedAt (sharingHost.splice 0 4 splittingFragment).2.toList 1 1 ∧
    (markers (sharingHost.splice 0 4 splittingFragment).2.toList).count 2 = 1 ∧
    ∃ n, FirstPull (gap sharingHost 0 4) splittingFragment 2 n ∧
      MarkedAt (sharingHost.splice 0 4 splittingFragment).2.toList n 2 := by
  have hstored : sharingHost.Stored := by decide
  have hn : (markers sharingHost.toList).Nodup := by decide
  obtain ⟨put, label, -, hlist, -, hpulled⟩ := splice_pulls hstored binds_splitting hn 0 4
  have hput : (sharingHost.splice 0 4 splittingFragment).2.toList = put := by
    have hdrop : sharingHost.toList.drop (0 + 4) = [] := by decide
    rw [hlist, hdrop, List.append_nil]
    rfl
  rw [hput]
  have hone := hpulled 1 (by decide) ⟨1, true⟩ (by decide) rfl (by decide) (by decide)
  have htwo := hpulled 3 (by decide) ⟨2, true⟩ (by decide) rfl (by decide) (by decide)
  have hfragment : splittingFragment.toList = [.simple .NOP] ++ .label 1 ::
      [.simple .ICONST_1, .label 3, .simple .POP] := by decide
  exact ⟨hstored, binds_splitting, hn, hone.2.2 _ _ hfragment (List.forall_mem_nil _), htwo.1,
    htwo.2.1⟩

theorem splice_splitting : (sharingHost.splice 0 4 splittingFragment).2.toList =
    [.simple .NOP, .label 1, .label 2, .simple .ICONST_1, .simple .POP] := by
  have hfragment : splittingFragment.store =
        #[.simple .NOP, .label 1, .simple .ICONST_1, .label 3, .simple .POP] ∧
      splittingFragment.order = #[0, 1, 2, 3, 4] ∧ splittingFragment.issued = [1, 3] ∧
      splittingFragment.imports = [(1, ⟨1, true⟩), (3, ⟨2, true⟩)] := by decide
  have hhost : sharingHost.store = #[.simple .ICONST_0, .label 1, .label 2, .simple .POP] ∧
      sharingHost.order = #[0, 1, 2, 3] := by decide
  simp [splice, adopt, hfragment, hhost, Adoption.add, Adoption.map, Dict.get?, toList, nodesOf,
    runTable, markerRuns, Runs.add, Runs.close, Segment.add, Insn.marker?, Segment.push,
    Segment.mark, Segment.hoisted, Insn.mapLabels, Std.HashMap.getD_insert]

/-- A marker that goes along with another does not land at its own mark: the
fragment has two instructions before it, the host gets one. -/
theorem pulled_off_its_mark :
    sharingHost.Stored ∧ splittingFragment.Binds sharingHost ∧ (markers sharingHost.toList).Nodup ∧
    (markers splittingFragment.toList).Nodup ∧
    (∀ l l' i i', splittingFragment.imports.get? l = some i →
      splittingFragment.imports.get? l' = some i' → i.host = i'.host → l = l') ∧
    splittingFragment.imports.get? 3 = some ⟨2, true⟩ ∧
    2 ∉ markers (sharingHost.toList.take 0) ∧ 2 ∉ markers (sharingHost.toList.drop (0 + 4)) ∧
    MarkedAt splittingFragment.toList 2 3 ∧
    MarkedAt (sharingHost.splice 0 4 splittingFragment).2.toList 1 2 ∧
    ¬MarkedAt (sharingHost.splice 0 4 splittingFragment).2.toList 2 2 := by
  have hlist := splice_splitting
  have hone : MarkedAt (sharingHost.splice 0 4 splittingFragment).2.toList 1 2 :=
    ⟨[.simple .NOP, .label 1], [.simple .ICONST_1, .simple .POP], hlist, rfl⟩
  have hfragment : splittingFragment.toList =
      [.simple .NOP, .label 1, .simple .ICONST_1] ++ .label 3 :: [.simple .POP] := by decide
  refine ⟨by decide, binds_splitting, by decide, by decide, ?_, by decide, by decide, by decide,
    ⟨_, _, hfragment, rfl⟩, hone, fun htwo => ?_⟩
  · intro l l' i i' hi hi' hhost
    rcases get?_imports_splitting hi with ⟨rfl, rfl⟩ | ⟨rfl, rfl⟩ <;>
      rcases get?_imports_splitting hi' with ⟨rfl, rfl⟩ | ⟨rfl, rfl⟩ <;> first | rfl | cases hhost
  · have hnodup : (markers (sharingHost.splice 0 4 splittingFragment).2.toList).Nodup := by
      rw [hlist]
      decide
    exact absurd (hone.unique hnodup htwo) (by decide)

end ClassPatch.Code
