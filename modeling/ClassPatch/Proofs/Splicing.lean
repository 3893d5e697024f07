-- A splice keeps code linked: what a node or a handler names is marked in
-- place, once. Markers that were in place stay so, whatever is removed and
-- whatever the fragment takes over.
import ClassPatch.Code.Splice
import ClassPatch.Proofs.Storage
import ClassPatch.Proofs.Ties

namespace ClassPatch.Code

/-! ## Code of its own labels -/

/-- Handles lead to what is stored: labels to their markers, and those in
place to nodes. -/
structure Stored (c : Code) : Prop where
  own : OwnHandles c.store
  made : ∀ h ∈ c.order.toList, h < c.store.size

instance (c : Code) : Decidable c.Stored :=
  decidable_of_iff (OwnHandles c.store ∧ ∀ h ∈ c.order.toList, h < c.store.size)
    ⟨fun h => ⟨h.1, h.2⟩, fun h => ⟨h.own, h.made⟩⟩

/-- Code that was only ever given its own labels: whatever it branches to is
one of them, in place or not. -/
structure SelfContained (c : Code) : Prop extends c.Stored where
  branches : ∀ i ∈ c.toList, ∀ l ∈ i.targets, l ∈ c.issued

instance (c : Code) : Decidable c.SelfContained :=
  decidable_of_iff (c.Stored ∧ ∀ i ∈ c.toList, ∀ l ∈ i.targets, l ∈ c.issued)
    ⟨fun h => ⟨h.1, h.2⟩, fun h => ⟨h.toStored, h.branches⟩⟩

/-- The fragment binds its labels to labels of the host. -/
def Binds (fragment host : Code) : Prop :=
  ∀ l i, fragment.imports.get? l = some i → i.host ∈ host.issued

theorem mem_issued {c : Code} (ho : OwnHandles c.store) {l : Label} :
    l ∈ c.issued ↔ c.store[l]? = some (.label l) := by
  rw [issued, mem_markers, Array.mem_toList_iff, Array.mem_iff_getElem?]
  constructor
  · rintro ⟨h, hl⟩
    cases ho h l hl
    exact hl
  · exact fun hl => ⟨l, hl⟩

theorem lt_size_of_issued {c : Code} (ho : OwnHandles c.store) {l : Label} (hl : l ∈ c.issued) :
    l < c.store.size := lt_size_of_getElem? ((mem_issued ho).1 hl)

theorem mem_issued_of_mem_markers {c : Code} {l : Label} (h : l ∈ markers c.toList) :
    l ∈ c.issued := by
  rw [mem_markers] at h
  obtain ⟨k, _, hk⟩ := mem_nodesOf.1 h
  exact mem_markers.2 (Array.mem_toList_iff.2 (Array.mem_of_getElem? hk))

/-- Code of its own labels mentions no others, as markers or as targets. -/
theorem SelfContained.mentioned {c : Code} (h : c.SelfContained) {l : Label}
    (hl : l ∈ c.toList.flatMap Insn.labels) : l ∈ c.issued := by
  obtain ⟨i, hi, hl⟩ := List.mem_flatMap.1 hl
  cases i with
  | label k =>
    cases List.mem_singleton.1 hl
    exact mem_issued_of_mem_markers (mem_markers.2 hi)
  | _ => exact h.branches _ hi l hl

/-! ## Linked code -/

/-- Every place that the code names is marked, each label at most once, and
every local is a slot. -/
structure Linked (c : Code) : Prop where
  own : OwnHandles c.store
  made : ∀ h ∈ c.order.toList, h < c.store.size
  once : c.order.toList.Nodup
  branches : ∀ i ∈ c.toList, ∀ l ∈ i.targets, l ∈ markers c.toList
  ranges : ∀ h ∈ c.handlers.toList, ∀ l ∈ h.labels, l ∈ markers c.toList
  slots : ∀ i ∈ c.toList, i.NoTemp

/-- The label is marked in the fragment or bound to one of the host. -/
def Grounded (fragment : Code) (l : Label) : Prop :=
  l ∈ markers fragment.toList ∨ (fragment.imports.get? l).isSome

/-- The fragment may be spliced into the host: it binds labels that the
host marks, and names nothing but what it marks or binds. -/
structure Fits (fragment host : Code) : Prop where
  bound : ∀ l i, fragment.imports.get? l = some i →
    l ∈ fragment.issued ∧ i.host ∈ markers host.toList
  branches : ∀ i ∈ fragment.toList, ∀ l ∈ i.targets, fragment.Grounded l
  ranges : ∀ h ∈ fragment.handlers.toList, ∀ l ∈ h.labels, fragment.Grounded l

theorem Linked.nodup_markers {c : Code} (h : c.Linked) : (markers c.toList).Nodup :=
  nodup_markers_nodesOf h.own h.once

theorem Linked.selfContained {c : Code} (h : c.Linked) : c.SelfContained :=
  ⟨⟨h.own, h.made⟩, fun i hi l hl => mem_issued_of_mem_markers (h.branches i hi l hl)⟩

theorem Fits.binds {fragment host : Code} (h : fragment.Fits host) : fragment.Binds host :=
  fun l i hi => mem_issued_of_mem_markers (h.bound l i hi).2

/-! ## Adopted labels -/

/-- What holds once the labels in `done` have their labels in the host. -/
structure Adoption.Settled (imports : Dict Label Import) (store : Array Node) (done : List Label)
    (a : Adoption) : Prop where
  retains : Retains store a.host.store
  own : OwnHandles a.host.store
  bound : ∀ l ∈ done, ∀ i, imports.get? l = some i → a.image[l]? = some i.host
  fresh : ∀ l ∈ done, imports.get? l = none →
    ∃ k, a.image[l]? = some k ∧ store.size ≤ k ∧ a.host.store[k]? = some (.label k)
  apart : ∀ l ∈ done, ∀ l' ∈ done, imports.get? l = none → imports.get? l' = none →
    a.image[l]? = a.image[l']? → l = l'

section Adopting
variable {imports : Dict Label Import} {store : Array Node} {done : List Label} {a : Adoption}
  {l : Label}

/-- What a label gets is no matter to another one. -/
theorem getElem?_insert_other {image : Std.HashMap Label Label} {k own : Label} (hne : k ≠ l) :
    (image.insert l own)[k]? = image[k]? := by
  rw [Std.HashMap.getElem?_insert, if_neg (by simpa using Ne.symm hne)]

/-- A label that is bound gets the label of the host that it is bound to. -/
theorem Adoption.Settled.add_bound (h : a.Settled imports store done) {i : Import}
    (hi : imports.get? l = some i) : (a.add imports l).Settled imports store (l :: done) := by
  have hadd : a.add imports l = { a with image := a.image.insert l i.host } := by
    rw [Adoption.add, hi]
  have hother : ∀ k ∈ l :: done, imports.get? k = none →
      k ∈ done ∧ (a.image.insert l i.host)[k]? = a.image[k]? := by
    intro k hk hn
    have hne : k ≠ l := by
      rintro rfl
      rw [hi] at hn
      cases hn
    exact ⟨List.mem_of_ne_of_mem hne hk, getElem?_insert_other hne⟩
  rw [hadd]
  refine ⟨h.retains, h.own, fun k hk j hj => ?_, fun k hk hn => ?_,
    fun k hk k' hk' hn hn' heq => ?_⟩
  · by_cases hkl : k = l
    · subst hkl
      rw [hi] at hj
      cases hj
      exact Std.HashMap.getElem?_insert_self
    · exact (getElem?_insert_other hkl).trans (h.bound k (List.mem_of_ne_of_mem hkl hk) j hj)
  · obtain ⟨hk, himage⟩ := hother k hk hn
    dsimp only
    rw [himage]
    exact h.fresh k hk hn
  · obtain ⟨hk, himage⟩ := hother k hk hn
    obtain ⟨hk', himage'⟩ := hother k' hk' hn'
    dsimp only at heq
    rw [himage, himage'] at heq
    exact h.apart k hk k' hk' hn hn' heq

/-- No label that is not bound has the label that the host makes next. -/
theorem Adoption.Settled.image_ne_size (h : a.Settled imports store done) {k : Label}
    (hk : k ∈ done) (hn : imports.get? k = none) : a.image[k]? ≠ some a.host.store.size := by
  intro heq
  obtain ⟨j, hj, _, hs⟩ := h.fresh k hk hn
  rw [hj] at heq
  cases heq
  exact Nat.lt_irrefl _ (lt_size_of_getElem? hs)

/-- A label that is not bound gets a label of the host that no other one has. -/
theorem Adoption.Settled.add_new (h : a.Settled imports store done)
    (hl : imports.get? l = none) : (a.add imports l).Settled imports store (l :: done) := by
  have hadd : a.add imports l =
      { host := a.host.newLabel.2, image := a.image.insert l a.host.store.size } := by
    rw [Adoption.add, hl]
    rfl
  have hpush := retains_push a.host.store (.label a.host.store.size)
  rw [hadd]
  refine ⟨h.retains.trans hpush, h.own.push (by rintro _ ⟨⟩; rfl), fun k hk j hj => ?_,
    fun k hk hn => ?_, fun k hk k' hk' hn hn' heq => ?_⟩
  · have hne : k ≠ l := by
      rintro rfl
      rw [hl] at hj
      cases hj
    exact (getElem?_insert_other hne).trans (h.bound k (List.mem_of_ne_of_mem hne hk) j hj)
  · by_cases hkl : k = l
    · subst hkl
      exact ⟨_, Std.HashMap.getElem?_insert_self, h.retains.size_le, Array.getElem?_push_size⟩
    · obtain ⟨k', hi, hle, hs⟩ := h.fresh k (List.mem_of_ne_of_mem hkl hk) hn
      exact ⟨k', (getElem?_insert_other hkl).trans hi, hle, hpush _ _ hs⟩
  · dsimp only at heq
    by_cases he : k = l <;> by_cases he' : k' = l
    · rw [he, he']
    · rw [he, Std.HashMap.getElem?_insert_self, getElem?_insert_other he'] at heq
      exact absurd heq.symm (h.image_ne_size (List.mem_of_ne_of_mem he' hk') hn')
    · rw [he', Std.HashMap.getElem?_insert_self, getElem?_insert_other he] at heq
      exact absurd heq (h.image_ne_size (List.mem_of_ne_of_mem he hk) hn)
    · rw [getElem?_insert_other he, getElem?_insert_other he'] at heq
      exact h.apart k (List.mem_of_ne_of_mem he hk) k' (List.mem_of_ne_of_mem he' hk') hn hn' heq

theorem Adoption.Settled.add (h : a.Settled imports store done) (l : Label) :
    (a.add imports l).Settled imports store (l :: done) := by
  cases hl : imports.get? l with
  | some i => exact h.add_bound hl
  | none => exact h.add_new hl

theorem Adoption.Settled.foldl (h : a.Settled imports store done) (ls : List Label) :
    (ls.foldl (Adoption.add imports) a).Settled imports store (ls.reverse ++ done) := by
  induction ls generalizing a done with
  | nil => exact h
  | cons l ls ih =>
    rw [List.reverse_cons, List.append_assoc]
    exact ih (h.add l)

end Adopting

/-- All labels of the fragment have labels of the host. -/
theorem settled_adopt {host : Code} (ho : OwnHandles host.store) (fragment : Code) :
    (adopt host fragment).Settled fragment.imports host.store fragment.issued.reverse := by
  have h : ({ host } : Adoption).Settled fragment.imports host.store [] :=
    ⟨.refl _, ho, by simp, by simp, by simp⟩
  have := h.foldl fragment.issued
  rwa [List.append_nil] at this

/-! ## Groups of markers -/

/-- The labels of each group, closed or still open, are markers of the nodes. -/
def Runs.Within (nodes : List Node) (r : Runs) : Prop :=
  ∀ run ∈ r.open_ :: r.done, ∀ l ∈ run, l ∈ markers nodes

theorem Runs.Within.close {nodes : List Node} {r : Runs} (h : r.Within nodes) :
    r.close.Within nodes := by
  intro run hrun l hl
  simp only [Runs.close, List.mem_cons] at hrun
  rcases hrun with rfl | rfl | hrun
  · cases hl
  · exact h _ (List.mem_cons_self ..) l (List.mem_reverse.1 hl)
  · exact h _ (List.mem_cons_of_mem _ hrun) l hl

theorem Runs.Within.add {nodes : List Node} {r : Runs} (h : r.Within nodes) {i : Node}
    (hi : i ∈ nodes) : (r.add i).Within nodes := by
  cases i with
  | label k =>
    intro run hrun l hl
    rcases List.mem_cons.1 hrun with rfl | hrun
    · rcases List.mem_cons.1 hl with rfl | hl
      · exact mem_markers.2 hi
      · exact h _ (List.mem_cons_self ..) l hl
    · exact h _ (List.mem_cons_of_mem _ hrun) l hl
  | line => exact h
  | _ => exact h.close

theorem mem_markerRuns {nodes : List Node} {run : List Label} (hr : run ∈ markerRuns nodes)
    {l : Label} (hl : l ∈ run) : l ∈ markers nodes := by
  have all : (nodes.foldl Runs.add {}).Within nodes :=
    List.foldlRecOn nodes Runs.add (by simp [Runs.Within]) fun r h i hi => h.add hi
  exact all.close run (List.mem_cons_of_mem _ (List.mem_reverse.1 hr)) l hl

/-- Each group in the table consists of markers of the nodes. -/
def Tabled (nodes : List Node) (m : Std.HashMap Label (List Label)) : Prop :=
  ∀ (k : Label) (run : List Label), m[k]? = some run → ∀ l ∈ run, l ∈ markers nodes

theorem tabled_runTable (nodes : List Node) : Tabled nodes (runTable nodes) := by
  refine List.foldlRecOn (motive := Tabled nodes) _ _ (by simp [Tabled]) fun m hm run hrun => ?_
  refine List.foldlRecOn (motive := Tabled nodes) run _ hm fun m hm k' hk' => ?_
  intro k run' hk l hl
  rw [Std.HashMap.getElem?_insert] at hk
  split at hk
  · cases hk
    exact mem_markerRuns (List.mem_filter.1 hrun).1 hl
  · exact hm k run' hk l hl

theorem mem_runTable {nodes : List Node} {k l : Label} (hl : l ∈ (runTable nodes).getD k []) :
    l ∈ markers nodes := by
  rw [Std.HashMap.getD_eq_getD_getElem?] at hl
  cases hk : (runTable nodes)[k]? with
  | none =>
    rw [hk] at hl
    cases hl
  | some run =>
    rw [hk] at hl
    exact tabled_runTable nodes k run hk l hl

/-! ## The segment -/

section Segment
variable {base : Array Node} {outside : Std.HashSet Handle} {map : Label → Label}
  {imports : Dict Label Import} {runs : Std.HashMap Label (List Label)}

/-- What holds while a segment grows: its handles are markers of labels that
stood nowhere outside, and nodes that were made for it from `nodes`. -/
structure Segment.Sound (base : Array Node) (outside : Std.HashSet Handle) (map : Label → Label)
    (nodes : List Node) (s : Segment) : Prop where
  retains : Retains base s.store
  own : OwnHandles s.store
  once : s.handles.Nodup
  marked : ∀ l ∈ s.marked, l ∈ s.handles ∧ l ∉ outside
  origin : ∀ h ∈ s.handles, h ∈ s.marked ∧ s.store[h]? = some (.label h) ∨
    base.size ≤ h ∧ ∃ i ∈ nodes, i.marker? = none ∧ s.store[h]? = some (i.mapLabels map)

theorem Segment.Sound.lt_size {nodes : List Node} {s : Segment}
    (h : s.Sound base outside map nodes) {k : Handle} (hk : k ∈ s.handles) : k < s.store.size := by
  rcases h.origin k hk with ⟨_, hs⟩ | ⟨_, _, _, _, hs⟩ <;> exact lt_size_of_getElem? hs

theorem Segment.Sound.mark {nodes : List Node} {s : Segment}
    (h : s.Sound base outside map nodes) {l : Label} (hl : base[l]? = some (.label l)) :
    (s.mark outside l).Sound base outside map nodes := by
  unfold Segment.mark
  split
  · exact h
  · rename_i hc
    simp only [Bool.or_eq_true, not_or, Std.HashSet.contains_iff_mem] at hc
    have hstored := h.retains _ _ hl
    have hnew : l ∉ s.handles := by
      intro hmem
      rcases h.origin l hmem with ⟨hm, _⟩ | ⟨_, i, _, hi, hs⟩
      · exact hc.2 hm
      · rw [hstored, Option.some.injEq] at hs
        have := Insn.marker?_mapLabels map i
        rw [← hs, hi] at this
        cases this
    refine ⟨h.retains, h.own, List.nodup_cons.2 ⟨hnew, h.once⟩, ?_, ?_⟩
    · intro k hk
      rw [Std.HashSet.mem_insert, beq_iff_eq] at hk
      rcases hk with rfl | hk
      · exact ⟨List.mem_cons_self .., hc.1⟩
      · exact ⟨List.mem_cons_of_mem _ (h.marked k hk).1, (h.marked k hk).2⟩
    · intro k hk
      rcases List.mem_cons.1 hk with rfl | hk
      · exact .inl ⟨Std.HashSet.mem_insert_self, hstored⟩
      · rcases h.origin k hk with ⟨hm, hs⟩ | ho
        · exact .inl ⟨Std.HashSet.mem_insert.2 (.inr hm), hs⟩
        · exact .inr ho

theorem Segment.Sound.push {nodes : List Node} {s : Segment}
    (h : s.Sound base outside map nodes) {i : Node} (hi : i ∈ nodes) (hm : i.marker? = none) :
    (s.push (i.mapLabels map)).Sound base outside map nodes := by
  have hmap : ∀ l, i.mapLabels map ≠ .label l := by
    intro l hl
    have := Insn.marker?_mapLabels map i
    rw [hl, hm] at this
    cases this
  have hret := retains_push s.store (i.mapLabels map)
  refine ⟨h.retains.trans hret, h.own.push fun l hl => absurd hl (hmap l), ?_, ?_, ?_⟩
  · refine List.nodup_cons.2 ⟨fun hmem => ?_, h.once⟩
    exact Nat.lt_irrefl _ (h.lt_size hmem)
  · intro l hl
    exact ⟨List.mem_cons_of_mem _ (h.marked l hl).1, (h.marked l hl).2⟩
  · intro k hk
    rcases List.mem_cons.1 hk with rfl | hk
    · exact .inr ⟨h.retains.size_le, i, hi, hm, Array.getElem?_push_size⟩
    · rcases h.origin k hk with ⟨hm, hs⟩ | ⟨hle, j, hj, hjm, hs⟩
      · exact .inl ⟨hm, hret _ _ hs⟩
      · exact .inr ⟨hle, j, hj, hjm, hret _ _ hs⟩

theorem Segment.Sound.add {nodes : List Node} {s : Segment} (h : s.Sound base outside map nodes)
    (hmap : ∀ l ∈ markers nodes, base[map l]? = some (.label (map l)))
    (hruns : ∀ k, ∀ l ∈ runs.getD k [], base[l]? = some (.label l)) {i : Node} (hi : i ∈ nodes) :
    (s.add map imports outside runs i).Sound base outside map nodes := by
  unfold Segment.add
  split
  · exact h.push hi ‹_›
  · rename_i own hown
    have hmem : own ∈ markers nodes := List.mem_filterMap.2 ⟨i, hi, hown⟩
    dsimp only
    split
    · exact h
    · refine List.foldlRecOn _ _ h fun s hs l hl => hs.mark ?_
      rcases List.mem_cons.1 hl with rfl | hl
      · exact hmap own hmem
      · exact hruns _ l hl

/-- Of some labels those are marked that stand nowhere outside and were not marked before. -/
theorem Segment.handles_marks (outside : Std.HashSet Handle) (labels : List Label) (s : Segment) :
    ∃ put : List Label, (labels.foldl (Segment.mark outside) s).handles = put ++ s.handles ∧
      put.Nodup ∧ (∀ l, l ∈ put ↔ l ∈ labels ∧ l ∉ outside ∧ l ∉ s.marked) ∧
      ∀ l, l ∈ (labels.foldl (Segment.mark outside) s).marked ↔ l ∈ s.marked ∨ l ∈ put := by
  induction labels generalizing s with
  | nil => exact ⟨[], rfl, .nil, by simp, by simp⟩
  | cons k ls ih =>
    obtain ⟨put, hput, hnodup, hmem, hmarked⟩ := ih (s.mark outside k)
    rw [List.foldl_cons]
    by_cases hskip : outside.contains k || s.marked.contains k
    · have hmark : s.mark outside k = s := if_pos hskip
      rw [hmark] at hput hmem hmarked ⊢
      refine ⟨put, hput, hnodup, fun l => (hmem l).trans ?_, hmarked⟩
      simp only [Bool.or_eq_true, Std.HashSet.contains_iff_mem] at hskip
      grind
    · have hmark : s.mark outside k =
          { s with handles := k :: s.handles, marked := s.marked.insert k } := if_neg hskip
      rw [hmark] at hput hmem hmarked ⊢
      simp only [Bool.or_eq_true, Std.HashSet.contains_iff_mem] at hskip
      simp only [Std.HashSet.mem_insert, beq_iff_eq] at hmem hmarked
      refine ⟨put ++ [k], by simp [hput], ?_, fun l => ?_, fun l => ?_⟩
      · refine List.nodup_append.2 ⟨hnodup, List.pairwise_singleton .., ?_⟩
        grind
      · grind
      · grind

/-- Markers that are put in place are stored already. -/
theorem Segment.store_marks (labels : List Label) (s : Segment) :
    (labels.foldl (Segment.mark outside) s).store = s.store := by
  induction labels generalizing s with
  | nil => rfl
  | cons l ls ih =>
    rw [List.foldl_cons, ih]
    unfold Segment.mark
    split <;> rfl

theorem Segment.marked_add {s : Segment} (i : Node) {k : Label} (hk : k ∈ s.marked) :
    k ∈ (s.add map imports outside runs i).marked := by
  unfold Segment.add
  split
  · exact hk
  · rename_i own _
    dsimp only
    split
    · exact hk
    · obtain ⟨_, -, -, -, hmarked⟩ :=
        handles_marks outside (map own :: runs.getD (map own) []) s
      exact (hmarked k).2 (.inl hk)

/-- After its turn the label of a marker is marked, unless it stands
outside or is one that the fragment leaves where the host has it. -/
theorem Segment.mem_marked_add {s : Segment} {i : Node} {own : Label} (hi : i.marker? = some own) :
    map own ∈ (s.add map imports outside runs i).marked ∨ map own ∈ outside ∨
      (imports.get? own).isSome := by
  unfold Segment.add
  rw [hi]
  dsimp only
  split
  · rename_i hc
    simp only [Bool.or_eq_true, Std.HashSet.contains_iff_mem] at hc
    rcases hc with (hp | ho) | hm
    · refine .inr (.inr ?_)
      cases hn : imports.get? own with
      | some => rfl
      | none =>
        rw [hn] at hp
        cases hp
    · exact .inr (.inl ho)
    · exact .inl hm
  · rename_i hc
    simp only [Bool.or_eq_true, not_or, Std.HashSet.contains_iff_mem] at hc
    obtain ⟨_, -, -, hmem, hmarked⟩ :=
      handles_marks outside (map own :: runs.getD (map own) []) s
    exact .inl ((hmarked _).2 (.inr ((hmem _).2 ⟨List.mem_cons_self .., hc.1.2, hc.2⟩)))

theorem Segment.mem_marked_foldl {nodes : List Node} {s : Segment} {own : Label}
    (hown : own ∈ markers nodes) :
    map own ∈ (nodes.foldl (Segment.add map imports outside runs) s).marked ∨
      map own ∈ outside ∨ (imports.get? own).isSome := by
  refine foldl_reaches (Q := fun (i : Node) (s : Segment) => i.marker? = some own →
    map own ∈ s.marked ∨ map own ∈ outside ∨ (imports.get? own).isSome) ?_ ?_ nodes s
    (.label own) (mem_markers.1 hown) rfl
  · exact fun s i hi => mem_marked_add hi
  · exact fun s i j hs hi => (hs hi).imp_left (marked_add j)

end Segment

/-! ## The splice -/

section Splice
variable {host fragment : Code}

/-- The handles that a splice leaves in place. -/
def kept (host : Code) (index count : Nat) : List Handle :=
  host.order.toList.take index ++ host.order.toList.drop (index + count)

/-- The handles that a splice takes away. -/
def removed (host : Code) (index count : Nat) : List Handle :=
  (host.order.toList.drop index).take count

/-- What the fragment turns into. -/
def segment (host : Code) (index count : Nat) (fragment : Code) : Segment :=
  fragment.toList.foldl
    (Segment.add (adopt host fragment).map fragment.imports
      (Std.HashSet.ofList (kept host index count))
      (runTable (nodesOf host.store (removed host index count))))
    { store := (adopt host fragment).host.store }

theorem perm_around {α : Type} {a b c d : List α} (h : b.Perm d) :
    (a ++ b ++ c).Perm (a ++ c ++ d) := by
  rw [List.append_assoc, List.append_assoc]
  exact .append_left _ (List.perm_append_comm.trans (.append_left _ h))

/-- What a splice puts in stands where the gap was. -/
theorem toList_order_splice (index count : Nat) :
    (host.splice index count fragment).2.order.toList =
      host.order.toList.take index ++ ((segment host index count fragment).hoisted
        (removed host index count) ++ (segment host index count fragment).handles.reverse) ++
        host.order.toList.drop (index + count) := by
  simp [splice, segment, kept, removed]

theorem order_splice (index count : Nat) :
    ((host.splice index count fragment).2.order.toList).Perm
      (kept host index count ++ ((segment host index count fragment).hoisted
        (removed host index count) ++ (segment host index count fragment).handles)) := by
  rw [toList_order_splice]
  exact perm_around (.append_left _ (List.reverse_perm _))

theorem order_perm (host : Code) (index count : Nat) :
    (host.order.toList).Perm (kept host index count ++ removed host index count) := by
  have h : host.order.toList = host.order.toList.take index ++
      (removed host index count ++ host.order.toList.drop (index + count)) := by
    rw [removed, ← List.drop_drop, List.take_append_drop, List.take_append_drop]
  rw [kept, List.append_assoc]
  exact (List.Perm.of_eq h).trans (List.Perm.append_left _ List.perm_append_comm)

/-- Where a label of the fragment leads to. -/
theorem map_of_bound (ho : OwnHandles host.store) {l : Label} (hl : l ∈ fragment.issued) {i : Import}
    (hi : fragment.imports.get? l = some i) : (adopt host fragment).map l = i.host := by
  have hs := settled_adopt ho fragment
  rw [Adoption.map, Std.HashMap.getD_eq_getD_getElem?,
    hs.bound l (List.mem_reverse.2 hl) i hi]
  rfl

/-- A label that is not bound leads to a new one of its own. -/
theorem map_of_unbound (ho : OwnHandles host.store) {l : Label} (hl : l ∈ fragment.issued)
    (hi : fragment.imports.get? l = none) :
    (adopt host fragment).image[l]? = some ((adopt host fragment).map l) ∧
      host.store.size ≤ (adopt host fragment).map l ∧
      (adopt host fragment).host.store[(adopt host fragment).map l]? =
        some (.label ((adopt host fragment).map l)) := by
  obtain ⟨k, hk, hle, hstored⟩ := (settled_adopt ho fragment).fresh l (List.mem_reverse.2 hl) hi
  have hmap : (adopt host fragment).map l = k := by
    rw [Adoption.map, Std.HashMap.getD_eq_getD_getElem?, hk]
    rfl
  rw [hmap]
  exact ⟨hk, hle, hstored⟩

/-- Labels that are not bound stay apart. -/
theorem map_inj_of_unbound (ho : OwnHandles host.store) {l l' : Label} (hl : l ∈ fragment.issued)
    (hl' : l' ∈ fragment.issued) (hi : fragment.imports.get? l = none)
    (hi' : fragment.imports.get? l' = none)
    (h : (adopt host fragment).map l = (adopt host fragment).map l') : l = l' := by
  refine (settled_adopt ho fragment).apart l (List.mem_reverse.2 hl) l' (List.mem_reverse.2 hl')
    hi hi' ?_
  rw [(map_of_unbound ho hl hi).1, (map_of_unbound ho hl' hi').1, h]

theorem stored_map (ho : OwnHandles host.store) (hb : fragment.Binds host) {l : Label}
    (hl : l ∈ fragment.issued) :
    (adopt host fragment).host.store[(adopt host fragment).map l]? =
      some (.label ((adopt host fragment).map l)) := by
  cases hi : fragment.imports.get? l with
  | some i =>
    rw [map_of_bound ho hl hi]
    exact (settled_adopt ho fragment).retains _ _ ((mem_issued ho).1 (hb l i hi))
  | none => exact (map_of_unbound ho hl hi).2.2

theorem stored_map_marker (ho : OwnHandles host.store) (hb : fragment.Binds host) :
    ∀ l ∈ markers fragment.toList,
      (adopt host fragment).host.store[(adopt host fragment).map l]? =
        some (.label ((adopt host fragment).map l)) :=
  fun _ hl => stored_map ho hb (mem_issued_of_mem_markers hl)

/-- The markers that are removed are stored under their labels. -/
theorem stored_runs (ho : OwnHandles host.store) (index count : Nat) (k : Label) :
    ∀ l ∈ (runTable (nodesOf host.store (removed host index count))).getD k [],
      (adopt host fragment).host.store[l]? = some (.label l) := fun _ hl =>
  (settled_adopt ho fragment).retains _ _ ((mem_markers_nodesOf ho).1 (mem_runTable hl)).2

/-- A segment without nodes is sound. -/
theorem sound_start (ho : OwnHandles host.store) (index count : Nat) :
    ({ store := (adopt host fragment).host.store } : Segment).Sound
      (adopt host fragment).host.store (Std.HashSet.ofList (kept host index count))
      (adopt host fragment).map fragment.toList :=
  ⟨.refl _, (settled_adopt ho fragment).own, .nil, by simp, by simp⟩

theorem sound_segment (ho : OwnHandles host.store) (hb : fragment.Binds host)
    (index count : Nat) :
    (segment host index count fragment).Sound (adopt host fragment).host.store
      (Std.HashSet.ofList (kept host index count)) (adopt host fragment).map fragment.toList :=
  List.foldlRecOn (motive := Segment.Sound _ _ _ _) _ _ (sound_start ho index count)
    fun _ hs _ hi => hs.add (stored_map_marker ho hb) (stored_runs ho index count) hi

/-- The host's handles outlive a splice. -/
theorem retains_splice (h : host.Stored) (hb : fragment.Binds host) (index count : Nat) :
    Retains host.store (host.splice index count fragment).2.store :=
  (settled_adopt h.own fragment).retains.trans (sound_segment h.own hb index count).retains

theorem mem_order_of_removed {k : Handle} (hk : k ∈ removed host index count) :
    k ∈ host.order.toList := List.mem_of_mem_drop (List.mem_of_mem_take hk)

theorem lt_size_of_hoisted (h : host.Stored) (hb : fragment.Binds host) {k : Handle}
    (hk : k ∈ (segment host index count fragment).hoisted (removed host index count)) :
    k < (segment host index count fragment).store.size :=
  Nat.lt_of_lt_of_le (h.made k (mem_order_of_removed (List.mem_filter.1 hk).1))
    (retains_splice h hb index count).size_le

theorem stored_splice (h : host.Stored) (hb : fragment.Binds host) (index count : Nat) :
    (host.splice index count fragment).2.Stored := by
  have hs := sound_segment h.own hb index count
  refine ⟨hs.own, fun k hk => ?_⟩
  rw [(order_splice index count).mem_iff, List.mem_append, List.mem_append] at hk
  rcases hk with hk | hk | hk
  · apply Nat.lt_of_lt_of_le _ (retains_splice h hb index count).size_le
    exact h.made k ((order_perm host index count).mem_iff.2 (List.mem_append_left _ hk))
  · exact lt_size_of_hoisted h hb hk
  · exact hs.lt_size hk

/-- A label that was marked in the host is marked after the splice. -/
theorem marked_splice (h : host.Linked) (hf : fragment.Fits host) (index count : Nat) {l : Label}
    (hl : l ∈ markers host.toList) :
    l ∈ markers (host.splice index count fragment).2.toList := by
  have hs := sound_segment h.own hf.binds index count
  obtain ⟨hin, hstored⟩ := (mem_markers_nodesOf h.own).1 hl
  have hstored : (segment host index count fragment).store[l]? = some (.label l) :=
    retains_splice h.selfContained.toStored hf.binds index count _ _ hstored
  refine (mem_markers_nodesOf hs.own).2 ⟨?_, hstored⟩
  rw [(order_splice index count).mem_iff, List.mem_append, List.mem_append]
  rcases List.mem_append.1 ((order_perm host index count).mem_iff.1 hin) with hk | hr
  · exact .inl hk
  · by_cases hm : l ∈ (segment host index count fragment).marked
    · exact .inr (.inr (hs.marked l hm).1)
    · refine .inr (.inl (List.mem_filter.2 ⟨hr, ?_⟩))
      rw [hstored]
      simpa [Insn.marker?] using hm

/-- A label that the fragment marks or binds is marked after the splice. -/
theorem marked_of_grounded (h : host.Linked) (hf : fragment.Fits host) (index count : Nat)
    {l : Label} (hl : fragment.Grounded l) :
    (adopt host fragment).map l ∈ markers (host.splice index count fragment).2.toList := by
  have hs := sound_segment h.own hf.binds index count
  have hbound : (fragment.imports.get? l).isSome →
      (adopt host fragment).map l ∈ markers (host.splice index count fragment).2.toList := by
    intro hi
    obtain ⟨i, hi⟩ := Option.isSome_iff_exists.1 hi
    rw [map_of_bound h.own (hf.bound l i hi).1 hi]
    exact marked_splice h hf index count (hf.bound l i hi).2
  rcases hl with hm | hi
  · have hstored := hs.retains _ _ (stored_map h.own hf.binds (mem_issued_of_mem_markers hm))
    have hin : ∀ {k : Handle}, k ∈ kept host index count ∨
        k ∈ (segment host index count fragment).handles →
        k ∈ (host.splice index count fragment).2.order.toList := by
      intro k hk
      rw [(order_splice index count).mem_iff, List.mem_append, List.mem_append]
      exact hk.imp_right .inr
    rcases Segment.mem_marked_foldl hm with hmark | hout | hi
    · exact (mem_markers_nodesOf hs.own).2 ⟨hin (.inr (hs.marked _ hmark).1), hstored⟩
    · have hkept : (adopt host fragment).map l ∈ kept host index count := by
        simpa [Std.HashSet.mem_ofList] using hout
      exact (mem_markers_nodesOf hs.own).2 ⟨hin (.inl hkept), hstored⟩
    · exact hbound hi
  · exact hbound hi

theorem nodup_order_splice (h : host.Linked) (hf : fragment.Fits host) (index count : Nat) :
    (host.splice index count fragment).2.order.toList.Nodup := by
  have hs := sound_segment h.own hf.binds index count
  have hold := (order_perm host index count).nodup_iff.1 h.once
  obtain ⟨hk, hr, hkr⟩ := List.nodup_append.1 hold
  have hlt : ∀ k ∈ kept host index count ++ removed host index count,
      k < (adopt host fragment).host.store.size := by
    intro k hk
    exact Nat.lt_of_lt_of_le (h.made k ((order_perm host index count).mem_iff.2 hk))
      (settled_adopt h.own fragment).retains.size_le
  rw [(order_splice index count).nodup_iff, List.nodup_append, List.nodup_append]
  refine ⟨hk, ⟨hr.filter _, hs.once, ?_⟩, ?_⟩
  · -- A removed marker comes back in front or with the fragment, not twice.
    rintro k hk _ hh rfl
    obtain ⟨hk, hm⟩ := List.mem_filter.1 hk
    rcases hs.origin k hh with ⟨hmark, hstored⟩ | ⟨hle, _⟩
    · rw [hstored] at hm
      simp [Insn.marker?, hmark] at hm
    · exact Nat.not_lt_of_le hle (hlt k (List.mem_append_right _ hk))
  · rintro k hk _ hin rfl
    rcases List.mem_append.1 hin with hh | hh
    · exact hkr k hk k (List.mem_filter.1 hh).1 rfl
    · rcases hs.origin k hh with ⟨hmark, _⟩ | ⟨hle, _⟩
      · exact (hs.marked k hmark).2 (by simpa [Std.HashSet.mem_ofList] using hk)
      · exact Nat.not_lt_of_le hle (hlt k (List.mem_append_left _ hk))

/-- A node after the splice is one of the host, a marker, or one of the
fragment with its labels mapped. -/
theorem mem_splice (h : host.Stored) (hb : fragment.Binds host) (index count : Nat) {i : Node}
    (hi : i ∈ (host.splice index count fragment).2.toList) :
    i ∈ host.toList ∨ (∃ l, i = .label l) ∨
      ∃ j ∈ fragment.toList, i = j.mapLabels (adopt host fragment).map := by
  have hs := sound_segment h.own hb index count
  obtain ⟨k, hk, hstored⟩ := mem_nodesOf.1 hi
  rw [(order_splice index count).mem_iff, List.mem_append, List.mem_append] at hk
  have old : k ∈ kept host index count ++ removed host index count → i ∈ host.toList := by
    intro hk
    have hin := (order_perm host index count).mem_iff.2 hk
    have hget := Array.getElem?_eq_getElem (h.made k hin)
    have := retains_splice h hb index count _ _ hget
    rw [hstored] at this
    cases this
    exact mem_nodesOf.2 ⟨k, hin, hget⟩
  rcases hk with hk | hk | hk
  · exact .inl (old (List.mem_append_left _ hk))
  · exact .inl (old (List.mem_append_right _ (List.mem_filter.1 hk).1))
  · rcases hs.origin k hk with ⟨_, hm⟩ | ⟨_, j, hj, _, hm⟩
    · exact .inr (.inl ⟨k, Option.some.inj (hstored.symm.trans hm)⟩)
    · exact .inr (.inr ⟨j, hj, Option.some.inj (hstored.symm.trans hm)⟩)

/-- Where a fragment of its own labels binds only labels of the host, the host
stays with its own. -/
theorem SelfContained.splice (h : host.SelfContained) (hf : fragment.SelfContained)
    (hb : fragment.Binds host) (index count : Nat) :
    (host.splice index count fragment).2.SelfContained := by
  have hstored := stored_splice h.toStored hb index count
  refine ⟨hstored, fun i hi l hl => ?_⟩
  rw [mem_issued hstored.own]
  rcases mem_splice h.toStored hb index count hi with hold | ⟨k, rfl⟩ | ⟨j, hj, rfl⟩
  · exact retains_splice h.toStored hb index count _ _
      ((mem_issued h.own).1 (h.branches i hold l hl))
  · cases hl
  · rw [Insn.targets_mapLabels] at hl
    obtain ⟨k, hk, rfl⟩ := List.mem_map.1 hl
    have := stored_map h.own hb (hf.branches j hj k hk)
    exact (sound_segment h.own hb index count).retains _ _ this

/-- A fragment that fits and whose locals are slots leaves the host linked,
wherever it goes in and however much it takes away. -/
theorem linked_splice (h : host.Linked) (hf : fragment.Fits host)
    (hslots : ∀ i ∈ fragment.toList, i.NoTemp) (index count : Nat) :
    (host.splice index count fragment).2.Linked := by
  obtain ⟨hown, hmade⟩ := stored_splice h.selfContained.toStored hf.binds index count
  refine ⟨hown, hmade, nodup_order_splice h hf index count, ?_, ?_, ?_⟩
  · intro i hi l hl
    rcases mem_splice h.selfContained.toStored hf.binds index count hi with hold | ⟨k, rfl⟩ | ⟨j, hj, rfl⟩
    · exact marked_splice h hf index count (h.branches i hold l hl)
    · cases hl
    · rw [Insn.targets_mapLabels] at hl
      obtain ⟨k, hk, rfl⟩ := List.mem_map.1 hl
      exact marked_of_grounded h hf index count (hf.branches j hj k hk)
  · intro r hr l hl
    have hr : r ∈ fragment.handlers.toList.map (Handler.mapLabels (adopt host fragment).map) ∨
        r ∈ host.handlers.toList := by
      simpa [splice] using hr
    rcases hr with hr | hr
    · obtain ⟨q, hq, rfl⟩ := List.mem_map.1 hr
      have : l ∈ q.labels.map (adopt host fragment).map := hl
      obtain ⟨k, hk, rfl⟩ := List.mem_map.1 this
      exact marked_of_grounded h hf index count (hf.ranges q hq k hk)
    · exact marked_splice h hf index count (h.ranges r hr l hl)
  · intro i hi
    rcases mem_splice h.selfContained.toStored hf.binds index count hi with hold | ⟨k, rfl⟩ | ⟨j, hj, rfl⟩
    · exact h.slots i hold
    · exact fun _ _ hc => nomatch hc
    · exact Insn.noTemp_mapLabels.2 (hslots j hj)

end Splice

end ClassPatch.Code
