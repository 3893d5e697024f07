-- What an outline resolves to. Labels count up with the positions that are
-- named, so the code is the same wherever the instructions stood. It has the
-- outline that it was made from.
import ClassPatch.Proofs.Resolved

namespace ClassPatch

/-! ## Entries in order -/

/-- The entries with the largest key come after all others. -/
theorem filter_lt_append {α : Type} {n : Nat} {as : List (Nat × α)}
    (h : as.Pairwise (·.1 ≤ ·.1)) (hn : ∀ a ∈ as, a.1 ≤ n) :
    as.filter (·.1 < n) ++ as.filter (·.1 = n) = as := by
  induction as with
  | nil => rfl
  | cons a as ih =>
    obtain ⟨ha, hp⟩ := List.pairwise_cons.1 h
    have ih := ih hp fun b hb => hn b (List.mem_cons_of_mem _ hb)
    by_cases hlt : a.1 < n
    · rw [List.filter_cons_of_pos (by simpa using hlt),
        List.filter_cons_of_neg (by simpa using Nat.ne_of_lt hlt), List.cons_append, ih]
    · have heq : a.1 = n := Nat.le_antisymm (hn a (List.mem_cons_self ..)) (Nat.not_lt.1 hlt)
      have hnone : as.filter (·.1 < n) = [] := by
        rw [List.filter_eq_nil_iff]
        intro b hb
        have := ha b hb
        simpa using (by omega : n ≤ b.1)
      rw [hnone, List.nil_append] at ih
      rw [List.filter_cons_of_neg (by simpa using hlt), hnone,
        List.filter_cons_of_pos (by simpa using heq), List.nil_append, ih]

/-- Entries in the order of their keys are the entries of each key in turn. -/
theorem flatMap_filter_eq {α : Type} {n : Nat} {as : List (Nat × α)}
    (h : as.Pairwise (·.1 ≤ ·.1)) (hn : ∀ a ∈ as, a.1 < n) :
    (List.range n).flatMap (fun r => as.filter (·.1 = r)) = as := by
  induction n generalizing as with
  | zero =>
    rw [List.range_zero, List.flatMap_nil]
    exact (List.eq_nil_iff_forall_not_mem.2 fun a ha => absurd (hn a ha) (Nat.not_lt_zero _)).symm
  | succ n ih =>
    have hlow := ih (h.filter (·.1 < n)) fun a ha => of_decide_eq_true (List.mem_filter.1 ha).2
    have hfilter : ∀ r ∈ List.range n,
        (as.filter (·.1 < n)).filter (·.1 = r) = as.filter (·.1 = r) := by
      intro r hr
      rw [List.filter_filter]
      refine List.filter_congr fun a _ => ?_
      have := List.mem_range.1 hr
      by_cases har : a.1 = r
      · simp [har, this]
      · simp [har]
    rw [List.range_succ, List.flatMap_append, List.flatMap_singleton,
      ← List.flatMap_congr hfilter, hlow,
      filter_lt_append h fun a ha => Nat.le_of_lt_succ (hn a ha)]

namespace Outline
open CodeBody

variable {o : Outline} {place : Nat → Nat} {maxStack maxLocals : UInt16}

/-! ## Sound bodies -/

/-- An outline that a container can hold as it is. -/
structure Sound (o : Outline) : Prop where
  bounded : o.Bounded
  settled : o.Settled
  writable : o.Writable
  lands : o.Lands

/-- Positions in the order of the real indices, up to the end. -/
def Ascends (o : Outline) (place : Nat → Nat) : Prop :=
  ∀ r s, r < s → s ≤ o.insns.length → place r < place s

theorem ascends_id (o : Outline) : o.Ascends id := fun _ _ h _ => h

theorem Ascends.le (h : o.Ascends place) {r s : Nat} (hrs : r ≤ s) (hs : s ≤ o.insns.length) :
    place r ≤ place s := by
  rcases Nat.lt_or_eq_of_le hrs with hlt | rfl
  · exact Nat.le_of_lt (h r s hlt hs)
  · exact Nat.le_refl _

theorem Ascends.inj (h : o.Ascends place) {r s : Nat} (hr : r ≤ o.insns.length)
    (hs : s ≤ o.insns.length) : place r = place s ↔ r = s := by
  refine ⟨fun heq => ?_, fun heq => heq ▸ rfl⟩
  rcases Nat.lt_trichotomy r s with hlt | heq' | hlt
  · exact absurd heq (Nat.ne_of_lt (h r s hlt hs))
  · exact heq'
  · exact absurd heq.symm (Nat.ne_of_lt (h s r hlt hr))

theorem insns_body : (o.body maxStack maxLocals place).insns =
    o.insns.zipIdx.map fun e => (place e.2, e.1.mapLabels fun r => (place r : Int)) := rfl

theorem starts_body : (o.body maxStack maxLocals place).insns.map (·.1) =
    (List.range o.insns.length).map place := by
  have hsnd : o.insns.zipIdx.map (·.2) = List.range o.insns.length := by
    rw [List.zipIdx_map_snd, List.range_eq_range']
  rw [insns_body, List.map_map, ← hsnd, List.map_map]
  rfl

theorem stops_body : (o.body maxStack maxLocals place).stops =
    (List.range (o.insns.length + 1)).map place := by
  unfold stops
  rw [starts_body, List.range_succ, List.map_append]
  rfl

theorem mem_stops_body {r : Nat} (hr : r ≤ o.insns.length) :
    place r ∈ (o.body maxStack maxLocals place).stops := by
  rw [stops_body]
  exact List.mem_map_of_mem (List.mem_range.2 (Nat.lt_succ_of_le hr))

theorem getElem?_stops_body {r : Nat} (hr : r ≤ o.insns.length) :
    (o.body maxStack maxLocals place).stops[r]? = some (place r) := by
  rw [stops_body, List.getElem?_map, List.getElem?_range (Nat.lt_succ_of_le hr)]
  rfl

theorem proper_mapLabels {α β : Type} {f : α → β} {i : Insn α} :
    (i.mapLabels f).Proper ↔ i.Proper := by
  cases i <;> exact Iff.rfl

theorem sound_body (maxStack maxLocals : UInt16) (h : o.Sound) (ha : o.Ascends place) :
    (o.body maxStack maxLocals place).Sound := by
  obtain ⟨hb, hset, hw, hl⟩ := h
  refine ⟨?_, ?_, ?_, ?_, ?_, ?_, ?_⟩
  · rw [insns_body]
    refine List.forall_mem_map.2 fun e he => ?_
    have hi := List.mem_of_getElem? (List.mem_zipIdx_iff_getElem?.1 he)
    refine ⟨?_, Insn.noTemp_mapLabels.2 (hw.slots _ hi), proper_mapLabels.2 (hw.proper _ hi)⟩
    rw [Insn.isReal_mapLabels]
    exact hb.real _ hi
  · rw [starts_body, List.pairwise_map]
    refine List.pairwise_lt_range.imp_of_mem fun _ hs hrs => ?_
    exact ha _ _ hrs (Nat.le_of_lt (List.mem_range.1 hs))
  · rw [starts_body]
    exact List.forall_mem_map.2 fun r hr => ha r _ (List.mem_range.1 hr) (Nat.le_refl _)
  · rw [starts_body, insns_body]
    refine List.forall_mem_map.2 fun e he t ht => ?_
    have hi := List.mem_of_getElem? (List.mem_zipIdx_iff_getElem?.1 he)
    rw [Insn.targets_mapLabels] at ht
    obtain ⟨r, hr, rfl⟩ := List.mem_map.1 ht
    exact ⟨Int.natCast_nonneg _, List.mem_map_of_mem (List.mem_range.2 (hl _ hi r hr))⟩
  · refine List.forall_mem_map.2 fun h hh p hp => ?_
    have hp : p ∈ h.labels.map place := hp
    obtain ⟨r, hr, rfl⟩ := List.mem_map.1 hp
    exact mem_stops_body (hb.ranges h hh r hr)
  · refine List.forall_mem_map.2 fun v hv p hp => ?_
    rw [Nat.add_sub_cancel' (ha.le (hset.locals v hv) (hb.locals v hv).2)] at hp
    rcases List.mem_cons.1 hp with rfl | hp
    · exact mem_stops_body (hb.locals v hv).1
    · rw [List.mem_singleton.1 hp]
      exact mem_stops_body (hb.locals v hv).2
  · exact List.forall_mem_map.2 fun l hl => mem_stops_body (hb.lines l hl)

theorem mapLabels_congr {α β : Type} {f g : α → β} {i : Insn α} (hi : i.isReal)
    (h : ∀ l ∈ i.targets, f l = g l) : i.mapLabels f = i.mapLabels g := by
  cases i with
  | label l => cases hi
  | jump op l => rw [Insn.mapLabels, Insn.mapLabels, h l (List.mem_singleton_self l)]
  | tableSwitch low otherwise ts =>
    rw [Insn.mapLabels, Insn.mapLabels, h _ (List.mem_cons_self ..),
      List.map_congr_left fun l hl => h l (List.mem_cons_of_mem _ hl)]
  | lookupSwitch otherwise ps =>
    rw [Insn.mapLabels, Insn.mapLabels, h _ (List.mem_cons_self ..),
      List.map_congr_left fun p hp => by
        rw [h p.2 (List.mem_cons_of_mem _ (List.mem_map_of_mem hp))]]
  | _ => rfl

theorem mapLabels_id {α : Type} {f : α → α} {i : Insn α} (hi : i.isReal)
    (h : ∀ l ∈ i.targets, f l = l) : i.mapLabels f = i := by
  rw [mapLabels_congr (g := id) hi h]
  cases i <;> simp [Insn.mapLabels]

/-! ## Ranks of positions -/

/-- The real indices that an outline names. -/
def named (o : Outline) : List Nat :=
  o.insns.flatMap Insn.targets ++ o.handlers.flatMap Handler.labels ++
    o.locals.flatMap fun v => [v.start, v.stop]

theorem le_of_named (hb : o.Bounded) {r : Nat} (hr : r ∈ o.named) : r ≤ o.insns.length := by
  simp only [named, List.mem_append, List.mem_flatMap] at hr
  rcases hr with (⟨i, hi, hr⟩ | ⟨h, hh, hr⟩) | ⟨v, hv, hr⟩
  · exact hb.targets i hi r hr
  · exact hb.ranges h hh r hr
  · rcases List.mem_cons.1 hr with rfl | hr
    · exact (hb.locals v hv).1
    · exact List.mem_singleton.1 hr ▸ (hb.locals v hv).2

theorem named_body (h : o.Sound) (ha : o.Ascends place) :
    (o.body maxStack maxLocals place).named = o.named.map place := by
  have hinsns : (o.body maxStack maxLocals place).insns.flatMap
        (fun i => i.2.targets.map Int.toNat) =
      (o.insns.flatMap Insn.targets).map place := by
    have : o.insns = o.insns.zipIdx.map (·.1) := (List.zipIdx_map_fst 0 _).symm
    rw [insns_body, List.flatMap_map, List.map_flatMap]
    conv_rhs => rw [this, List.flatMap_map]
    refine List.flatMap_congr fun e _ => ?_
    rw [Insn.targets_mapLabels, List.map_map]
    rfl
  have hranges : (o.body maxStack maxLocals place).ranges.flatMap
      (fun r => [r.start, r.stop, r.target]) = (o.handlers.flatMap Handler.labels).map place := by
    rw [List.map_flatMap]
    exact List.flatMap_map ..
  have hlocals : (o.body maxStack maxLocals place).locals.flatMap
      (fun v => [v.start, v.start + v.length]) =
        (o.locals.flatMap fun v => [v.start, v.stop]).map place := by
    rw [List.map_flatMap]
    refine (List.flatMap_map ..).trans (List.flatMap_congr fun v hv => ?_)
    have := ha.le (h.settled.locals v hv) (h.bounded.locals v hv).2
    simp only [Nat.add_sub_cancel' this, List.map_cons, List.map_nil]
  unfold CodeBody.named named
  rw [hinsns, hranges, hlocals, List.map_append, List.map_append]

/-- The named positions are those of the named indices. -/
theorem places_body (h : o.Sound) (ha : o.Ascends place) :
    (o.body maxStack maxLocals place).places =
      ((List.range (o.insns.length + 1)).filter (o.named.contains ·)).map place := by
  rw [places_eq, stops_body, List.filter_map, named_body h ha]
  congr 1
  refine List.filter_congr fun r hr => ?_
  have hr := Nat.le_of_lt_succ (List.mem_range.1 hr)
  rw [Function.comp, Std.HashSet.contains_ofList, Bool.eq_iff_iff, List.contains_iff_mem,
    List.contains_iff_mem, List.mem_map]
  constructor
  · rintro ⟨s, hs, heq⟩
    exact (ha.inj (le_of_named h.bounded hs) hr).1 heq ▸ hs
  · exact fun h => ⟨r, h, rfl⟩

/-- The body with the real indices themselves for positions. -/
def rebuilt (o : Outline) : CodeBody := o.body 0 0 id

/-- The label of a position is its rank, wherever the positions are. -/
theorem labelTable_body (h : o.Sound) (ha : o.Ascends place) {r : Nat} (hr : r ≤ o.insns.length) :
    (o.body maxStack maxLocals place).labelTable[place r]? = o.rebuilt.labelTable[r]? := by
  unfold rebuilt
  refine Option.ext fun l => ?_
  rw [getElem?_labelTable (sound_body _ _ h ha),
    getElem?_labelTable (sound_body 0 0 h o.ascends_id),
    places_body h ha, places_body h o.ascends_id, List.map_id, List.getElem?_map,
    Option.map_eq_some_iff]
  constructor
  · rintro ⟨s, hs, heq⟩
    have hs' := List.mem_of_getElem? hs
    have hs' := Nat.le_of_lt_succ (List.mem_range.1 (List.mem_filter.1 hs').1)
    rw [hs, (ha.inj hs' hr).1 heq]
  · exact fun h => ⟨r, h, rfl⟩

theorem labelAt_body (h : o.Sound) (ha : o.Ascends place) {r : Nat} (hr : r ≤ o.insns.length) :
    (o.body maxStack maxLocals place).labelTable.getD (place r) 0 =
      o.rebuilt.labelTable.getD r 0 := by
  rw [Std.HashMap.getD_eq_getD_getElem?, Std.HashMap.getD_eq_getD_getElem?, labelTable_body h ha hr]

theorem lineTable_body (h : o.Settled) (ha : o.Ascends place) {r : Nat} (hr : r ≤ o.insns.length) :
    (o.body maxStack maxLocals place).lineTable.getD (place r) [] =
      (o.lines.filter (·.1 = r)).map (·.2) := by
  have hlines : (o.body maxStack maxLocals place).lines =
      o.lines.map fun l => (place l.1, l.2) := rfl
  rw [getD_lineTable, hlines, List.filter_map, List.map_map]
  congr 1
  refine List.filter_congr fun l hl => ?_
  simp only [Function.comp_def, ha.inj (Nat.le_of_lt (h.lines l hl)) hr]

/-! ## Code wherever it stood -/

theorem code_resolve (b : CodeBody) : b.resolve.1 =
    { (Code.withLabels b.places.length).pushAll b.nodes with
      handlers := (b.ranges.map fun r => ⟨b.labelTable.getD r.start 0, b.labelTable.getD r.stop 0,
        b.labelTable.getD r.target 0, r.caught⟩).toArray } := rfl

theorem nodes_body (h : o.Sound) (ha : o.Ascends place) :
    (o.body maxStack maxLocals place).nodes = o.rebuilt.nodes := by
  have hmarker : ∀ r ≤ o.insns.length,
      markerAt (o.body maxStack maxLocals place).labelTable (place r) =
        markerAt o.rebuilt.labelTable r := by
    intro r hr
    unfold markerAt
    rw [labelTable_body h ha hr]
  unfold nodes
  rw [insns_body, rebuilt, insns_body, List.flatMap_map, List.flatMap_map]
  refine congr (congrArg _ (List.flatMap_congr fun e he => ?_)) (hmarker _ (Nat.le_refl _))
  have hget := List.mem_zipIdx_iff_getElem?.1 he
  have hi := List.mem_of_getElem? hget
  have hr := Nat.le_of_lt (List.getElem?_eq_some_iff.1 hget).1
  have hlines : o.rebuilt.lineTable.getD e.2 [] = (o.lines.filter (·.1 = e.2)).map (·.2) :=
    lineTable_body h.settled o.ascends_id hr
  have hinsn : (e.1.mapLabels fun r => (place r : Int)).mapLabels
        (fun p => (o.body maxStack maxLocals place).labelTable.getD p.toNat 0) =
      (e.1.mapLabels fun r => ((id r : Nat) : Int)).mapLabels
        fun p => o.rebuilt.labelTable.getD p.toNat 0 := by
    rw [Insn.mapLabels_mapLabels, Insn.mapLabels_mapLabels]
    exact mapLabels_congr (h.bounded.real _ hi) fun r hr =>
      labelAt_body h ha (h.bounded.targets _ hi r hr)
  unfold nodesAt
  rw [hmarker _ hr, lineTable_body h.settled ha hr, hinsn]
  exact congrArg (fun ns => _ ++ List.map Insn.line ns ++ _) hlines.symm

theorem resolve_body (h : o.Sound) (ha : o.Ascends place) :
    (o.body maxStack maxLocals place).resolve = o.rebuilt.resolve := by
  have hplaces : (o.body maxStack maxLocals place).places.length = o.rebuilt.places.length := by
    rw [rebuilt, places_body h ha, places_body h o.ascends_id, List.length_map, List.length_map]
  have hranges : (o.body maxStack maxLocals place).ranges.map (fun r =>
      (⟨(o.body maxStack maxLocals place).labelTable.getD r.start 0,
        (o.body maxStack maxLocals place).labelTable.getD r.stop 0,
        (o.body maxStack maxLocals place).labelTable.getD r.target 0, r.caught⟩ : Handler)) =
      o.rebuilt.ranges.map fun r => ⟨o.rebuilt.labelTable.getD r.start 0,
        o.rebuilt.labelTable.getD r.stop 0, o.rebuilt.labelTable.getD r.target 0, r.caught⟩ := by
    refine (List.map_map ..).trans (Eq.trans (List.map_congr_left fun g hg => ?_)
      (List.map_map ..).symm)
    have hl : ∀ l ∈ g.labels, (o.body maxStack maxLocals place).labelTable.getD (place l) 0 =
        o.rebuilt.labelTable.getD l 0 := fun l hl => labelAt_body h ha (h.bounded.ranges g hg l hl)
    simp only [Function.comp_def, hl g.start (by simp [Handler.labels]),
      hl g.stop (by simp [Handler.labels]), hl g.target (by simp [Handler.labels]), id]
  have hlocals : (o.body maxStack maxLocals place).resolve.2 = o.rebuilt.resolve.2 := by
    refine (List.map_map ..).trans (Eq.trans (List.map_congr_left fun v hv => ?_)
      (List.map_map ..).symm)
    obtain ⟨hstart, hstop⟩ := h.bounded.locals v hv
    have hle := h.settled.locals v hv
    simp only [Function.comp_def, Nat.add_sub_cancel' (ha.le hle hstop), labelAt_body h ha hstart,
      labelAt_body h ha hstop, id, Nat.add_sub_cancel' hle]
  refine Prod.ext ?_ hlocals
  rw [code_resolve, code_resolve, nodes_body h ha, hplaces, hranges]

/-! ## The outline of the code -/

theorem sound_rebuilt (h : o.Sound) : o.rebuilt.Sound := sound_body 0 0 h o.ascends_id

/-- The label of a named index leads to that index. -/
theorem realIndex_rank (h : o.Sound) {r : Nat} (hr : r ∈ o.named) :
    realIndex o.rebuilt.nodes (o.rebuilt.labelTable.getD r 0) = r := by
  have hnamed : r ∈ o.rebuilt.named := by
    rw [rebuilt, named_body h o.ascends_id, List.map_id]
    exact hr
  exact realIndex_labelAt (sound_rebuilt h)
    (getElem?_stops_body (le_of_named h.bounded hr)) hnamed

theorem insns_rebuilt (h : o.Sound) :
    (realNodes o.rebuilt.nodes).map (Insn.mapLabels (realIndex o.rebuilt.nodes)) = o.insns := by
  have hinsns : o.rebuilt.insns = o.insns.zipIdx.map fun e =>
      (e.2, e.1.mapLabels fun r => ((id r : Nat) : Int)) := insns_body
  rw [realNodes_nodes (sound_rebuilt h), hinsns, List.map_map, List.map_map]
  refine (List.map_congr_left fun e he => ?_).trans (List.zipIdx_map_fst 0 o.insns)
  have hi := List.mem_of_getElem? (List.mem_zipIdx_iff_getElem?.1 he)
  simp only [Function.comp_def, Insn.mapLabels_mapLabels]
  refine mapLabels_id (h.bounded.real _ hi) fun r hr => realIndex_rank h ?_
  exact List.mem_append_left _ (List.mem_append_left _ (List.mem_flatMap.2 ⟨_, hi, hr⟩))

theorem handlers_rebuilt (h : o.Sound) :
    o.rebuilt.resolve.1.handlers.toList.map (Handler.mapLabels (realIndex o.rebuilt.nodes)) =
      o.handlers := by
  refine (List.map_map ..).trans ((List.map_map ..).trans ?_)
  refine (List.map_congr_left fun g hg => ?_).trans (List.map_id _)
  have hl : ∀ l ∈ g.labels, realIndex o.rebuilt.nodes (o.rebuilt.labelTable.getD l 0) = l :=
    fun l hl => realIndex_rank h
      (List.mem_append_left _ (List.mem_append_right _ (List.mem_flatMap.2 ⟨g, hg, hl⟩)))
  simp only [Function.comp_def, Handler.mapLabels, id, hl g.start (by simp [Handler.labels]),
    hl g.stop (by simp [Handler.labels]), hl g.target (by simp [Handler.labels])]

theorem locals_rebuilt (h : o.Sound) :
    o.rebuilt.resolve.2.map (LocalVar.mapLabels (realIndex o.rebuilt.nodes)) = o.locals := by
  refine (List.map_map ..).trans ((List.map_map ..).trans ?_)
  refine (List.map_congr_left fun v hv => ?_).trans (List.map_id _)
  have hl : ∀ l ∈ [v.start, v.stop],
      realIndex o.rebuilt.nodes (o.rebuilt.labelTable.getD l 0) = l :=
    fun l hl => realIndex_rank h (List.mem_append_right _ (List.mem_flatMap.2 ⟨v, hv, hl⟩))
  simp only [Function.comp_def, LocalVar.mapLabels, id,
    Nat.add_sub_cancel' (h.settled.locals v hv), hl v.start (by simp), hl v.stop (by simp)]

theorem lines_rebuilt (h : o.Sound) : lineMarks 0 o.rebuilt.nodes = o.lines := by
  have hlines : o.rebuilt.lines = o.lines := List.map_id _
  have hblock : ∀ e ∈ o.rebuilt.insns.zipIdx,
      ((o.rebuilt.lines.filter (·.1 = e.1.1)).map (·.2)).map (fun n => (e.2, n)) =
        o.lines.filter (·.1 = e.2) := by
    intro e he
    have hget := List.mem_zipIdx_iff_getElem?.1 he
    have hstart : e.1.1 = e.2 := by
      have hrange : (o.rebuilt.insns.map (·.1))[e.2]? = some e.1.1 := by
        rw [List.getElem?_map, hget, Option.map_some]
      rw [rebuilt, starts_body, List.map_id] at hrange
      obtain ⟨_, hrange⟩ := List.getElem?_eq_some_iff.1 hrange
      rw [← hrange, List.getElem_range]
    rw [hlines, hstart, List.map_map]
    refine (List.map_congr_left fun l hl => ?_).trans (List.map_id _)
    have := of_decide_eq_true (List.mem_filter.1 hl).2
    simp only [Function.comp_def, ← this, id]
  have hlen : o.rebuilt.insns.length = o.insns.length := by
    rw [rebuilt, insns_body, List.length_map, List.length_zipIdx]
  rw [lineMarks_nodes (sound_rebuilt h), List.flatMap_congr hblock,
    ← List.flatMap_map (f := fun e : (Nat × Insn Int) × Nat => e.2)
      (g := fun r => o.lines.filter (·.1 = r)), List.zipIdx_map_snd, ← List.range_eq_range', hlen]
  exact flatMap_filter_eq h.bounded.ordered h.settled.lines

/-- A method that is made from an outline has it. -/
theorem outline_rebuilt (h : o.Sound) {m : Method} (hcode : m.code = o.rebuilt.resolve.1)
    (hlocals : m.locals = o.rebuilt.resolve.2) : m.outline = o := by
  have hnodes : m.code.toList = o.rebuilt.nodes := by
    rw [hcode, toList_resolve (sound_rebuilt h)]
  unfold Method.outline
  rw [hnodes, insns_rebuilt h, hcode, handlers_rebuilt h, hlocals, locals_rebuilt h,
    lines_rebuilt h]

end Outline

end ClassPatch
