-- What a body resolves to. The instructions that were read start at ascending
-- positions, and the checks leave only places where one starts or the code
-- ends. So each place that is named gets one label and one marker.
import ClassPatch.Proofs.Fragments
import ClassPatch.Proofs.Reading
import Mathlib.Data.List.Basic

namespace ClassPatch

/-! ## Checks -/

theorem forM_ok {ε α : Type} {f : α → Except ε Unit} {xs : List α} :
    xs.forM f = .ok () ↔ ∀ x ∈ xs, f x = .ok () := by
  induction xs with
  | nil => exact ⟨fun _ => nofun, fun _ => rfl⟩
  | cons x xs ih =>
    rw [List.forall_mem_cons, ← ih]
    change ((f x).bind fun _ => xs.forM f) = _ ↔ _
    rw [bind_eq_ok, exists_and_right]
    exact and_congr_left fun _ => ⟨fun ⟨_, h⟩ => h, fun h => ⟨_, h⟩⟩

namespace CodeBody
open Instruction Reader

/-- The positions that an entry of a table may name. -/
def stops (b : CodeBody) : List Nat := b.insns.map (·.1) ++ [b.size]

/-- What holds of a body that was read and checked. -/
structure Sound (b : CodeBody) : Prop where
  legible : ∀ i ∈ b.insns, Legible i.2
  ascending : (b.insns.map (·.1)).Pairwise (· < ·)
  inside : ∀ p ∈ b.insns.map (·.1), p < b.size
  branches : ∀ i ∈ b.insns, ∀ t ∈ i.2.targets, 0 ≤ t ∧ t.toNat ∈ b.insns.map (·.1)
  ranges : ∀ r ∈ b.ranges, ∀ p ∈ [r.start, r.stop, r.target], p ∈ b.stops
  locals : ∀ v ∈ b.locals, ∀ p ∈ [v.start, v.start + v.length], p ∈ b.stops
  lines : ∀ l ∈ b.lines, l.1 ∈ b.stops

theorem mem_starts {b : CodeBody} {p : Nat} :
    b.starts.contains p = true ↔ p ∈ b.insns.map (·.1) := by
  rw [starts, Std.HashSet.contains_ofList, List.contains_iff_mem]

theorem mem_stops_of_checkPlace {b : CodeBody} {pc p : Nat}
    (h : checkPlace b.starts b.size pc p = .ok ()) : p ∈ b.stops := by
  unfold checkPlace at h
  split at h
  · rename_i hp
    rcases hp with rfl | hp
    · exact List.mem_append_right _ (List.mem_singleton_self _)
    · exact List.mem_append_left _ (mem_starts.1 hp)
  · cases h

/-- The checks in terms of their single parts. -/
theorem check_parts {b : CodeBody} (h : b.check = .ok ()) :
    (∀ i ∈ b.insns, ∀ t ∈ i.2.targets, checkBranch b.starts i.1 t = .ok ()) ∧
    (∀ r ∈ b.ranges, ∀ p ∈ [r.start, r.stop, r.target],
      checkPlace b.starts b.size p p = .ok ()) ∧
    (∀ v ∈ b.locals, ∀ p ∈ [v.start, v.start + v.length],
      checkPlace b.starts b.size v.start p = .ok ()) ∧
    ∀ l ∈ b.lines, checkPlace b.starts b.size l.1 l.1 = .ok () := by
  unfold check at h
  obtain ⟨_, h₁, h⟩ := bind_eq_ok.1 h
  obtain ⟨_, h₂, h⟩ := bind_eq_ok.1 h
  obtain ⟨_, h₃, h₄⟩ := bind_eq_ok.1 h
  exact ⟨fun i hi => forM_ok.1 (forM_ok.1 h₁ i hi), fun r hr => forM_ok.1 (forM_ok.1 h₂ r hr),
    fun v hv => forM_ok.1 (forM_ok.1 h₃ v hv), forM_ok.1 h₄⟩

/-! ## Reading instructions -/

/-- Instructions read from some offset on have ascending positions, within
the bytes that there are. -/
theorem untilEnd_readInsn {pool : Pool} {base fuel : Nat} {read is : List (Nat × Insn Int)}
    {c c' : Cursor} (hb : base ≤ c.offset)
    (h : untilEnd (readInsn pool base) read fuel c = .ok (is, c')) :
    ∃ rest, is = read.reverse ++ rest ∧ (rest.map (·.1)).Pairwise (· < ·) ∧
      ∀ i ∈ rest, Drawn pool i.2 ∧ c.offset - base ≤ i.1 ∧
        i.1 < c.offset - base + c.rest.length := by
  induction fuel generalizing read c with
  | zero =>
    cases h
    exact ⟨[], by simp⟩
  | succ fuel ih =>
    unfold untilEnd at h
    change (if c.rest.isEmpty then (pure read.reverse : Reader _)
      else (readInsn pool base >>= fun i => untilEnd (readInsn pool base) (i :: read) fuel)) c = _
      at h
    split at h
    · cases h
      exact ⟨[], by simp⟩
    · change (readInsn pool base c).bind _ = _ at h
      obtain ⟨r, hr, h⟩ := bind_eq_ok.1 h
      change (Instruction.read pool (c.offset - base) c).bind _ = _ at hr
      obtain ⟨⟨i, c₁⟩, hi, hr⟩ := bind_eq_ok.1 hr
      cases hr
      obtain ⟨h₁, h₂, hdrawn⟩ := gives_read pool _ c i c₁ hi
      obtain ⟨rest, rfl, hasc, hrest⟩ := ih (by omega) h
      refine ⟨(c.offset - base, i) :: rest, by simp, ?_, ?_⟩
      · rw [List.map_cons, List.pairwise_cons]
        refine ⟨fun p hp => ?_, hasc⟩
        obtain ⟨j, hj, rfl⟩ := List.mem_map.1 hp
        have := (hrest j hj).2
        dsimp only
        omega
      · intro j hj
        rcases List.mem_cons.1 hj with rfl | hj
        · exact ⟨hdrawn, by dsimp only; omega, by dsimp only; omega⟩
        · have := hrest j hj
          exact ⟨this.1, by omega, by omega⟩

/-- What a body takes from the pool that it is read with, and how many
entries its tables have. -/
structure Drawn (pool : Pool) (b : CodeBody) : Prop where
  insns : ∀ i ∈ b.insns, Instruction.Drawn pool i.2
  caught : ∀ r ∈ b.ranges, ∀ e, r.caught = some e → pool.Holds (.loadable (.classRef e))
  locals : ∀ v ∈ b.locals, pool.Holds (.utf8 v.name) ∧ pool.Holds (.utf8 v.desc)
  fewRanges : b.ranges.length ≤ 65535
  fewLocals : b.locals.length ≤ 65535
  fewLines : b.lines.length ≤ 65535

theorem gives_readRange (pool : Pool) : Gives 0 (readRange pool) fun r =>
    ∀ e, r.caught = some e → pool.Holds (.loadable (.classRef e)) := by
  refine gives_then (m := 0) gives_u16 fun _ _ => gives_then (m := 0) gives_u16 fun _ _ => ?_
  refine gives_then (m := 0) gives_u16 fun _ _ => gives_then (m := 0) gives_u16 fun i _ => ?_
  refine gives_then (m := 0) gives_lift fun caught hc => gives_pure ?_
  rintro e rfl
  exact ⟨i, Pool.leads_of_className? hc⟩

theorem gives_readLocal (pool : Pool) : Gives 0 (readLocal pool) fun v =>
    pool.Holds (.utf8 v.name) ∧ pool.Holds (.utf8 v.desc) := by
  refine gives_then (m := 0) gives_u16 fun _ _ => gives_then (m := 0) gives_u16 fun _ _ => ?_
  refine gives_then (m := 0) gives_u16 fun i _ => gives_then (m := 0) gives_lift fun _ hn => ?_
  refine gives_then (m := 0) gives_u16 fun j _ => gives_then (m := 0) gives_lift fun _ hd => ?_
  exact gives_then (m := 0) gives_u16 fun _ _ =>
    gives_pure ⟨⟨i, Pool.leads_of_utf8 hn⟩, ⟨j, Pool.leads_of_utf8 hd⟩⟩

theorem gives_readLine : Gives 0 readLine fun _ => True :=
  gives_then (m := 0) gives_u16 fun _ _ => gives_then (m := 0) gives_u16 fun _ _ =>
    gives_pure trivial

/-- The instructions of a body start at ascending positions inside of it. -/
theorem gives_sweep (pool : Pool) (size : Nat) : Gives 0 (within size (sweep pool size)) fun is =>
    (∀ i ∈ is, Instruction.Drawn pool i.2) ∧ (is.map (·.1)).Pairwise (· < ·) ∧
      ∀ p ∈ is.map (·.1), p < size := by
  unfold within
  refine gives_then (n := 0) (m := 0) (p := fun _ => True) ?_ fun start _ => ?_
  · rintro c _ _ ⟨⟩
    exact ⟨Nat.le_refl _, rfl, trivial⟩
  refine gives_then (m := 0) (gives_take size) fun bytes hbytes => ?_
  refine gives_then (m := 0) gives_lift fun r hr => gives_pure ?_
  obtain ⟨is, c'⟩ := r
  obtain ⟨rest, hrest, hasc, hin⟩ := untilEnd_readInsn (Nat.le_refl start) hr
  rw [List.reverse_nil, List.nil_append] at hrest
  subst hrest
  refine ⟨fun i hi => (hin i hi).1, hasc, fun p hp => ?_⟩
  obtain ⟨i, hi, rfl⟩ := List.mem_map.1 hp
  have := (hin i hi).2.2
  simpa [hbytes] using this

/-- What the reader of bodies gives, before the checks. -/
theorem gives_read (pool : Pool) (signature : String) :
    Gives 0 (read pool signature) fun b => b.Drawn pool ∧
      (b.insns.map (·.1)).Pairwise (· < ·) ∧ ∀ p ∈ b.insns.map (·.1), p < b.size := by
  unfold read
  refine gives_then (m := 0) gives_u16 fun maxStack _ => ?_
  refine gives_then (m := 0) gives_u16 fun maxLocals _ => ?_
  refine gives_then (m := 0) gives_u32 fun size _ => ?_
  dsimp only
  split
  · exact gives_then (m := 0) (p := fun _ => False) gives_throw fun _ h => h.elim
  · refine gives_then (m := 0) (gives_sweep pool _) fun is his => ?_
    refine gives_then (m := 0) (gives_counted (gives_readRange pool)) fun ranges hr => ?_
    refine gives_then (m := 0) (gives_counted (gives_readLocal pool)) fun locals hv => ?_
    refine gives_then (m := 0) (gives_counted gives_readLine) fun lines hl => gives_pure ?_
    exact ⟨⟨his.1, hr.2, hv.2, hr.1, hv.1, hl.1⟩, his.2⟩

/-- A body that was read and passes the checks is sound. -/
theorem sound_of_check {b : CodeBody} (hleg : ∀ i ∈ b.insns, Legible i.2)
    (hasc : (b.insns.map (·.1)).Pairwise (· < ·)) (hin : ∀ p ∈ b.insns.map (·.1), p < b.size)
    (hc : b.check = .ok ()) : b.Sound := by
  obtain ⟨h₁, h₂, h₃, h₄⟩ := check_parts hc
  refine ⟨hleg, hasc, hin, ?_, ?_, ?_, ?_⟩
  · intro i hi t ht
    have := h₁ i hi t ht
    unfold checkBranch at this
    split at this
    · rename_i hp
      exact ⟨hp.1, mem_starts.1 hp.2⟩
    · cases this
  · exact fun r hr p hp => mem_stops_of_checkPlace (h₂ r hr p hp)
  · exact fun v hv p hp => mem_stops_of_checkPlace (h₃ v hv p hp)
  · exact fun l hl => mem_stops_of_checkPlace (h₄ l hl)

/-! ## Labels -/

theorem pairwise_stops {b : CodeBody} (h : b.Sound) : b.stops.Pairwise (· < ·) := by
  unfold stops
  rw [List.pairwise_append]
  refine ⟨h.ascending, List.pairwise_singleton .., fun p hp q hq => ?_⟩
  rw [List.mem_singleton.1 hq]
  exact h.inside p hp

theorem places_eq (b : CodeBody) :
    b.places = b.stops.filter fun p => (Std.HashSet.ofList b.named).contains p := rfl

theorem mem_places {b : CodeBody} {p : Nat} : p ∈ b.places ↔ p ∈ b.stops ∧ p ∈ b.named := by
  rw [places_eq, List.mem_filter, Std.HashSet.contains_ofList, List.contains_iff_mem]

theorem nodup_places {b : CodeBody} (h : b.Sound) : b.places.Nodup :=
  ((pairwise_stops h).filter _).imp fun hlt => Nat.ne_of_lt hlt

/-- Every place that a sound body names is one of its positions. -/
theorem mem_places_of_named {b : CodeBody} (h : b.Sound) {p : Nat} (hp : p ∈ b.named) :
    p ∈ b.places := by
  refine mem_places.2 ⟨?_, hp⟩
  simp only [named, List.mem_append, List.mem_flatMap, List.mem_map] at hp
  rcases hp with (⟨i, hi, t, ht, rfl⟩ | ⟨r, hr, hp⟩) | ⟨v, hv, hp⟩
  · exact List.mem_append_left _ (h.branches i hi t ht).2
  · exact h.ranges r hr p hp
  · exact h.locals v hv p hp

/-- The label of a place is its number among the places. -/
theorem getElem?_labelTable {b : CodeBody} (h : b.Sound) {p l : Nat} :
    b.labelTable[p]? = some l ↔ b.places[l]? = some p := by
  have hd : b.places.zipIdx.Pairwise fun a b => (a.1 == b.1) = false := by
    have hn := nodup_places h
    rw [← List.zipIdx_map_fst 0 b.places, List.Nodup, List.pairwise_map] at hn
    exact hn.imp fun hne => by simpa using hne
  constructor
  · intro hl
    have hmem : p ∈ b.places := by
      refine Decidable.byContradiction fun hp => ?_
      rw [labelTable, Std.HashMap.getElem?_ofList_of_contains_eq_false] at hl
      · cases hl
      · rw [List.zipIdx_map_fst]
        simpa using hp
    obtain ⟨k, hk⟩ := List.getElem?_of_mem hmem
    have hin : (p, k) ∈ b.places.zipIdx := List.mem_zipIdx_iff_getElem?.2 hk
    rw [labelTable, Std.HashMap.getElem?_ofList_of_mem (beq_self_eq_true p) hd hin] at hl
    cases hl
    exact hk
  · intro hp
    exact Std.HashMap.getElem?_ofList_of_mem (beq_self_eq_true p) hd
      (List.mem_zipIdx_iff_getElem?.2 hp)

/-- The label of a named place is one of those that count the places. -/
theorem labelAt_lt {b : CodeBody} (h : b.Sound) {p : Nat} (hp : p ∈ b.named) :
    b.labelTable.getD p 0 < b.places.length := by
  obtain ⟨k, hk⟩ := List.getElem?_of_mem (mem_places_of_named h hp)
  rw [Std.HashMap.getD_eq_getD_getElem?, (getElem?_labelTable h).2 hk]
  exact (List.getElem?_eq_some_iff.1 hk).1

/-! ## Resolved code -/

/-- The nodes of the code that the body resolves to. -/
def nodes (b : CodeBody) : List Node :=
  b.insns.flatMap (nodesAt b.labelTable b.lineTable) ++ markerAt b.labelTable b.size

theorem markers_markerAt (labels : Std.HashMap Nat Label) (p : Nat) :
    markers (markerAt labels p) = labels[p]?.toList := by
  unfold markerAt
  cases labels[p]? <;> rfl

theorem markers_nodesAt (labels : Std.HashMap Nat Label) (lines : Std.HashMap Nat (List UInt16))
    {i : Nat × Insn Int} (hi : i.2.isReal) :
    markers (nodesAt labels lines i) = labels[i.1]?.toList := by
  have hlines : ∀ ns : List UInt16, markers (ns.map Insn.line) = [] := by
    intro ns
    induction ns with
    | nil => rfl
    | cons n ns ih => rw [List.map_cons, markers_cons, ih]; rfl
  have hinsn : ∀ f, markers [i.2.mapLabels f] = [] := by
    intro f
    obtain ⟨p, i⟩ := i
    cases i <;> first | rfl | cases hi
  rw [nodesAt, markers_append, markers_append, markers_markerAt, hlines, hinsn, List.append_nil,
    List.append_nil]

/-- The markers count up from 0, one for each place. -/
theorem markers_nodes {b : CodeBody} (h : b.Sound) :
    markers b.nodes = List.range b.places.length := by
  have hstops : markers b.nodes = b.stops.filterMap (b.labelTable[·]?) := by
    have hinsns : ∀ is : List (Nat × Insn Int), (∀ i ∈ is, Legible i.2) →
        markers (is.flatMap (nodesAt b.labelTable b.lineTable)) =
          (is.map (·.1)).filterMap (b.labelTable[·]?) := by
      intro is his
      induction is with
      | nil => rfl
      | cons i is ih =>
        rw [List.flatMap_cons, markers_append,
          markers_nodesAt _ _ (his i (List.mem_cons_self ..)).real,
          ih fun j hj => his j (List.mem_cons_of_mem _ hj), List.map_cons, List.filterMap_cons]
        cases b.labelTable[i.1]? <;> rfl
    rw [nodes, markers_append, hinsns _ h.legible, markers_markerAt, stops, List.filterMap_append]
    congr 1
  have hplaces : b.stops.filterMap (b.labelTable[·]?) = b.places.filterMap (b.labelTable[·]?) := by
    rw [places_eq, List.filterMap_filter]
    refine List.filterMap_congr fun p hp => ?_
    split
    · rfl
    · rename_i hn
      cases hl : b.labelTable[p]? with
      | none => rfl
      | some l =>
        have := List.mem_of_getElem? ((getElem?_labelTable h).1 hl)
        rw [places_eq, List.mem_filter] at this
        exact absurd this.2 hn
  have hnumber : b.places.filterMap (b.labelTable[·]?) = b.places.zipIdx.map (·.2) := by
    have hfst : b.places = b.places.zipIdx.map (·.1) := (List.zipIdx_map_fst 0 b.places).symm
    conv_lhs => rw [hfst]
    rw [List.filterMap_map, ← List.filterMap_eq_map]
    refine List.filterMap_congr fun e he => ?_
    exact (getElem?_labelTable h).2 (List.mem_zipIdx_iff_getElem?.1 he)
  rw [hstops, hplaces, hnumber, List.zipIdx_map_snd, List.range_eq_range']

theorem laid_resolve {b : CodeBody} (h : b.Sound) :
    Code.Laid b.places.length b.nodes ((Code.withLabels b.places.length).pushAll b.nodes) := by
  refine Code.laid_pushAll fun l hl => ?_
  rw [markers_nodes h] at hl
  exact List.mem_range.1 hl

theorem toList_resolve {b : CodeBody} (h : b.Sound) : b.resolve.1.toList = b.nodes :=
  (laid_resolve h).toList

/-- The places that a resolved instruction names have labels. -/
theorem mem_nodes {b : CodeBody} {n : Node} (hn : n ∈ b.nodes) :
    n.isPseudo ∨ ∃ i ∈ b.insns, n = i.2.mapLabels fun p => b.labelTable.getD p.toNat 0 := by
  have hmarker : ∀ p, n ∈ markerAt b.labelTable p → n.isPseudo := by
    intro p hp
    unfold markerAt at hp
    split at hp
    · rw [List.mem_singleton.1 hp]
      rfl
    · cases hp
  rcases List.mem_append.1 hn with hn | hn
  · obtain ⟨i, hi, hn⟩ := List.mem_flatMap.1 hn
    unfold nodesAt at hn
    rw [List.mem_append, List.mem_append, List.mem_map, List.mem_singleton] at hn
    rcases hn with (hn | ⟨l, _, rfl⟩) | hn
    · exact .inl (hmarker _ hn)
    · exact .inl rfl
    · exact .inr ⟨i, hi, hn⟩
  · exact .inl (hmarker _ hn)

/-- The code and the debug entries of a sound body name only what is marked. -/
theorem linked_resolve {b : CodeBody} (h : b.Sound) {m : Method} (hcode : m.code = b.resolve.1)
    (hlocals : m.locals = b.resolve.2) : m.Linked := by
  have hlaid := laid_resolve h
  have hmark : ∀ p ∈ b.named, b.labelTable.getD p 0 ∈ markers b.resolve.1.toList := by
    intro p hp
    rw [toList_resolve h, markers_nodes h]
    exact List.mem_range.2 (labelAt_lt h hp)
  refine ⟨?_, ?_⟩
  · rw [hcode]
    refine ⟨hlaid.own, hlaid.made, hlaid.once ?_, ?_, ?_, ?_⟩
    · rw [markers_nodes h]
      exact List.nodup_range
    · intro n hn l hl
      rw [toList_resolve h] at hn
      rcases mem_nodes hn with hp | ⟨i, hi, rfl⟩
      · rw [Insn.targets_of_pseudo hp] at hl
        cases hl
      · have htargets : (i.2.mapLabels fun p => b.labelTable.getD p.toNat 0).targets =
            i.2.targets.map fun p => b.labelTable.getD p.toNat 0 := by
          cases i.2 <;> simp [Insn.mapLabels, Insn.targets]
        rw [htargets, List.mem_map] at hl
        obtain ⟨t, ht, rfl⟩ := hl
        refine hmark _ (List.mem_append_left _ (List.mem_append_left _ ?_))
        exact List.mem_flatMap.2 ⟨i, hi, List.mem_map_of_mem ht⟩
    · intro r hr l hl
      simp only [resolve, List.mem_map] at hr
      obtain ⟨q, hq, rfl⟩ := hr
      have hl : l ∈ [q.start, q.stop, q.target].map (b.labelTable.getD · 0) := hl
      obtain ⟨p, hp, rfl⟩ := List.mem_map.1 hl
      refine hmark p (List.mem_append_left _ (List.mem_append_right _ ?_))
      exact List.mem_flatMap.2 ⟨q, hq, hp⟩
    · intro n hn
      rw [toList_resolve h] at hn
      rcases mem_nodes hn with hp | ⟨i, hi, rfl⟩
      · exact Insn.noTemp_of_pseudo hp
      · exact Insn.noTemp_mapLabels.2 (h.legible i hi).slots
  · intro v hv
    rw [hlocals] at hv
    obtain ⟨u, hu, rfl⟩ := List.mem_map.1 hv
    rw [hcode]
    have hnamed : ∀ p ∈ [u.start, u.start + u.length], p ∈ b.named := fun p hp =>
      List.mem_append_right _ (List.mem_flatMap.2 ⟨u, hu, hp⟩)
    exact ⟨hmark _ (hnamed _ (by simp)), hmark _ (hnamed _ (by simp))⟩

end CodeBody

end ClassPatch
