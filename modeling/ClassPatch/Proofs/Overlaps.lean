-- Slots that a splice hands out while the fragment has them already. The
-- fresh slots start past the host, wherever the fragment's own slots and its
-- captured ones reach, so they are apart from these just when none of them is
-- in the stretch that is handed out.
import ClassPatch.Proofs.Packed

namespace ClassPatch

namespace Code

/-! ## The fragment's accesses -/

/-- The accesses of a fragment to slots that are known before it is spliced:
its own slots and the captured ones. -/
def fixedAccesses (fragment : Code) : List (UInt16 × Nat) :=
  (accesses fragment.toList).filterMap fun a =>
    match a.1 with
    | .slot n => some (n, a.2)
    | .temp t => (fragment.captured.get? t).map fun slot => (slot, a.2)

theorem mem_fixedAccesses {fragment : Code} {a : UInt16 × Nat} :
    a ∈ fragment.fixedAccesses ↔ (.slot a.1, a.2) ∈ accesses fragment.toList ∨
      ∃ t, (.temp t, a.2) ∈ accesses fragment.toList ∧ fragment.captured.get? t = some a.1 := by
  unfold fixedAccesses
  rw [List.mem_filterMap]
  constructor
  · rintro ⟨⟨x, w⟩, hx, ha⟩
    cases x with
    | slot n =>
      cases ha
      exact .inl hx
    | temp t =>
      obtain ⟨slot, hslot, rfl⟩ := Option.map_eq_some_iff.1 ha
      exact .inr ⟨t, hx, hslot⟩
  · rintro (hx | ⟨t, hx, hslot⟩)
    · exact ⟨_, hx, rfl⟩
    · exact ⟨_, hx, Option.map_eq_some_iff.2 ⟨a.1, hslot, rfl⟩⟩

theorem mem_slotAccesses_iff {nodes : List Node} {a : UInt16 × Nat} :
    a ∈ slotAccesses nodes ↔ (.slot a.1, a.2) ∈ accesses nodes :=
  mem_slotAccesses.trans List.mem_filterMap.symm

theorem mem_tempAccesses_iff {nodes : List Node} {temp : UInt16} {w : Nat} :
    (temp, w) ∈ tempAccesses nodes ↔ (.temp temp, w) ∈ accesses nodes :=
  mem_tempAccesses.trans List.mem_filterMap.symm

theorem accesses_pos {nodes : List Node} {x : Local} {w : Nat} (h : (x, w) ∈ accesses nodes) :
    0 < w := by
  obtain ⟨i, -, ha⟩ := List.mem_filterMap.1 h
  exact Method.access_pos ha

theorem fixedAccesses_pos {fragment : Code} {a : UInt16 × Nat} (h : a ∈ fragment.fixedAccesses) :
    0 < a.2 := by
  rcases mem_fixedAccesses.1 h with h | ⟨t, h, -⟩
  · exact accesses_pos h
  · exact accesses_pos h

theorem Widest.pos {fragment : Code} {temp : UInt16} {width : Nat}
    (h : fragment.Widest temp width) : 0 < width := by
  obtain ⟨i, -, ha⟩ := mem_tempAccesses.1 h.used
  exact Method.access_pos ha

/-- Only instructions access locals. -/
theorem accesses_realNodes (nodes : List Node) : accesses (realNodes nodes) = accesses nodes := by
  unfold accesses realNodes
  rw [List.filterMap_filter]
  refine List.filterMap_congr fun i _ => ?_
  cases i <;> rfl

end Code

namespace Method

/-! ## Slots of stretches -/

/-- The stretch of slots of an access. -/
def extent (a : UInt16 × Nat) : Nat × Nat := (a.1.toNat, a.2)

/-- The slot is one of the stretch. -/
def Spans (s : Nat × Nat) (n : Nat) : Prop := s.1 ≤ n ∧ n < s.1 + s.2

theorem Separate.not_spans {s t : Nat × Nat} (h : Separate s t) {n : Nat} (hs : Spans s n) :
    ¬Spans t n := by
  unfold Separate at h
  unfold Spans at hs ⊢
  omega

/-- Stretches that are not separate have a slot in common. -/
theorem exists_spans {s t : Nat × Nat} (hs : 0 < s.2) (ht : 0 < t.2) (h : ¬Separate s t) :
    ∃ n, Spans s n ∧ Spans t n := by
  unfold Separate at h
  refine ⟨max s.1 t.1, ?_, ?_⟩ <;> unfold Spans <;> omega

/-! ## The stretch that is handed out -/

section Give
variable {captured : Dict UInt16 UInt16} {start : Nat} {done : List (UInt16 × Nat)} {s : Slots}

/-- Each slot from `start` up to the next free one is that of a temporary in `done`. -/
def Slots.Filled (captured : Dict UInt16 UInt16) (start : Nat) (done : List (UInt16 × Nat))
    (s : Slots) : Prop :=
  ∀ n, start ≤ n → n < s.next.toNat → ∃ e ∈ Code.freshTemps captured done,
    ∃ slot, s.bound.get? e.1 = some slot ∧ Spans (extent (slot, e.2)) n

theorem Slots.Filled.give (h : s.Filled captured start done) {e : UInt16 × Nat}
    (hnew : ∀ e' ∈ done, e'.1 ≠ e.1) : (s.give captured e).Filled captured start (done ++ [e]) := by
  have old : ∀ {n slot'}, start ≤ n → n < s.next.toNat →
      ∃ e' ∈ Code.freshTemps captured (done ++ [e]), ∃ slot,
        (s.bound.insert e.1 slot').get? e'.1 = some slot ∧ Spans (extent (slot, e'.2)) n := by
    intro n slot' hge hlt
    obtain ⟨e', he', slot, hslot, hspans⟩ := h n hge hlt
    refine ⟨e', ?_, slot, (get?_bound_of_new hnew slot' he').trans hslot, hspans⟩
    rw [freshTemps_concat]
    exact List.mem_append_left _ he'
  intro n hge hlt
  unfold Slots.give at hlt ⊢
  cases he : captured.get? e.1 with
  | some slot =>
    rw [he] at hlt
    exact old hge hlt
  | none =>
    rw [he] at hlt
    dsimp only at hlt ⊢
    rw [toNat_advance] at hlt
    by_cases hn : n < s.next.toNat
    · exact old hge hn
    · refine ⟨e, ?_, s.next, Dict.get?_insert_self .., Nat.le_of_not_lt hn, ?_⟩
      · rw [freshTemps_concat, he]
        exact List.mem_append_right _ (List.mem_singleton_self e)
      · exact Nat.lt_of_lt_of_le hlt (Nat.min_le_left ..)

theorem Slots.Filled.foldl {temps : List (UInt16 × Nat)} (hkeys : temps.Pairwise (·.1 ≠ ·.1)) :
    (temps.foldl (Slots.give captured) s).Filled captured s.next.toNat temps := by
  induction temps using List.reverseRecOn with
  | nil => exact fun n hge hlt => absurd hlt (Nat.not_lt_of_le hge)
  | append_singleton temps e ih =>
    obtain ⟨htemps, -, hnew⟩ := List.pairwise_append.1 hkeys
    rw [List.foldl_concat]
    exact (ih htemps).give fun e' he' => hnew e' he' e (List.mem_singleton_self e)

end Give

/-! ## Fresh slots and others -/

/-- The slots that a splice hands out: as many as the fresh temporaries take
together, from the first that the method does not use. -/
def handout (m : Method) (fragment : Code) : Nat × Nat :=
  ((max m.maxLocals m.code.frontier).toNat, Code.freshWidth fragment.captured fragment.temps)

section Splice
variable {m : Method} {fragment : Code}

/-- The slots of fresh temporaries are those that the splice hands out, each of them. -/
theorem spans_handout (hneeds : m.slotNeeds fragment ≤ 65535) (n : Nat) :
    Spans (m.handout fragment) n ↔
      ∃ temp slot width, m.Fresh fragment temp slot width ∧ Spans (extent (slot, width)) n := by
  have hnext := (given_slotsFor hneeds).next
  constructor
  · rintro ⟨hge, hlt⟩
    have hfilled : (m.slotsFor fragment).Filled fragment.captured
        (max m.maxLocals m.code.frontier).toNat fragment.temps :=
      Slots.Filled.foldl (s := { next := max m.maxLocals m.code.frontier }) fragment.keys_temps
    obtain ⟨⟨temp, width⟩, he, slot, hslot, hspans⟩ := hfilled n hge (hnext ▸ hlt)
    obtain ⟨hmem, hfree⟩ := List.mem_filter.1 he
    exact ⟨temp, slot, width, ⟨Code.get?_temps.1 (Dict.get?_of_mem fragment.keys_temps hmem),
      Option.isNone_iff_eq_none.1 hfree, hslot⟩, hspans⟩
  · rintro ⟨temp, slot, width, hfresh, hge, hlt⟩
    obtain ⟨hstart, hstop⟩ := hfresh.bounds hneeds
    exact ⟨Nat.le_trans hstart hge, hnext ▸ Nat.lt_of_lt_of_le hlt hstop⟩

/-- The accesses that a splice puts in are those of the fragment, each
temporary on its slot. -/
theorem accesses_splice (h : m.code.Stored) (hb : fragment.Binds m.code) (index count : Nat) :
    ∃ put, put.length = (m.splice index count fragment).1 ∧
      (m.splice index count fragment).2.code.toList =
        m.code.toList.take index ++ put ++ m.code.toList.drop (index + count) ∧
      Code.accesses put = (Code.accesses fragment.toList).map fun a =>
        (Code.bindLocal (m.slotsFor fragment).bound a.1, a.2) := by
  obtain ⟨put, relabel, hlength, hlist, -, hreal⟩ := placed_splice h hb index count
  refine ⟨put, hlength, hlist, ?_⟩
  rw [← Code.accesses_realNodes, hreal, ← Code.accesses_realNodes fragment.toList]
  unfold Code.accesses
  rw [List.filterMap_map, List.map_filterMap]
  refine List.filterMap_congr fun i _ => ?_
  rw [Function.comp_apply, Insn.access?_mapLabels, Code.access?_mapLocal]

/-- A local of the fragment becomes a slot that it knows already, or one of the fresh ones. -/
theorem bindLocal_iff {x : Local} {w : Nat} {slot : UInt16}
    (hx : (x, w) ∈ Code.accesses fragment.toList) :
    Code.bindLocal (m.slotsFor fragment).bound x = .slot slot ↔
      x = .slot slot ∨ ∃ temp, x = .temp temp ∧ (fragment.captured.get? temp = some slot ∨
        ∃ width, m.Fresh fragment temp slot width) := by
  cases x with
  | slot n => simp [Code.bindLocal]
  | temp t =>
    obtain ⟨width, hwidest⟩ := Code.exists_widest (Code.mem_tempAccesses_iff.2 hx)
    obtain ⟨given, hgiven⟩ := exists_slot (m := m) hwidest
    rw [Code.bindLocal, hgiven]
    constructor
    · rintro ⟨⟩
      refine .inr ⟨t, rfl, ?_⟩
      cases hcaptured : fragment.captured.get? t with
      | some s => exact .inl (congrArg some (bound_of_captured hcaptured hgiven).symm)
      | none => exact .inr ⟨width, hwidest, hcaptured, hgiven⟩
    · rintro (hslot | ⟨temp, ⟨⟩, hcaptured | ⟨_, hfresh⟩⟩)
      · cases hslot
      · rw [bound_of_captured hcaptured hgiven]
        rfl
      · cases hfresh.given.symm.trans hgiven
        rfl

/-- What a splice makes of the fragment's accesses: those to slots that it
knows already stay, and those of the other temporaries are on fresh slots. -/
theorem slotAccesses_splice (h : m.code.Stored) (hb : fragment.Binds m.code) (index count : Nat) :
    ∃ put, put.length = (m.splice index count fragment).1 ∧
      (m.splice index count fragment).2.code.toList =
        m.code.toList.take index ++ put ++ m.code.toList.drop (index + count) ∧
      ∀ a, a ∈ Code.slotAccesses put ↔ a ∈ fragment.fixedAccesses ∨
        ∃ temp width, m.Fresh fragment temp a.1 width ∧
          (temp, a.2) ∈ Code.tempAccesses fragment.toList := by
  obtain ⟨put, hlength, hlist, haccesses⟩ := accesses_splice h hb index count
  refine ⟨put, hlength, hlist, fun a => ?_⟩
  rw [Code.mem_slotAccesses_iff, haccesses, List.mem_map, Code.mem_fixedAccesses]
  constructor
  · rintro ⟨⟨x, w⟩, hx, he⟩
    obtain ⟨hslot, rfl⟩ := Prod.mk.inj he
    rcases (bindLocal_iff hx).1 hslot with rfl | ⟨temp, rfl, hcaptured | ⟨width, hfresh⟩⟩
    · exact .inl (.inl hx)
    · exact .inl (.inr ⟨temp, hx, hcaptured⟩)
    · exact .inr ⟨temp, width, hfresh, Code.mem_tempAccesses_iff.2 hx⟩
  · have put_of : ∀ {x : Local}, (x, a.2) ∈ Code.accesses fragment.toList →
        (x = .slot a.1 ∨ ∃ temp, x = .temp temp ∧ (fragment.captured.get? temp = some a.1 ∨
          ∃ width, m.Fresh fragment temp a.1 width)) →
        ∃ b ∈ Code.accesses fragment.toList,
          (Code.bindLocal (m.slotsFor fragment).bound b.1, b.2) = (Local.slot a.1, a.2) :=
      fun hx hslot => ⟨_, hx, congrArg (·, a.2) ((bindLocal_iff hx).2 hslot)⟩
    rintro ((hx | ⟨temp, hx, hcaptured⟩) | ⟨temp, width, hfresh, hx⟩)
    · exact put_of hx (.inl rfl)
    · exact put_of hx (.inr ⟨temp, rfl, .inl hcaptured⟩)
    · exact put_of (Code.mem_tempAccesses_iff.1 hx) (.inr ⟨temp, rfl, .inr ⟨width, hfresh⟩⟩)

/-- The slots of fresh temporaries are separate from those of an access just when
it has none of those that the splice hands out. -/
theorem separate_iff (hneeds : m.slotNeeds fragment ≤ 65535) {a : UInt16 × Nat} (ha : 0 < a.2) :
    (∀ temp slot width, m.Fresh fragment temp slot width →
      Separate (extent (slot, width)) (extent a)) ↔
      ∀ n, Spans (m.handout fragment) n → ¬Spans (extent a) n := by
  constructor
  · intro hseparate n hn
    obtain ⟨temp, slot, width, hfresh, hspans⟩ := (spans_handout hneeds n).1 hn
    exact (hseparate temp slot width hfresh).not_spans hspans
  · intro hnone temp slot width hfresh
    by_contra hmeet
    obtain ⟨n, hn, han⟩ := exists_spans hfresh.widest.pos ha hmeet
    exact hnone n ((spans_handout hneeds n).2 ⟨temp, slot, width, hfresh, hn⟩) han

/-- After a splice the slots of fresh temporaries are separate from those of an
access that the fragment has to a slot of its own or to a captured one, exactly
if that access has none of the slots that are handed out: these start past the
host's slots, and are as many as the fresh temporaries take together. All these
accesses are in the code then. -/
theorem fresh_slots_separate_iff (h : m.code.Stored) (hb : fragment.Binds m.code)
    (hneeds : m.slotNeeds fragment ≤ 65535) (index count : Nat) :
    (∃ put, put.length = (m.splice index count fragment).1 ∧
      (m.splice index count fragment).2.code.toList =
        m.code.toList.take index ++ put ++ m.code.toList.drop (index + count) ∧
      ∀ a, a ∈ Code.slotAccesses put ↔ a ∈ fragment.fixedAccesses ∨
        ∃ temp width, m.Fresh fragment temp a.1 width ∧
          (temp, a.2) ∈ Code.tempAccesses fragment.toList) ∧
    ∀ a ∈ fragment.fixedAccesses,
      (∀ temp slot width, m.Fresh fragment temp slot width →
        Separate (extent (slot, width)) (extent a)) ↔
        ∀ n, Spans (m.handout fragment) n → ¬Spans (extent a) n :=
  ⟨slotAccesses_splice h hb index count, fun _ ha =>
    separate_iff hneeds (Code.fixedAccesses_pos ha)⟩

end Splice

/-- A static method without parameters or code. -/
def bare : Method := create 9 "m" "()V"

/-- Stores a number in slot 0, and another one in a temporary. -/
def storeBeside : Code := Code.empty.pushAll
  [.simple .ICONST_1, .var .ISTORE (.slot 0), .simple .ICONST_2, .var .ISTORE (.temp 0),
    .var .ILOAD (.slot 0), .simple .IRETURN]

/-- The second number overwrites the first one. -/
theorem storeBeside_meets_its_slot :
    bare.code.Stored ∧ storeBeside.Binds bare.code ∧ bare.slotNeeds storeBeside ≤ 65535 ∧
    (∃ slot width a, bare.Fresh storeBeside 0 slot width ∧ a ∈ storeBeside.fixedAccesses ∧
      ¬Separate (extent (slot, width)) (extent a)) ∧
    (bare.splice 0 0 storeBeside).2.code.toList =
      [.simple .ICONST_1, .var .ISTORE (.slot 0), .simple .ICONST_2, .var .ISTORE (.slot 0),
        .var .ILOAD (.slot 0), .simple .IRETURN] := by
  have hfresh : bare.Fresh storeBeside 0 0 1 :=
    ⟨Code.get?_temps.1 (by decide +kernel), rfl, by decide +kernel⟩
  have hmeet : ¬Separate (extent (0, 1)) (extent (0, 1)) := by
    unfold Separate
    decide
  exact ⟨by decide, fun _ _ hi => (nomatch hi), by decide +kernel,
    ⟨0, 1, (0, 1), hfresh, by decide +kernel, hmeet⟩, by decide +kernel⟩

/-- A static method that drops its parameter. -/
def dropping : Method :=
  { create 8 "m" "(I)V" with
    code := Code.empty.pushAll [.var .ILOAD (.slot 0), .simple .POP, .simple .RETURN]
    maxLocals := 1 }

/-- Stores a wide number in a temporary that was captured from a narrow access. -/
def widening : Code :=
  { Code.empty.pushAll
      [.simple .LCONST_0, .var .LSTORE (.temp 0), .simple .ICONST_0, .var .ISTORE (.temp 1)] with
    captured := [(0, 0)] }

theorem widening_meets_its_capture :
    dropping.code.Stored ∧ dropping.slotNeeds widening ≤ 65535 ∧
    (0, 2) ∈ widening.fixedAccesses ∧ Spans (dropping.handout widening) 1 ∧
    ∃ temp slot width, dropping.Fresh widening temp slot width ∧
      ¬Separate (extent (slot, width)) (extent (0, 2)) := by
  have hstored : dropping.code.Stored := by decide
  have hneeds : dropping.slotNeeds widening ≤ 65535 := by decide +kernel
  have hbinds : widening.Binds dropping.code := fun _ _ hi => nomatch hi
  have hmem : (0, 2) ∈ widening.fixedAccesses := by decide +kernel
  have hhands : Spans (dropping.handout widening) 1 := by
    unfold Spans
    decide +kernel
  refine ⟨hstored, hneeds, hmem, hhands, ?_⟩
  by_contra hnone
  have hseparate : ∀ temp slot width, dropping.Fresh widening temp slot width →
      Separate (extent (slot, width)) (extent (0, 2)) := fun temp slot width hfresh => by
    by_contra hmeet
    exact hnone ⟨temp, slot, width, hfresh, hmeet⟩
  exact ((fresh_slots_separate_iff hstored hbinds hneeds 0 0).2 _ hmem).1 hseparate 1 hhands
    ⟨by decide, by decide⟩

end Method

end ClassPatch
