-- How exact the layout is about its wide jumps. A jump that is made wide pushes
-- apart what stands around it, and the padding of a switch takes back two bytes
-- of that at most. So what an early round finds too far is too far in the end,
-- but for two bytes on a way over a switch: there a round that is not settled
-- makes a jump wide, or refuses a branch, that would fit in the end.
import ClassPatch.Proofs.Emission

namespace ClassPatch

/-! ## Sizes -/

namespace Instruction

variable {α : Type} {i : Insn α}

/-- Behind a switch the position of its opcode counts by fours only. -/
theorem add_size_of_switch (hi : i.isSwitch) (operand : UInt16) : ∃ n, ∀ pc wide,
    pc + size pc operand wide i = 4 * ((pc + 4) / 4) + n := by
  cases i with
  | tableSwitch low otherwise ts =>
    refine ⟨12 + 4 * ts.length, fun pc wide => ?_⟩
    simp only [size, switchPadding]
    omega
  | lookupSwitch otherwise ps =>
    refine ⟨8 + 8 * ps.length, fun pc wide => ?_⟩
    simp only [size, switchPadding]
    omega
  | _ => cases hi

/-- Any other instruction is as long wherever it stands, and longer by two if it is wide now. -/
theorem size_of_not_switch (hi : i.isSwitch = false) (operand : UInt16) (pc pc' : Nat)
    {wide wide' : Bool} (hw : wide → wide') :
    size pc' operand wide' i = size pc operand wide i ∨
      size pc' operand wide' i = size pc operand wide i + 2 := by
  cases i with
  | jump op l =>
    cases wide <;> cases wide' <;> first | exact .inl rfl | exact .inr rfl | cases hw rfl
  | tableSwitch | lookupSwitch => cases hi
  | var op v => cases v <;> exact .inl rfl
  | iinc v n => cases v <;> exact .inl rfl
  | _ => exact .inl rfl

end Instruction

namespace Layout

variable {items : List Item} {w w' : Nat → Bool}

/-! ## Two layouts -/

/-- A switch is among the items from one index to another. -/
def SwitchIn (items : List Item) (i j : Nat) : Prop :=
  ∃ k item, i ≤ k ∧ k < j ∧ items[k]? = some item ∧ item.node.isSwitch

/-- With more jumps wide everything stands as far behind or further, by an even distance. -/
theorem stop_le_even (hw : ∀ k, w k → w' k) {i : Nat} (hi : i ≤ items.length) :
    stop w items i ≤ stop w' items i ∧ stop w items i % 2 = stop w' items i % 2 := by
  induction i with
  | zero =>
    have hstart : ∀ w, stop w items 0 = 0 := fun w => by cases items <;> rfl
    rw [hstart, hstart]
    exact ⟨Nat.le_refl _, rfl⟩
  | succ i ih =>
    obtain ⟨hle, heven⟩ := ih (Nat.le_of_succ_le hi)
    have hitem := List.getElem?_eq_getElem hi
    rw [stop_succ w hitem, stop_succ w' hitem]
    cases hs : items[i].node.isSwitch with
    | true =>
      obtain ⟨n, hn⟩ := Instruction.add_size_of_switch hs items[i].operand
      rw [hn, hn]
      omega
    | false =>
      have hsize := Instruction.size_of_not_switch hs items[i].operand (stop w items i)
        (stop w' items i) (hw i)
      omega

/-- A distance that everything was pushed by is kept up to the next switch,
and if it is a multiple of four, behind it as well. -/
theorem stop_add_le (hw : ∀ k, w k → w' k) {i m : Nat} (h : stop w items i + m ≤ stop w' items i)
    {d : Nat} (hd : i + d ≤ items.length) (hm : m % 4 = 0 ∨ ¬SwitchIn items i (i + d)) :
    stop w items (i + d) + m ≤ stop w' items (i + d) := by
  induction d with
  | zero => exact h
  | succ d ih =>
    have hlt : i + d < items.length := hd
    have ih := ih (Nat.le_of_lt hlt) (hm.imp_right fun hno hin => hno (by
      obtain ⟨k, item, hk, hkd, hin⟩ := hin
      exact ⟨k, item, hk, by omega, hin⟩))
    have hitem := List.getElem?_eq_getElem hlt
    rw [← Nat.add_assoc, stop_succ w hitem, stop_succ w' hitem]
    cases hs : items[i + d].node.isSwitch with
    | true =>
      have hm := hm.resolve_right fun hno =>
        hno ⟨i + d, _, Nat.le_add_right .., by omega, hitem, hs⟩
      obtain ⟨n, hn⟩ := Instruction.add_size_of_switch hs items[i + d].operand
      rw [hn, hn]
      omega
    | false =>
      have hsize := Instruction.size_of_not_switch hs items[i + d].operand (stop w items (i + d))
        (stop w' items (i + d)) (hw (i + d))
      omega

/-- Two places get further apart or stay as far; over a switch they may get nearer, by two bytes. -/
theorem span_le (hw : ∀ k, w k → w' k) {i j : Nat} (hij : i ≤ j) (hj : j ≤ items.length) :
    stop w items j + stop w' items i ≤ stop w' items j + stop w items i + 2 ∧
      (¬SwitchIn items i j →
        stop w items j + stop w' items i ≤ stop w' items j + stop w items i) := by
  obtain ⟨d, rfl⟩ := Nat.exists_eq_add_of_le hij
  obtain ⟨hle, heven⟩ := stop_le_even hw (Nat.le_trans hij hj)
  constructor
  · have := stop_add_le hw (m := 4 * ((stop w' items i - stop w items i) / 4)) (by omega) hj
      (.inl (by omega))
    omega
  · intro hno
    have := stop_add_le hw (m := stop w' items i - stop w items i) (by omega) hj (.inr hno)
    omega

/-- A jump that gets wide itself gets no nearer to a place behind it. -/
theorem span_le_of_widened (hw : ∀ k, w k → w' k) {i j : Nat} (hij : i < j)
    (hj : j ≤ items.length) {item : Item} {op : Opcode} {target : Label}
    (hi : items[i]? = some item) (hn : item.node = .jump op target) (hnarrow : w i = false)
    (hwide : w' i = true) :
    stop w items j + stop w' items i ≤ stop w' items j + stop w items i := by
  obtain ⟨d, rfl⟩ : ∃ d, j = i + 1 + d := ⟨j - (i + 1), by omega⟩
  obtain ⟨hle, heven⟩ := stop_le_even hw (Nat.le_trans (Nat.le_of_lt hij) hj)
  have hnext := stop_succ w hi
  have hnext' := stop_succ w' hi
  simp only [hn, hnarrow, hwide, Instruction.size, if_true, Bool.false_eq_true, if_false]
    at hnext hnext'
  have := stop_add_le hw (m := 4 * ((stop w' items i + 2 - stop w items i) / 4)) (by omega) hj
    (.inl (by omega))
  omega

/-! ## Distances -/

/-- The index of a label's marker, the number of items for a label without one. -/
def indexOf (items : List Item) (label : Label) : Nat :=
  (markerIndex (items.map (·.node))).getD label items.length

theorem indexOf_le (items : List Item) (label : Label) : indexOf items label ≤ items.length := by
  unfold indexOf
  rw [Std.HashMap.getD_eq_getD_getElem?]
  cases hl : (markerIndex (items.map (·.node)))[label]? with
  | none => exact Nat.le_refl _
  | some i =>
    have hi := lt_of_markerIndex hl
    rw [List.length_map] at hi
    exact Nat.le_of_lt hi

/-- How far it is from an item to a label. -/
def offset (l : Layout) (items : List Item) (i : Nat) (target : Label) : Int :=
  (l.placeOf (markerIndex (items.map (·.node))) target : Int) - l.pcAt i

theorem placeOf_place (wide : Std.HashSet Nat) (items : List Item) (target : Label) :
    (place wide items).placeOf (markerIndex (items.map (·.node))) target =
      stop wide.contains items (indexOf items target) := by
  unfold placeOf indexOf
  rw [Std.HashMap.getD_eq_getD_getElem?]
  cases hl : (markerIndex (items.map (·.node)))[target]? with
  | none => exact size_place wide items
  | some k =>
    have hk := lt_of_markerIndex hl
    rw [List.length_map] at hk
    exact pcAt_place (Nat.le_of_lt hk)

theorem offset_place {wide : Std.HashSet Nat} {i : Nat} (hi : i ≤ items.length) (target : Label) :
    offset (place wide items) items i target =
      (stop wide.contains items (indexOf items target) : Int) - stop wide.contains items i := by
  rw [offset, placeOf_place, pcAt_place hi]

/-- The way from an item to a label leads over a switch. -/
def LeadsOver (items : List Item) (i : Nat) (target : Label) : Prop :=
  SwitchIn items (min i (indexOf items target)) (max i (indexOf items target))

/-- The distance has two bytes, and over a switch two more or less would as well. -/
structure Roomy (l : Layout) (items : List Item) (i : Nat) (target : Label) : Prop where
  fits : Instruction.fitsI16 (l.offset items i target)
  spare : LeadsOver items i target → Instruction.fitsI16 (l.offset items i target - 2) ∧
    Instruction.fitsI16 (l.offset items i target + 2)

theorem stop_le_stop (w : Nat → Bool) {i j : Nat} (hij : i ≤ j) (hj : j ≤ items.length) :
    stop w items i ≤ stop w items j := by
  obtain ⟨d, rfl⟩ := Nat.exists_eq_add_of_le hij
  induction d with
  | zero => exact Nat.le_refl _
  | succ d ih =>
    have hlt : i + d < items.length := hj
    rw [← Nat.add_assoc, stop_succ w (List.getElem?_eq_getElem hlt)]
    exact Nat.le_add_right_of_le (ih (Nat.le_add_right ..) (Nat.le_of_lt hlt))

section Distances
variable {wide wide' : Std.HashSet Nat} {i : Nat} {target : Label}

/-- What is too far is too far, or nearly so, when more jumps are wide. -/
theorem not_roomy_of_far (hw : ∀ k, wide.contains k → wide'.contains k) (hi : i ≤ items.length)
    (hfar : ¬Instruction.fitsI16 ((place wide items).offset items i target)) :
    ¬(place wide' items).Roomy items i target := by
  rintro ⟨hfits, hspare⟩
  have ht := indexOf_le items target
  rw [offset_place hi] at hfar hfits hspare
  simp only [LeadsOver, Instruction.fitsI16_iff] at hfar hfits hspare
  rcases Nat.le_total i (indexOf items target) with hle | hle
  · obtain ⟨hany, hnone⟩ := span_le hw hle ht
    have hmono := stop_le_stop wide.contains hle ht
    rw [Nat.min_eq_left hle, Nat.max_eq_right hle] at hspare
    by_cases hs : SwitchIn items i (indexOf items target)
    · have := hspare hs
      omega
    · have := hnone hs
      omega
  · obtain ⟨hany, hnone⟩ := span_le hw hle hi
    have hmono := stop_le_stop wide.contains hle hi
    rw [Nat.min_eq_right hle, Nat.max_eq_left hle] at hspare
    by_cases hs : SwitchIn items (indexOf items target) i
    · have := hspare hs
      omega
    · have := hnone hs
      omega

/-- A jump that got wide because it was too far is too far, unless it leads
back over a switch and missed by no more than two bytes. -/
theorem far_of_widened (hw : ∀ k, wide.contains k → wide'.contains k) {item : Item} {op : Opcode}
    (hitem : items[i]? = some item) (hn : item.node = .jump op target)
    (hnarrow : wide.contains i = false) (hwide : wide'.contains i = true)
    (hfar : ¬Instruction.fitsI16 ((place wide items).offset items i target)) :
    ¬Instruction.fitsI16 ((place wide' items).offset items i target) ∨
      indexOf items target ≤ i ∧ LeadsOver items i target ∧
        ((place wide' items).offset items i target = -32768 ∨
          (place wide' items).offset items i target = -32767) := by
  have hlt := (List.getElem?_eq_some_iff.1 hitem).1
  have hi := Nat.le_of_lt hlt
  have ht := indexOf_le items target
  rw [offset_place hi] at hfar ⊢
  simp only [LeadsOver, Instruction.fitsI16_iff] at hfar ⊢
  rcases Nat.lt_or_ge i (indexOf items target) with hle | hle
  · have hspan := span_le_of_widened hw hle ht hitem hn hnarrow hwide
    have hmono := stop_le_stop wide.contains (Nat.le_of_lt hle) ht
    omega
  · obtain ⟨hany, hnone⟩ := span_le hw hle hi
    have hmono := stop_le_stop wide.contains hle hi
    rw [Nat.min_eq_right hle, Nat.max_eq_left hle]
    by_cases hs : SwitchIn items (indexOf items target) i
    · by_cases hfits : (-32768 : Int) ≤ stop wide'.contains items (indexOf items target) -
          stop wide'.contains items i
      · exact .inr ⟨hle, hs, by omega⟩
      · exact .inl fun h => hfits h.1
    · have := hnone hs
      omega

end Distances

/-! ## Rounds -/

/-- The wide jumps of some round. -/
inductive Reached (items : List Item) : Std.HashSet Nat → Prop
  | start : Reached items ∅
  | more {wide : Std.HashSet Nat} {grown : List Nat} (h : Reached items wide)
    (hg : (place wide items).growing (markerIndex (items.map (·.node))) items = .ok grown) :
    Reached items (wide.insertMany grown)

/-- What a round does with a branch. -/
theorem widens_jump {l : Layout} {i : Nat} {op : Opcode} {target : Label} :
    l.widens (markerIndex (items.map (·.node))) i (.jump op target) =
      if Instruction.fitsI16 (l.offset items i target) then .ok false
      else if op = .GOTO then .ok (!l.wide.contains i)
      else .error (.branchOutOfRange (l.pcAt i)
        (l.placeOf (markerIndex (items.map (·.node))) target)) := rfl

/-- A jump that is made wide was narrow, and too far. -/
theorem far_of_grown {wide : Std.HashSet Nat} {grown : List Nat}
    (hg : (place wide items).growing (markerIndex (items.map (·.node))) items = .ok grown) {i : Nat}
    (hi : i ∈ grown) : wide.contains i = false ∧ ∃ item target, items[i]? = some item ∧
      item.node = .jump .GOTO target ∧
        ¬Instruction.fitsI16 ((place wide items).offset items i target) := by
  obtain ⟨item, hitem, hwidens⟩ := ((growing_ok hg).2 i).1 hi
  obtain ⟨target, hn⟩ := goto_of_widens hwidens
  rw [hn, widens_jump] at hwidens
  split at hwidens
  · cases hwidens
  · rename_i hfar
    rw [if_pos rfl, Except.ok.injEq, Bool.not_eq_true'] at hwidens
    exact ⟨hwidens, item, target, hitem, hn, hfar⟩

theorem contains_insertMany {wide : Std.HashSet Nat} {grown : List Nat} {i : Nat} :
    (wide.insertMany grown).contains i ↔ wide.contains i ∨ i ∈ grown := by
  rw [Std.HashSet.contains_insertMany_list, Bool.or_eq_true, List.contains_iff_mem]

/-- Every wide jump was too far in an earlier round, when it was narrow yet. -/
theorem Reached.origin {wide : Std.HashSet Nat} (h : Reached items wide) {i : Nat}
    (hi : wide.contains i) : ∃ earlier : Std.HashSet Nat,
      (∀ k, earlier.contains k → wide.contains k) ∧ earlier.contains i = false ∧
        ∃ item target, items[i]? = some item ∧ item.node = .jump .GOTO target ∧
          ¬Instruction.fitsI16 ((place earlier items).offset items i target) := by
  induction h with
  | start => simp at hi
  | @more wide grown _ hg ih =>
    rcases contains_insertMany.1 hi with hi | hi
    · obtain ⟨earlier, hsub, hfar⟩ := ih hi
      exact ⟨earlier, fun k hk => contains_insertMany.2 (.inl (hsub k hk)), hfar⟩
    · exact ⟨wide, fun k hk => contains_insertMany.2 (.inl hk), far_of_grown hg hi⟩

/-- No round makes a jump wide that is narrow in a layout where all narrow jumps have room. -/
theorem Reached.subset {wide all : Std.HashSet Nat} (h : Reached items wide)
    (hroom : ∀ i item target, items[i]? = some item → item.node = .jump .GOTO target →
      all.contains i = false → (place all items).Roomy items i target) :
    ∀ k, wide.contains k → all.contains k := by
  induction h with
  | start =>
    intro k hk
    simp at hk
  | @more wide grown _ hg ih =>
    intro k hk
    rcases contains_insertMany.1 hk with hk | hk
    · exact ih k hk
    · obtain ⟨-, item, target, hitem, hn, hfar⟩ := far_of_grown hg hk
      cases hall : all.contains k with
      | true => rfl
      | false =>
        have hlt := (List.getElem?_eq_some_iff.1 hitem).1
        exact absurd (hroom k item target hitem hn hall)
          (not_roomy_of_far ih (Nat.le_of_lt hlt) hfar)

/-- A round that fails has a branch, and not a plain jump, that is too far. -/
theorem far_of_growing_error {wide : Std.HashSet Nat} {f : Fault}
    (hg : (place wide items).growing (markerIndex (items.map (·.node))) items = .error f) :
    ∃ i item op target, items[i]? = some item ∧ item.node = .jump op target ∧ op ≠ .GOTO ∧
      ¬Instruction.fitsI16 ((place wide items).offset items i target) := by
  by_contra hno
  obtain ⟨found, hf⟩ : ∃ found,
      (place wide items).growing (markerIndex (items.map (·.node))) items = .ok found := by
    refine growing_total fun i item hitem => ?_
    cases hn : item.node with
    | jump op target =>
      rw [widens_jump]
      split
      · exact ⟨_, rfl⟩
      · rename_i hfar
        split
        · exact ⟨_, rfl⟩
        · rename_i hop
          exact absurd ⟨i, item, op, target, hitem, hn, hop, hfar⟩ hno
    | _ => exact ⟨_, rfl⟩
  rw [hg] at hf
  cases hf

/-- A layout is of a round that was reached, and so is a branch that is out of range. -/
theorem reached_of_settle {signature : String} {rounds : Nat} {wide : Std.HashSet Nat}
    (hw : Reached items wide) :
    (∀ l, settle signature (markerIndex (items.map (·.node))) items rounds wide = .ok l →
      Reached items l.wide) ∧
    ∀ start stop, settle signature (markerIndex (items.map (·.node))) items rounds wide =
        .error (.branchOutOfRange start stop) → ∃ last, Reached items last ∧
      (place last items).growing (markerIndex (items.map (·.node))) items =
        .error (.branchOutOfRange start stop) := by
  induction rounds generalizing wide with
  | zero => exact ⟨by rintro l ⟨⟩, by rintro start stop ⟨⟩⟩
  | succ rounds ih =>
    unfold settle
    dsimp only
    split
    · exact ⟨by rintro l ⟨⟩, by rintro start stop ⟨⟩⟩
    · cases hg : (place wide items).growing (markerIndex (items.map (·.node))) items with
      | error f =>
        refine ⟨by rintro l ⟨⟩, ?_⟩
        rintro start stop ⟨⟩
        exact ⟨wide, hw, hg⟩
      | ok grown =>
        cases grown with
        | nil =>
          refine ⟨?_, by rintro start stop ⟨⟩⟩
          rintro l ⟨⟩
          exact hw
        | cons i grown => exact ih (hw.more hg)

/-- A round that does not fail for the size is what it finds to grow. -/
theorem settle_succ {signature : String} {index : Std.HashMap Label Nat} {items : List Item}
    {wide : Std.HashSet Nat} (hsize : (place wide items).size ≤ 65535) (rounds : Nat) :
    settle signature index items (rounds + 1) wide =
      match (place wide items).growing index items with
      | .error f => .error f
      | .ok [] => .ok (place wide items)
      | .ok (i :: grown) => settle signature index items rounds (wide.insertMany (i :: grown)) := by
  conv_lhs => unfold settle
  dsimp only
  rw [if_neg (Nat.not_lt.2 hsize)]
  cases (place wide items).growing index items with
  | error f => rfl
  | ok grown => cases grown <;> rfl

/-! ## A branch over a switch -/

/-- A branch back over a switch, between a jump and its target, which jumps to itself. -/
def crossing (op : Opcode) : List Item :=
  [⟨.jump .GOTO 1, 0⟩, ⟨.simple .NOP, 0⟩, ⟨.simple .NOP, 0⟩, ⟨.label 0, 0⟩,
    ⟨.tableSwitch 0 0 (List.replicate 8188 0), 0⟩, ⟨.simple .NOP, 0⟩, ⟨.simple .NOP, 0⟩,
    ⟨.jump op 0, 0⟩, ⟨.label 1, 0⟩, ⟨.jump .GOTO 1, 0⟩]

theorem stop_crossing (w : Nat → Bool) (op : Opcode) :
    stop w (crossing op) 0 = 0 ∧ stop w (crossing op) 3 = (if w 0 then 7 else 5) ∧
      stop w (crossing op) 7 = 32774 ∧
      stop w (crossing op) 8 = 32774 + (if w 7 then 5 else 3) ∧
      stop w (crossing op) 9 = 32774 + (if w 7 then 5 else 3) ∧
      stop w (crossing op) 10 ≤ 32784 := by
  simp only [stop, crossing, stopsFrom, Instruction.size, List.length_replicate, switchPadding]
  cases w 0 <;> cases w 7 <;> cases w 9 <;> decide

theorem indexOf_crossing (op : Opcode) :
    indexOf (crossing op) 0 = 3 ∧ indexOf (crossing op) 1 = 8 := by
  constructor <;>
    simp [-List.reduceReplicate, indexOf, crossing, markerIndex, Insn.marker?,
      Std.HashMap.getD_insert]

theorem offset_crossing (wide : Std.HashSet Nat) (op : Opcode) :
    (place wide (crossing op)).offset (crossing op) 0 1 =
        32774 + (if wide.contains 7 then 5 else 3) ∧
      (place wide (crossing op)).offset (crossing op) 7 0 =
        (if wide.contains 0 then 7 else 5) - 32774 ∧
      (place wide (crossing op)).offset (crossing op) 9 1 = 0 := by
  obtain ⟨h0, h3, h7, h8, h9, -⟩ := stop_crossing wide.contains op
  obtain ⟨hback, hahead⟩ := indexOf_crossing op
  have hlen : (crossing op).length = 10 := rfl
  refine ⟨?_, ?_, ?_⟩
  · rw [offset_place (by omega), hahead, h8, h0]
    split <;> rfl
  · rw [offset_place (by omega), hback, h7, h3]
    split <;> rfl
  · rw [offset_place (by omega), hahead, h8, h9, Int.sub_self]

theorem size_crossing (wide : Std.HashSet Nat) (op : Opcode) :
    (place wide (crossing op)).size ≤ 65535 := by
  obtain ⟨-, -, -, -, -, h10⟩ := stop_crossing wide.contains op
  rw [size_place]
  exact Nat.le_trans h10 (by decide)

/-- The jump ahead is always too far; the branch back is not once the jump is wide. -/
theorem fits_crossing (wide : Std.HashSet Nat) (op : Opcode) :
    Instruction.fitsI16 ((place wide (crossing op)).offset (crossing op) 0 1) = false ∧
      Instruction.fitsI16 ((place wide (crossing op)).offset (crossing op) 7 0) =
        wide.contains 0 ∧
      Instruction.fitsI16 ((place wide (crossing op)).offset (crossing op) 9 1) = true := by
  obtain ⟨hahead, hback, hself⟩ := offset_crossing wide op
  rw [hahead, hback, hself]
  cases wide.contains 0 <;> cases wide.contains 7 <;> decide

/-- The branch is the eighth item, and there are two jumps beside it. -/
theorem jump_crossing {op op' : Opcode} {i : Nat} {item : Item} {target : Label}
    (hi : (crossing op)[i]? = some item) (hn : item.node = .jump op' target) :
    i = 0 ∧ op' = .GOTO ∧ target = 1 ∨ i = 7 ∧ op' = op ∧ target = 0 ∨
      i = 9 ∧ op' = .GOTO ∧ target = 1 := by
  rcases i with _ | _ | _ | _ | _ | _ | _ | _ | _ | _ | i <;> cases hi <;> cases hn
  · exact .inl ⟨rfl, rfl, rfl⟩
  · exact .inr (.inl ⟨rfl, rfl, rfl⟩)
  · exact .inr (.inr ⟨rfl, rfl, rfl⟩)

/-- A round makes each of the two wide that is too far and narrow, or fails. -/
theorem growing_crossing (wide : Std.HashSet Nat) (op : Opcode) :
    (place wide (crossing op)).growing (markerIndex ((crossing op).map (·.node))) (crossing op) =
      if wide.contains 0 then .ok []
      else if op = .GOTO then .ok (if wide.contains 7 then [0] else [7, 0])
      else .error (.branchOutOfRange 32774 5) := by
  obtain ⟨hahead, hback, hself⟩ := fits_crossing wide op
  obtain ⟨-, h3, h7, -⟩ := stop_crossing wide.contains op
  have hlen : (crossing op).length = 10 := rfl
  have hfirst : (place wide (crossing op)).widens (markerIndex ((crossing op).map (·.node))) 0
      (.jump .GOTO 1) = .ok (!wide.contains 0) := by
    rw [widens_jump, hahead]
    rfl
  have hsecond : (place wide (crossing op)).widens (markerIndex ((crossing op).map (·.node))) 7
      (.jump op 0) = if wide.contains 0 then .ok false
        else if op = .GOTO then .ok (!wide.contains 7)
        else .error (.branchOutOfRange 32774 (if wide.contains 0 then 7 else 5)) := by
    rw [widens_jump, hback, placeOf_place, pcAt_place (by omega), (indexOf_crossing op).1, h3, h7]
    rfl
  have hthird : (place wide (crossing op)).widens (markerIndex ((crossing op).map (·.node))) 9
      (.jump .GOTO 1) = .ok false := by
    rw [widens_jump, hself]
    rfl
  have hother : ∀ i, (place wide (crossing op)).widens
      (markerIndex ((crossing op).map (·.node))) i (.tableSwitch 0 0 (List.replicate 8188 0)) =
        .ok false := fun _ => rfl
  generalize markerIndex ((crossing op).map (·.node)) = index at hfirst hsecond hthird hother
  generalize place wide (crossing op) = l at hfirst hsecond hthird hother
  have hlabel : ∀ i label, l.widens index i (.label label) = .ok false := fun _ _ => rfl
  have hsimple : ∀ i op, l.widens index i (.simple op) = .ok false := fun _ _ => rfl
  have hbind : ∀ (b : Bool) (f : Bool → Except Fault (List Nat)), (Except.ok b >>= f) = f b :=
    fun _ _ => rfl
  have hpure : ∀ (found : List Nat) (f : List Nat → Except Fault (List Nat)),
      ((pure found : Except Fault (List Nat)) >>= f) = f found := fun _ _ => rfl
  simp only [growing, crossing, List.zipIdx_cons, List.zipIdx_nil, List.foldlM_cons,
    List.foldlM_nil, hfirst, hsecond, hthird, hother, hlabel, hsimple, hbind, hpure, Nat.zero_add,
    Nat.reduceAdd, Bool.false_eq_true, if_false]
  cases wide.contains 0 <;> cases wide.contains 7 <;> by_cases hop : op = .GOTO <;>
    simp [hop, bind, Except.bind, pure, Except.pure]

theorem layOut_crossing_goto (signature : String) : ∃ wide : Std.HashSet Nat,
    layOut signature (markerIndex ((crossing .GOTO).map (·.node))) (crossing .GOTO) =
        .ok (place wide (crossing .GOTO)) ∧
      wide.contains 0 = true ∧ wide.contains 7 = true ∧ wide.contains 9 = false := by
  have hin : ∀ i, ((∅ : Std.HashSet Nat).insertMany [7, 0]).contains i = decide (i ∈ [7, 0]) := by
    intro i
    rw [Bool.eq_iff_iff, contains_insertMany]
    simp
  have hfirst := growing_crossing ∅ .GOTO
  have hsecond := growing_crossing ((∅ : Std.HashSet Nat).insertMany [7, 0]) .GOTO
  have hzero : ((∅ : Std.HashSet Nat).insertMany [7, 0]).contains 0 = true := hin 0
  simp only [Std.HashSet.contains_empty, Bool.false_eq_true, if_false, if_true] at hfirst
  rw [if_pos hzero] at hsecond
  refine ⟨(∅ : Std.HashSet Nat).insertMany [7, 0], ?_, hzero, hin 7, hin 9⟩
  have hrounds : (crossing .GOTO).length + 1 = 9 + 1 + 1 := rfl
  rw [layOut, hrounds, settle_succ (size_crossing ∅ .GOTO), hfirst]
  dsimp only
  rw [settle_succ (size_crossing _ .GOTO), hsecond]

theorem layOut_crossing_branch (signature : String) :
    layOut signature (markerIndex ((crossing .IFEQ).map (·.node))) (crossing .IFEQ) =
      .error (.branchOutOfRange 32774 5) := by
  have hfirst := growing_crossing ∅ .IFEQ
  simp only [Std.HashSet.contains_empty, Bool.false_eq_true, if_false] at hfirst
  have hrounds : (crossing .IFEQ).length + 1 = 10 + 1 := rfl
  rw [layOut, hrounds, settle_succ (size_crossing ∅ .IFEQ), hfirst]
  rfl

/-! ## Wide jumps and branches out of range -/

/-- A layout has no narrow jump that is too far, and hardly a wide one that is
not: such a jump leads back over a switch that took two bytes out of the way
after the jump was made wide. A branch is out of range only if no choice of
wide jumps gives each narrow jump room and the branches as well. -/
theorem widening_is_tight (signature : String) (items : List Item) :
    (∀ l, layOut signature (markerIndex (items.map (·.node))) items = .ok l →
      ∀ i item target, items[i]? = some item → item.node = .jump .GOTO target →
        (l.wide.contains i = false → Instruction.fitsI16 (l.offset items i target)) ∧
        (l.wide.contains i = true → ¬Instruction.fitsI16 (l.offset items i target) ∨
          indexOf items target ≤ i ∧ LeadsOver items i target ∧
            (l.offset items i target = -32768 ∨ l.offset items i target = -32767))) ∧
    ∀ start stop, layOut signature (markerIndex (items.map (·.node))) items =
        .error (.branchOutOfRange start stop) →
      ∀ wide : Std.HashSet Nat,
        (∀ i item target, items[i]? = some item → item.node = .jump .GOTO target →
          wide.contains i = false → (place wide items).Roomy items i target) →
        ∃ i item op target, items[i]? = some item ∧ item.node = .jump op target ∧ op ≠ .GOTO ∧
          ¬(place wide items).Roomy items i target := by
  constructor
  · intro l hl i item target hitem hn
    have hsettled := settled_of_layOut hl
    refine ⟨fun hnarrow => hsettled.near hitem hn hnarrow, fun hwide => ?_⟩
    have hreached : Reached items l.wide := (reached_of_settle .start).1 l hl
    obtain ⟨earlier, hsub, hnarrow, item', target', hitem', hn', hfar⟩ := hreached.origin hwide
    rw [hitem] at hitem'
    cases hitem'
    rw [hn] at hn'
    cases hn'
    have := far_of_widened hsub hitem hn hnarrow hwide hfar
    rwa [← hsettled.placed] at this
  · intro start stop herror wide hroom
    obtain ⟨last, hreached, hg⟩ := (reached_of_settle .start).2 start stop herror
    obtain ⟨i, item, op, target, hitem, hn, hop, hfar⟩ := far_of_growing_error hg
    have hlt := (List.getElem?_eq_some_iff.1 hitem).1
    exact ⟨i, item, op, target, hitem, hn, hop,
      not_roomy_of_far (hreached.subset hroom) (Nat.le_of_lt hlt) hfar⟩

theorem widening_is_tight_crossing :
    (∃ wide, layOut "m()V" (markerIndex ((crossing .GOTO).map (·.node))) (crossing .GOTO) =
        .ok (place wide (crossing .GOTO)) ∧
      wide.contains 7 = true ∧ wide.contains 9 = false ∧
      (¬Instruction.fitsI16 ((place wide (crossing .GOTO)).offset (crossing .GOTO) 7 0) ∨
        indexOf (crossing .GOTO) 0 ≤ 7 ∧ LeadsOver (crossing .GOTO) 7 0 ∧
          ((place wide (crossing .GOTO)).offset (crossing .GOTO) 7 0 = -32768 ∨
            (place wide (crossing .GOTO)).offset (crossing .GOTO) 7 0 = -32767)) ∧
      Instruction.fitsI16 ((place wide (crossing .GOTO)).offset (crossing .GOTO) 9 1)) ∧
    layOut "m()V" (markerIndex ((crossing .IFEQ).map (·.node))) (crossing .IFEQ) =
        .error (.branchOutOfRange 32774 5) ∧
      ∃ i item op target, (crossing .IFEQ)[i]? = some item ∧ item.node = .jump op target ∧
        op ≠ .GOTO ∧ ¬(place ((∅ : Std.HashSet Nat).insert 0) (crossing .IFEQ)).Roomy
          (crossing .IFEQ) i target := by
  constructor
  · obtain ⟨wide, hl, -, h7, h9⟩ := layOut_crossing_goto "m()V"
    have htight := (widening_is_tight "m()V" (crossing .GOTO)).1 _ hl
    exact ⟨wide, hl, h7, h9, (htight 7 _ 0 rfl rfl).2 h7, (htight 9 _ 1 rfl rfl).1 h9⟩
  · have herror := layOut_crossing_branch "m()V"
    refine ⟨herror, (widening_is_tight "m()V" (crossing .IFEQ)).2 _ _ herror _ ?_⟩
    intro i item target hi hn hnarrow
    rcases jump_crossing hi hn with ⟨rfl, -, -⟩ | ⟨-, hop, -⟩ | ⟨rfl, -, rfl⟩
    · simp at hnarrow
    · cases hop
    · have hself := (offset_crossing ((∅ : Std.HashSet Nat).insert 0) .IFEQ).2.2
      refine ⟨?_, fun _ => ?_⟩ <;> rw [hself] <;> decide

/-- Over a switch a wide jump may end up near enough, and a branch may be out
of range in an early round although there is a layout where all that is narrow is near enough. -/
theorem widening_crossing_is_not_exact :
    (∃ l, layOut "m()V" (markerIndex ((crossing .GOTO).map (·.node))) (crossing .GOTO) = .ok l ∧
      (crossing .GOTO)[7]? = some ⟨.jump .GOTO 0, 0⟩ ∧ l.wide.contains 7 = true ∧
        Instruction.fitsI16 (l.offset (crossing .GOTO) 7 0)) ∧
    layOut "m()V" (markerIndex ((crossing .IFEQ).map (·.node))) (crossing .IFEQ) =
        .error (.branchOutOfRange 32774 5) ∧
      ∃ wide : Std.HashSet Nat,
        (∀ i, wide.contains i →
          ∃ item target, (crossing .IFEQ)[i]? = some item ∧ item.node = .jump .GOTO target) ∧
        ∀ i item op target, (crossing .IFEQ)[i]? = some item → item.node = .jump op target →
          wide.contains i = false → Instruction.fitsI16
            ((place wide (crossing .IFEQ)).offset (crossing .IFEQ) i target) := by
  constructor
  · obtain ⟨wide, hl, h0, h7, -⟩ := layOut_crossing_goto "m()V"
    exact ⟨_, hl, rfl, h7, (fits_crossing wide .GOTO).2.1.trans h0⟩
  · refine ⟨layOut_crossing_branch "m()V", (∅ : Std.HashSet Nat).insert 0, ?_, ?_⟩
    · intro i hi
      obtain rfl : 0 = i := by simpa using hi
      exact ⟨_, 1, rfl, rfl⟩
    · intro i item op target hi hn hnarrow
      obtain ⟨-, hback, hself⟩ := fits_crossing ((∅ : Std.HashSet Nat).insert 0) .IFEQ
      rcases jump_crossing hi hn with ⟨rfl, -, -⟩ | ⟨rfl, -, rfl⟩ | ⟨rfl, -, rfl⟩
      · simp at hnarrow
      · rw [hback]
        simp
      · exact hself

end Layout

end ClassPatch
