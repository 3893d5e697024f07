-- Each instruction reads back from its bytes. The writer chooses the shortest
-- form, and the byte that announces a form is not that of any other.
import ClassPatch.Proofs.Pools
import ClassPatch.Proofs.Reading

namespace ClassPatch

/-! ## First bytes -/

namespace Opcode

/-- A byte that announces no wide or long form. -/
structure Short (b : UInt8) : Prop where
  wide : b ≠ wide
  wideLdc : b ≠ wideLdc
  doubleLdc : b ≠ doubleLdc
  wideGoto : b ≠ wideGoto

theorem short_toByte (op : Opcode) : Short op.toByte := by
  have h : ∀ op ∈ all, op.toByte ≠ wide ∧ op.toByte ≠ wideLdc ∧ op.toByte ≠ doubleLdc ∧
      op.toByte ≠ wideGoto := by decide +kernel
  obtain ⟨h₁, h₂, h₃, h₄⟩ := h op (mem_all op)
  exact ⟨h₁, h₂, h₃, h₄⟩

theorem ofShortForm?_toByte (op : Opcode) : ofShortForm? op.toByte = none :=
  (by decide +kernel : ∀ op ∈ all, ofShortForm? op.toByte = none) op (mem_all op)

/-- A byte with its slot in it stands for the access that it was made for. -/
theorem ofShortForm?_of_shortForm? {op : Opcode} {slot : Nat} {b : UInt8}
    (h : op.shortForm? slot = some b) : Short b ∧ ofShortForm? b = some (op, slot) := by
  have hslot : slot < 4 := by
    unfold shortForm? at h
    split at h
    · cases h
    · omega
  have hall : ∀ op ∈ all, ∀ slot ∈ List.range 4, ∀ b ∈ op.shortForm? slot,
      (b ≠ wide ∧ b ≠ wideLdc ∧ b ≠ doubleLdc ∧ b ≠ wideGoto) ∧
        ofShortForm? b = some (op, slot) := by decide +kernel
  obtain ⟨⟨h₁, h₂, h₃, h₄⟩, hb⟩ := hall op (mem_all op) slot (List.mem_range.2 hslot) b h
  exact ⟨⟨h₁, h₂, h₃, h₄⟩, hb⟩

end Opcode

namespace Insn
variable {α β : Type}

/-- The index leads to what the instruction has in the pool. -/
def Resolves (p : Pool) (operand : UInt16) : Insn α → Prop
  | .ldc c => p.constant operand = .ok c
  | .field _ m => p.field operand = .ok m
  | .method _ m => p.method operand = .ok m
  | .type _ name => p.className operand = .ok name
  | _ => True

/-- The instruction as its container has it: a sparse switch by ascending key. -/
def sortKeys : Insn α → Insn α
  | .lookupSwitch otherwise pairs => .lookupSwitch otherwise (Instruction.sortPairs pairs)
  | i => i

end Insn

namespace Instruction
open Reader

/-- How an instruction stands in its code: the places that it names lie in
the code, and a jump has the distance that its form can hold. -/
structure Placed (pc : Nat) (wide : Bool) (place : Label → Nat) (i : Node) : Prop where
  start : pc ≤ 65535
  places : ∀ l ∈ i.targets, place l ≤ 65535
  long : ∀ op l, i = .jump op l → wide = true → op = .GOTO
  near : ∀ op l, i = .jump op l → wide = false → fitsI16 ((place l : Int) - pc)

variable {pool : Pool} {pc : Nat} {operand : UInt16} {wide : Bool} {place : Label → Nat}

/-! ## Parts -/

theorem reads_canonical (op : Opcode) {bs : List UInt8} {i : Insn Int}
    (h : Reads (readOperands pool pc op) bs i) : Reads (read pool pc) (op.toByte :: bs) i := by
  obtain ⟨h₁, h₂, h₃, h₄⟩ := Opcode.short_toByte op
  refine reads_bind (reads_u8 op.toByte) ?_
  rw [if_neg h₁, if_neg (by simp [h₂, h₃]), if_neg h₄, Opcode.ofShortForm?_toByte,
    Opcode.ofByte?_toByte]
  exact h

theorem fitsI16_iff {n : Int} : fitsI16 n = true ↔ -32768 ≤ n ∧ n ≤ 32767 := by
  simp [fitsI16]

/-- A distance leads back to its place. -/
theorem reads_readPlace {p : Nat} (hpc : pc ≤ 65535) (hp : p ≤ 65535) :
    Reads (readPlace pc) (distance 4 pc p) p := by
  refine reads_map (reads_i32 _) ?_
  rw [Int32.toInt_ofInt_of_le (by omega) (by omega)]
  have : (pc : Int) + ((p : Int) - pc) = p := by omega
  rw [this]
  exact reads_pure _

/-! ## Instructions -/

theorem reads_immediate {op : Opcode} {v : Int32} (hk : op.kind = .int)
    (he : encodable (.int op v)) :
    Reads (read pool pc) (op.toByte :: signedBytes (if op = .SIPUSH then 2 else 1) v.toInt)
      (.int op v) := by
  refine reads_canonical _ ?_
  unfold readOperands
  rw [hk]
  refine reads_map ?_ (reads_pure _)
  unfold readImmediate
  split
  · have hv : -128 ≤ v.toInt ∧ v.toInt ≤ 127 := by simpa [encodable, fitsI8] using he
    have h : (Int8.ofInt v.toInt).toInt32 = v := by
      rw [← Int32.toInt_inj, Int8.toInt_toInt32, Int8.toInt_ofInt_of_le (by omega) (by omega)]
    have := reads_map (f := fun a : Int8 => pure a.toInt32) (reads_i8 v.toInt) (reads_pure _)
    rwa [h] at this
  · have hv : -32768 ≤ v.toInt ∧ v.toInt ≤ 32767 := by simpa [encodable, fitsI16] using he
    have h : (Int16.ofInt v.toInt).toInt32 = v := by
      rw [← Int32.toInt_inj, Int16.toInt_toInt32, Int16.toInt_ofInt_of_le (by omega) (by omega)]
    have := reads_map (f := fun a : Int16 => pure a.toInt32) (reads_i16 v.toInt) (reads_pure _)
    rwa [h] at this
  · rename_i hb hs
    have hv : 0 ≤ v.toInt ∧ v.toInt ≤ 255 := by
      unfold encodable at he
      split at he <;> simp_all [fitsU8]
    have hbytes : signedBytes 1 v.toInt = [UInt8.ofNat v.toInt.toNat] := by
      have : (v.toInt % 256 ^ 1).toNat = v.toInt.toNat := by omega
      rw [signedBytes_eq, this]
      rfl
    have h : Int32.ofNat (UInt8.ofNat v.toInt.toNat).toNat = v := by
      rw [UInt8.toNat_ofNat_of_lt' (by change _ < 256; omega), ← Int32.ofInt_eq_ofNat,
        Int.toNat_of_nonneg hv.1, Int32.ofInt_toInt]
    rw [if_neg hs, hbytes]
    have := reads_map (f := fun a : UInt8 => pure (Int32.ofNat a.toNat))
      (reads_u8 (UInt8.ofNat v.toInt.toNat)) (reads_pure _)
    rwa [h] at this

/-- A number that fits one byte. -/
theorem toUInt16_toUInt8 {n : UInt16} (h : n.toNat < 256) : n.toUInt8.toUInt16 = n := by
  rw [← UInt16.toNat_inj, UInt8.toNat_toUInt16, UInt16.toNat_toUInt8]
  exact Nat.mod_eq_of_lt h

theorem reads_ldc {c : Constant} (h : pool.constant operand = .ok c) :
    Reads (read pool pc) (bytes pc operand wide (.ldc c)) (.ldc c) := by
  have hc : Reads (do return Insn.ldc (← pool.constant operand)) [] (Insn.ldc c : Insn Int) :=
    reads_after (reads_lift h) (reads_pure _)
  unfold bytes
  dsimp only
  split
  · exact reads_head Opcode.doubleLdc
      (reads_map (reads_u16 operand) hc)
  split
  · rename_i hsmall
    refine reads_canonical .LDC (reads_map (reads_u8 operand.toUInt8) ?_)
    rw [toUInt16_toUInt8 hsmall]
    exact hc
  · exact reads_head Opcode.wideLdc
      (reads_map (reads_u16 operand) hc)

theorem reads_var {op : Opcode} {n : UInt16} (hk : op.kind = .var) :
    Reads (read pool pc) (bytes pc operand wide (.var op (.slot n))) (.var op (.slot n)) := by
  unfold bytes
  dsimp only
  split
  · rename_i b hb
    obtain ⟨⟨h₁, h₂, h₃, h₄⟩, hform⟩ := Opcode.ofShortForm?_of_shortForm? hb
    refine reads_map (reads_u8 b) ?_
    rw [if_neg h₁, if_neg (by simp [h₂, h₃]), if_neg h₄, hform]
    dsimp only
    rw [UInt16.ofNat_toNat]
    exact reads_pure _
  split
  · rename_i hn
    refine reads_canonical _ ?_
    unfold readOperands
    rw [hk]
    refine reads_map (reads_u8 n.toUInt8) ?_
    rw [toUInt16_toUInt8 hn]
    exact reads_pure _
  · refine reads_bind (reads_u8 Opcode.wide) ?_
    refine reads_head op.toByte ?_
    rw [Opcode.ofByte?_toByte]
    dsimp only
    rw [hk]
    exact reads_map (reads_u16 n) (reads_pure _)

theorem reads_iinc {n : UInt16} {delta : Int16} :
    Reads (read pool pc) (bytes pc operand wide (.iinc (.slot n) delta))
      (.iinc (.slot n) delta) := by
  unfold bytes
  dsimp only
  split
  · rename_i h
    obtain ⟨hn, hd⟩ := h
    have hd : -128 ≤ delta.toInt ∧ delta.toInt ≤ 127 := by simpa [fitsI8] using hd
    refine reads_canonical .IINC ?_
    refine reads_head n.toUInt8 (reads_map (reads_i8 _) ?_)
    have h : (Int8.ofInt delta.toInt).toInt16 = delta := by
      rw [← Int16.toInt_inj, Int8.toInt_toInt16, Int8.toInt_ofInt_of_le (by omega) (by omega)]
    rw [toUInt16_toUInt8 hn, h]
    exact reads_pure _
  · refine reads_head Opcode.wide ?_
    refine reads_head Opcode.IINC.toByte ?_
    rw [Opcode.ofByte?_toByte]
    refine reads_bind (reads_u16 n) (reads_map (reads_i16 _) ?_)
    rw [Int16.ofInt_toInt]
    exact reads_pure _

theorem reads_jump {op : Opcode} {l : Label} (hk : op.kind = .jump)
    (h : Placed pc wide place (.jump op l)) :
    Reads (read pool pc) (bytes pc operand wide (.jump op (place l : Int)))
      (.jump op (place l : Int)) := by
  have hl : place l ≤ 65535 := h.places l (List.mem_singleton_self l)
  have hpc := h.start
  cases wide with
  | true =>
    cases h.long op l rfl rfl
    exact reads_head Opcode.wideGoto
      (reads_map (reads_readPlace hpc hl) (reads_pure _))
  | false =>
    have hn := fitsI16_iff.1 (h.near op l rfl rfl)
    refine reads_canonical _ ?_
    unfold readOperands
    rw [hk]
    refine reads_map (reads_i16 _) ?_
    rw [Int16.toInt_ofInt_of_le (by omega) (by omega)]
    have : (pc : Int) + ((place l : Int) - pc) = place l := by omega
    rw [this]
    exact reads_pure _

theorem reads_method {op : Opcode} {m : MemberRef} (hk : op.kind = .method)
    (h : pool.method operand = .ok m) :
    Reads (read pool pc) (bytes pc operand wide (.method op m)) (.method op m) := by
  refine reads_canonical _ ?_
  unfold readOperands
  rw [hk]
  refine reads_bind (reads_u16 operand) (reads_after (reads_lift h) ?_)
  split
  · exact reads_map (reads_skip rfl) (reads_pure _)
  · exact reads_pure _

theorem forall₂_readPlace {ls : List Label} (hpc : pc ≤ 65535) (hl : ∀ l ∈ ls, place l ≤ 65535) :
    List.Forall₂ (Reads (readPlace pc)) (ls.map fun l => distance 4 pc (place l))
      (ls.map fun l => (place l : Int)) := by
  rw [List.forall₂_map_left_iff, List.forall₂_map_right_iff, List.forall₂_same]
  exact fun l h => reads_readPlace hpc (hl l h)

theorem reads_tableSwitch {low : Int32} {otherwise : Label} {ts : List Label}
    (he : encodable (.tableSwitch low otherwise ts))
    (h : Placed pc wide place (.tableSwitch low otherwise ts)) :
    Reads (read pool pc)
      (bytes pc operand wide
        (.tableSwitch low (place otherwise : Int) (ts.map fun l => (place l : Int))))
      (.tableSwitch low (place otherwise : Int) (ts.map fun l => (place l : Int))) := by
  have hpc := h.start
  have hlow := low.le_toInt
  have he : ts ≠ [] ∧ low.toInt + ts.length - 1 ≤ 2147483647 := by simpa [encodable] using he
  have hpos := List.length_pos_iff.2 he.1
  have hhigh : (Int32.ofInt (low.toInt + ts.length - 1)).toInt = low.toInt + ts.length - 1 :=
    Int32.toInt_ofInt_of_le (by omega) (by omega)
  have hbytes : bytes pc operand wide
        (.tableSwitch low (place otherwise : Int) (ts.map fun l => (place l : Int))) =
      Opcode.TABLESWITCH.toByte :: (List.replicate (switchPadding pc) 0 ++
        (distance 4 pc (place otherwise) ++ (signedBytes 4 low.toInt ++
          (signedBytes 4 (low.toInt + ts.length - 1) ++
            (ts.map fun l => distance 4 pc (place l)).flatten)))) := by
    simp only [bytes, List.length_map, List.flatMap_def, List.map_map, Function.comp_def,
      List.cons_append, List.append_assoc]
  rw [hbytes]
  refine reads_canonical .TABLESWITCH ?_
  refine reads_bind (reads_skip List.length_replicate) ?_
  refine reads_bind (reads_readPlace hpc (h.places _ (List.mem_cons_self ..))) ?_
  refine reads_bind (reads_i32 _) ?_
  rw [Int32.ofInt_toInt]
  refine reads_bind (reads_i32 _) ?_
  rw [if_neg (by rw [Int32.lt_iff_toInt_lt, hhigh]; omega)]
  dsimp only
  refine reads_map (reads_times ?_
    (forall₂_readPlace hpc fun l hl => h.places l (List.mem_cons_of_mem _ hl))) (reads_pure _)
  rw [hhigh, List.length_map]
  omega

theorem sortPairs_map {α β : Type} (f : α → β) (ps : List (Int32 × α)) :
    sortPairs (ps.map fun p => (p.1, f p.2)) = (sortPairs ps).map fun p => (p.1, f p.2) :=
  (List.map_mergeSort (f := fun p : Int32 × α => (p.1, f p.2)) fun _ _ _ _ => rfl).symm

/-- A count of four bytes that is not taken for a negative number. -/
theorem reads_count {n : Nat} (h : n < 2 ^ 31) : Reads i32 (bytesOf 4 n) (Int32.ofNat n) := by
  have := reads_int (Int32.ofNat n)
  have hn : (Int32.ofNat n).toUInt32.toNat = n :=
    UInt32.toNat_ofNat_of_lt' (Nat.lt_trans h (by decide))
  rwa [hn] at this

theorem reads_lookupSwitch {otherwise : Label} {ps : List (Int32 × Label)}
    (hn : ps.length ≤ 65535) (h : Placed pc wide place (.lookupSwitch otherwise ps)) :
    Reads (read pool pc)
      (bytes pc operand wide
        (.lookupSwitch (place otherwise : Int) (ps.map fun p => (p.1, (place p.2 : Int)))))
      (.lookupSwitch (place otherwise : Int)
        ((sortPairs ps).map fun p => (p.1, (place p.2 : Int)))) := by
  have hpc := h.start
  have hcount : (Int32.ofNat ps.length).toInt = ps.length := Int32.toInt_ofNat_of_lt (by omega)
  have hlen : (sortPairs ps).length = ps.length := List.length_mergeSort _
  have hbytes : bytes pc operand wide
        (.lookupSwitch (place otherwise : Int) (ps.map fun p => (p.1, (place p.2 : Int)))) =
      Opcode.LOOKUPSWITCH.toByte :: (List.replicate (switchPadding pc) 0 ++
        (distance 4 pc (place otherwise) ++ (bytesOf 4 ps.length ++
          ((sortPairs ps).map fun p =>
            signedBytes 4 p.1.toInt ++ distance 4 pc (place p.2)).flatten))) := by
    have hsort := sortPairs_map (fun l => (place l : Int)) ps
    simp only [bytes, List.length_map, hsort, List.flatMap_def, List.map_map, Function.comp_def,
      List.cons_append, List.append_assoc]
  rw [hbytes]
  refine reads_canonical .LOOKUPSWITCH ?_
  refine reads_bind (reads_skip List.length_replicate) ?_
  refine reads_bind (reads_readPlace hpc (h.places _ (List.mem_cons_self ..))) ?_
  refine reads_bind (reads_count (by omega)) ?_
  rw [if_neg (by rw [Int32.lt_iff_toInt_lt, hcount]; exact Int.not_lt.2 (Int.natCast_nonneg _))]
  dsimp only
  refine reads_map (a := (sortPairs ps).map fun p => (p.1, (place p.2 : Int)))
    (reads_times ?_ ?_) (reads_pure _)
  · rw [hcount, List.length_map, hlen]
    rfl
  · rw [List.forall₂_map_left_iff, List.forall₂_map_right_iff, List.forall₂_same]
    intro p hp
    refine reads_bind (reads_i32 _) (reads_map (reads_readPlace hpc (h.places _ ?_)) ?_)
    · exact List.mem_cons_of_mem _ (List.mem_map_of_mem (List.mem_mergeSort.1 hp))
    · rw [Int32.ofInt_toInt]
      exact reads_pure _

/-- Every instruction that can be written reads back, whatever its form. -/
theorem reads_read {i : Node} (hreal : i.isReal) (hp : i.Proper) (hs : i.NoTemp)
    (he : encodable i) (hr : i.Resolves pool operand) (h : Placed pc wide place i)
    (hsize : size pc operand wide i ≤ 65535) :
    Reads (read pool pc) (bytes pc operand wide (i.mapLabels fun l => (place l : Int)))
      (i.sortKeys.mapLabels fun l => (place l : Int)) := by
  cases i with
  | label l => cases hreal
  | line n => cases hreal
  | simple op =>
    refine reads_canonical _ ?_
    unfold readOperands
    rw [hp]
    exact reads_pure _
  | int op v => exact reads_immediate hp he
  | ldc c => exact reads_ldc hr
  | var op x =>
    cases x with
    | slot n => exact reads_var hp
    | temp t => exact absurd rfl (hs t op.slotWidth)
  | iinc x delta =>
    cases x with
    | slot n => exact reads_iinc
    | temp t => exact absurd rfl (hs t 1)
  | jump op l => exact reads_jump hp h
  | field op m =>
    refine reads_canonical _ ?_
    unfold readOperands
    rw [hp.1]
    exact reads_map (reads_u16 operand) (reads_after (reads_lift hr) (reads_pure _))
  | method op m => exact reads_method hp hr
  | type op name =>
    refine reads_canonical _ ?_
    unfold readOperands
    rw [hp]
    exact reads_map (reads_u16 operand) (reads_after (reads_lift hr) (reads_pure _))
  | tableSwitch low otherwise ts => exact reads_tableSwitch he h
  | lookupSwitch otherwise ps =>
    refine reads_lookupSwitch ?_ h
    have : 1 + switchPadding pc + 8 + 8 * ps.length ≤ 65535 := hsize
    omega

/-! ## Sizes -/

theorem size_mapLabels {α β : Type} (f : α → β) (i : Insn α) :
    size pc operand wide (i.mapLabels f) = size pc operand wide i := by
  cases i with
  | var op x => cases x <;> rfl
  | iinc x delta => cases x <;> rfl
  | tableSwitch low otherwise ts => simp [Insn.mapLabels, size]
  | lookupSwitch otherwise ps => simp [Insn.mapLabels, size]
  | _ => rfl

theorem size_sortKeys {α : Type} (i : Insn α) :
    size pc operand wide i.sortKeys = size pc operand wide i := by
  cases i with
  | lookupSwitch otherwise ps => simp [Insn.sortKeys, size, sortPairs, List.length_mergeSort]
  | _ => rfl

theorem length_flatMap {α β : Type} {f : α → List β} {k : Nat} (h : ∀ a, (f a).length = k)
    (as : List α) : (as.flatMap f).length = k * as.length := by
  induction as with
  | nil => rfl
  | cons a as ih =>
    rw [List.flatMap_cons, List.length_append, h, ih, List.length_cons, Nat.mul_succ, Nat.add_comm]

theorem length_distance (size pc : Nat) (place : Int) : (distance size pc place).length = size :=
  length_signedBytes size _

/-- An instruction has as many bytes as its layout counts. -/
theorem length_bytes (pc : Nat) (operand : UInt16) (wide : Bool) {i : Insn Int} (hs : i.NoTemp) :
    (bytes pc operand wide i).length = size pc operand wide i := by
  cases i with
  | label l => rfl
  | line n => rfl
  | simple op => rfl
  | int op v =>
    unfold bytes size
    dsimp only
    rw [List.length_cons, length_signedBytes]
    split <;> rfl
  | ldc c =>
    have hw : c.width = 1 ∨ c.width = 2 := by cases c <;> simp [Constant.width]
    unfold bytes size
    dsimp only
    rcases hw with hw | hw
    · rw [hw, if_neg (by decide)]
      simp only [true_and]
      split <;> rfl
    · rw [hw]
      rfl
  | var op x =>
    cases x with
    | temp t => exact absurd rfl (hs t op.slotWidth)
    | slot n =>
      unfold bytes size
      dsimp only
      cases op.shortForm? n.toNat with
      | some b => rfl
      | none =>
        dsimp only
        split <;> simp_all [length_bytesOf]
  | iinc x delta =>
    cases x with
    | temp t => exact absurd rfl (hs t 1)
    | slot n =>
      unfold bytes size
      dsimp only
      split <;> simp [length_bytesOf, length_signedBytes]
  | jump op t =>
    unfold bytes size
    dsimp only
    split <;> simp [length_distance]
  | field op m => simp [bytes, size, length_bytesOf]
  | type op name => simp [bytes, size, length_bytesOf]
  | method op m =>
    unfold bytes size
    dsimp only
    split <;> simp [length_bytesOf]
  | tableSwitch low otherwise ts =>
    simp only [bytes, size, List.length_append, List.length_cons, List.length_replicate,
      length_signedBytes, length_distance, length_flatMap fun t => length_distance 4 pc t]
    omega
  | lookupSwitch otherwise ps =>
    have hlen : (sortPairs ps).length = ps.length := List.length_mergeSort _
    have hpair : ∀ p : Int32 × Int, (signedBytes 4 p.1.toInt ++ distance 4 pc p.2).length = 8 := by
      intro p
      rw [List.length_append, length_signedBytes, length_distance]
    simp only [bytes, size, List.length_append, List.length_cons, List.length_replicate,
      length_distance, length_bytesOf, hlen, length_flatMap hpair]
    omega

/-- A real instruction takes at least one byte. -/
theorem size_pos (pc : Nat) (operand : UInt16) (wide : Bool) {α : Type} {i : Insn α}
    (h : i.isReal) :
    0 < size pc operand wide i := by
  unfold size
  cases i with
  | label l => cases h
  | line n => cases h
  | var op x => cases x <;> dsimp only <;> (repeat' split) <;> decide
  | iinc x delta => cases x <;> dsimp only <;> (repeat' split) <;> decide
  | tableSwitch low otherwise ts => dsimp only; omega
  | lookupSwitch otherwise ps => dsimp only; omega
  | _ =>
    dsimp only
    repeat' split
    all_goals decide

end Instruction

end ClassPatch
