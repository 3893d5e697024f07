-- Instructions as bytes. Places are positions in the code, counted from
-- its first byte; in the bytes they are distances from the instruction
-- that names them.
import ClassPatch.Container.Pool

namespace ClassPatch

/-! ## Forms -/

/-- The zero bytes that bring the numbers of a switch at `pc` to a
multiple of four. -/
def switchPadding (pc : Nat) : Nat := (4 - (pc + 1) % 4) % 4

namespace Instruction

def fitsI8 (n : Int) : Bool := -128 ≤ n && n ≤ 127
def fitsI16 (n : Int) : Bool := -32768 ≤ n && n ≤ 32767
def fitsU8 (n : Int) : Bool := 0 ≤ n && n ≤ 255

/-! ## Reading -/

section Reading
open Reader

/-- A distance from `pc`. -/
def readPlace (pc : Nat) : Reader Int := do return (pc : Int) + (← i32).toInt

/-- An instruction whose local has two bytes. -/
def readWide (pc : Nat) : Reader (Insn Int) := do
  let inner ← u8
  match Opcode.ofByte? inner with
  | none => throw (.unsupportedOpcode inner pc)
  | some op =>
    match op.kind with
    | .iinc =>
      let slot ← u16
      return .iinc (.slot slot) (← i16)
    | .var => return .var op (.slot (← u16))
    | _ => throw (.unsupportedOpcode inner pc)

def readImmediate (op : Opcode) : Reader Int32 := do
  match op with
  | .BIPUSH => return (← i8).toInt32
  | .SIPUSH => return (← i16).toInt32
  | _ => return Int32.ofNat (← u8).toNat

def readMethod (pool : Pool) (op : Opcode) : Reader (Insn Int) := do
  let m ← pool.method (← u16)
  -- An interface call repeats its argument slots and has a zero byte.
  if op = .INVOKEINTERFACE then skip 2
  return .method op m

def readTableSwitch (pc : Nat) : Reader (Insn Int) := do
  skip (switchPadding pc)
  let otherwise ← readPlace pc
  let low ← i32
  let high ← i32
  if high < low then throw (.invalidTarget pc high.toInt)
  let targets ← times (high.toInt - low.toInt + 1).toNat (readPlace pc)
  return .tableSwitch low otherwise targets

def readPair (pc : Nat) : Reader (Int32 × Int) := do
  let key ← i32
  return (key, ← readPlace pc)

def readLookupSwitch (pc : Nat) : Reader (Insn Int) := do
  skip (switchPadding pc)
  let otherwise ← readPlace pc
  let count ← i32
  if count < 0 then throw (.invalidTarget pc count.toInt)
  let pairs ← times count.toInt.toNat (readPair pc)
  return .lookupSwitch otherwise pairs

/-- The operands of a canonical opcode. -/
def readOperands (pool : Pool) (pc : Nat) (op : Opcode) : Reader (Insn Int) := do
  match op.kind with
  | .bare => return .simple op
  | .int => return .int op (← readImmediate op)
  | .ldc => return .ldc (← pool.constant (← u8).toUInt16)
  | .var => return .var op (.slot (← u8).toUInt16)
  | .iinc =>
    let slot ← u8
    return .iinc (.slot slot.toUInt16) (← i8).toInt16
  | .jump => return .jump op ((pc : Int) + (← i16).toInt)
  | .field => return .field op (← pool.field (← u16))
  | .method => readMethod pool op
  | .type => return .type op (← pool.className (← u16))
  | .tableSwitch => readTableSwitch pc
  | .lookupSwitch => readLookupSwitch pc

/-- The instruction at `pc`. Short and wide forms become the canonical
instruction. -/
def read (pool : Pool) (pc : Nat) : Reader (Insn Int) := do
  let byte ← u8
  if byte = Opcode.wide then readWide pc
  else if byte = Opcode.wideLdc || byte = Opcode.doubleLdc then
    return .ldc (← pool.constant (← u16))
  else if byte = Opcode.wideGoto then return .jump .GOTO (← readPlace pc)
  else
    match Opcode.ofShortForm? byte with
    | some (op, slot) => return .var op (.slot (UInt16.ofNat slot))
    | none =>
      match Opcode.ofByte? byte with
      | some op => readOperands pool pc op
      | none => throw (.unsupportedOpcode byte pc)

end Reading

/-! ## Sizes -/

/-- How many bytes an instruction at `pc` takes. `operand` is its pool
index; `wide` says that a jump has a four-byte distance. -/
def size {α : Type} (pc : Nat) (operand : UInt16) (wide : Bool) : Insn α → Nat
  | .label _ | .line _ => 0
  | .simple _ => 1
  | .int op _ => if op = .SIPUSH then 3 else 2
  | .ldc c => if c.width = 1 ∧ operand.toNat < 256 then 2 else 3
  | .var op (.slot n) =>
    if (op.shortForm? n.toNat).isSome then 1 else if n.toNat < 256 then 2 else 4
  | .var _ (.temp _) => 4
  | .iinc (.slot n) delta => if n.toNat < 256 ∧ fitsI8 delta.toInt then 3 else 6
  | .iinc (.temp _) _ => 6
  | .jump .. => if wide then 5 else 3
  | .method op _ => if op = .INVOKEINTERFACE then 5 else 3
  | .field .. | .type .. => 3
  | .tableSwitch _ _ ts => 1 + switchPadding pc + 12 + 4 * ts.length
  | .lookupSwitch _ ps => 1 + switchPadding pc + 8 + 8 * ps.length

/-! ## Writing -/

/-- The slots that an interface call takes, with its receiver. -/
def callSlots (m : MemberRef) : Nat := ((Descriptor.methodShape? m.desc).getD ⟨0, 0⟩).argSlots + 1

/-- The distance from `pc` to a place, in some bytes. -/
def distance (bytes pc : Nat) (place : Int) : List UInt8 := signedBytes bytes (place - pc)

/-- The pairs of a sparse switch are written by ascending key. -/
def sortPairs {α : Type} (pairs : List (Int32 × α)) : List (Int32 × α) :=
  pairs.mergeSort fun a b => a.1 ≤ b.1

/-- The bytes of an instruction at `pc`. -/
def bytes (pc : Nat) (operand : UInt16) (wide : Bool) : Insn Int → List UInt8
  | .label _ | .line _ => []
  | .simple op => [op.toByte]
  | .int op v => op.toByte :: signedBytes (if op = .SIPUSH then 2 else 1) v.toInt
  | .ldc c =>
    if c.width = 2 then Opcode.doubleLdc :: bytesOf 2 operand.toNat
    else if operand.toNat < 256 then [Opcode.LDC.toByte, operand.toUInt8]
    else Opcode.wideLdc :: bytesOf 2 operand.toNat
  | .var op (.slot n) =>
    match op.shortForm? n.toNat with
    | some b => [b]
    | none =>
      if n.toNat < 256 then [op.toByte, n.toUInt8]
      else Opcode.wide :: op.toByte :: bytesOf 2 n.toNat
  | .iinc (.slot n) delta =>
    if n.toNat < 256 ∧ fitsI8 delta.toInt then
      [Opcode.IINC.toByte, n.toUInt8] ++ signedBytes 1 delta.toInt
    else
      [Opcode.wide, Opcode.IINC.toByte] ++ bytesOf 2 n.toNat ++ signedBytes 2 delta.toInt
  | .var _ (.temp _) | .iinc (.temp _) _ => []
  | .jump op place =>
    if wide then Opcode.wideGoto :: distance 4 pc place else op.toByte :: distance 2 pc place
  | .field op _ | .type op _ => op.toByte :: bytesOf 2 operand.toNat
  | .method op m =>
    op.toByte :: bytesOf 2 operand.toNat ++
      if op = .INVOKEINTERFACE then [UInt8.ofNat (callSlots m), 0] else []
  | .tableSwitch low otherwise ts =>
    Opcode.TABLESWITCH.toByte :: List.replicate (switchPadding pc) 0
      ++ distance 4 pc otherwise
      ++ signedBytes 4 low.toInt
      ++ signedBytes 4 (low.toInt + ts.length - 1)
      ++ ts.flatMap (distance 4 pc)
  | .lookupSwitch otherwise ps =>
    Opcode.LOOKUPSWITCH.toByte :: List.replicate (switchPadding pc) 0
      ++ distance 4 pc otherwise
      ++ bytesOf 4 ps.length
      ++ (sortPairs ps).flatMap fun p => signedBytes 4 p.1.toInt ++ distance 4 pc p.2

/-! ## Operands that do not fit -/

/-- A member as it is shown in a fault. -/
def memberDetail (m : MemberRef) : String :=
  "MemberRef \x7b owner: " ++ Text.quoted m.owner ++ ", name: " ++ Text.quoted m.name ++
    ", desc: " ++ Text.quoted m.desc ++ s!", interface: {m.interface} \x7d"

/-- An instruction as it is shown in a fault, with the handles of its labels. -/
def detail : Node → String
  | .int op v => s!"Int({op.mnemonic}, {v})"
  | .method op m => s!"Method({op.mnemonic}, {memberDetail m})"
  | .tableSwitch low otherwise ts =>
    let targets := ", ".intercalate (ts.map fun l => s!"Label({l})")
    s!"TableSwitch \x7b low: {low}, default: Label({otherwise}), targets: [{targets}] \x7d"
  | i => (i.opcode?.map Opcode.mnemonic).getD ""

/-- Whether the operands of a node have an encoding. -/
def encodable : Node → Bool
  | .int .BIPUSH v => fitsI8 v.toInt
  | .int .SIPUSH v => fitsI16 v.toInt
  | .int _ v => fitsU8 v.toInt
  | .method .INVOKEINTERFACE m => callSlots m ≤ 255
  | .tableSwitch low _ ts => !ts.isEmpty && low.toInt + ts.length - 1 ≤ 2147483647
  | _ => true

/-- An interface call has to have a valid descriptor, and every operand
has to fit. -/
def check (i : Node) : Except Fault Unit := do
  match i with
  | .method .INVOKEINTERFACE m => let _ ← methodShape m.desc
  | _ => pure ()
  if encodable i then return () else throw (.operandOutOfRange (detail i))

end Instruction

end ClassPatch
