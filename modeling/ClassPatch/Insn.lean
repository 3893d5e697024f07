-- Instructions and what they mention: labels, locals, constants, members.
import ClassPatch.Decimal.Positional
import ClassPatch.Fault
import ClassPatch.Opcode

namespace ClassPatch

/-! ## Operands -/

/-- The handle of a place in one list of code. -/
abbrev Label := Nat

/-- A local variable: a slot of the method, or a temporary that a fragment
brings and that gets its slot when the fragment is spliced in. -/
inductive Local where
  | slot (n : UInt16)
  | temp (n : UInt16)
deriving DecidableEq, Repr

def Local.text : Local → String
  | .slot n => toString n
  | .temp n => "$" ++ toString n

/-- A loadable constant. Floating point is kept as bits, so equal means
the same bits. -/
inductive Constant where
  | int (value : Int32)
  | float (bits : UInt32)
  | long (value : Int64)
  | double (bits : UInt64)
  | string (value : String)
  | classRef (name : String)
deriving DecidableEq, Hashable

namespace Constant

/-- The slots that the constant takes on the stack. -/
def width : Constant → Nat
  | .long _ | .double _ => 2
  | _ => 1

def text : Constant → String
  | .int v => toString v
  | .float bits => Decimal.single.text bits.toNat ++ "F"
  | .long v => toString v ++ "L"
  | .double bits => Decimal.double.text bits.toNat ++ "D"
  | .string v => Text.quoted v
  | .classRef name => name ++ ".class"

end Constant

/-- A field or method of some class, by name. -/
structure MemberRef where
  owner : String
  name : String
  desc : String
  /-- The method is declared by an interface. -/
  interface : Bool := false
deriving DecidableEq

def MemberRef.text (m : MemberRef) : String := s!"{m.owner}.{m.name} {m.desc}"

/-! ## Instructions -/

/-- One node of code: a label's marker, a line number, or a real
instruction, by the shape of its operands. Branches name places, by
labels in code that is edited and by positions in code that is read or
written. -/
inductive Insn (place : Type) where
  | label (l : place)
  | line (n : UInt16)
  | simple (op : Opcode)
  | int (op : Opcode) (value : Int32)
  | ldc (value : Constant)
  | var (op : Opcode) (operand : Local)
  | iinc (operand : Local) (delta : Int16)
  | jump (op : Opcode) (target : place)
  | field (op : Opcode) (member : MemberRef)
  | method (op : Opcode) (member : MemberRef)
  | type (op : Opcode) (name : String)
  | tableSwitch (low : Int32) (otherwise : place) (targets : List place)
  | lookupSwitch (otherwise : place) (pairs : List (Int32 × place))
deriving DecidableEq

/-- A node of code that is edited. -/
abbrev Node := Insn Label

namespace Insn

variable {α β : Type}

/-- A node that stands for no bytes. -/
def isPseudo : Insn α → Bool
  | .label _ | .line _ => true
  | _ => false

def isReal (i : Insn α) : Bool := !i.isPseudo

def opcode? : Insn α → Option Opcode
  | .label _ | .line _ => none
  | .simple op | .int op _ | .var op _ | .jump op _ | .field op _ | .method op _ | .type op _ =>
    some op
  | .ldc _ => some .LDC
  | .iinc .. => some .IINC
  | .tableSwitch .. => some .TABLESWITCH
  | .lookupSwitch .. => some .LOOKUPSWITCH

/-- The label whose marker this is. -/
def marker? : Insn α → Option α
  | .label l => some l
  | _ => none

/-- The places that the instruction branches to, a switch's default first. -/
def targets : Insn α → List α
  | .jump _ l => [l]
  | .tableSwitch _ otherwise ts => otherwise :: ts
  | .lookupSwitch otherwise pairs => otherwise :: pairs.map (·.2)
  | _ => []

/-- The places that the node mentions, as a marker or as targets. -/
def labels : Insn α → List α
  | .label l => [l]
  | i => i.targets

/-- The node with its places named in another way. -/
def mapLabels (f : α → β) : Insn α → Insn β
  | .label l => .label (f l)
  | .line n => .line n
  | .simple op => .simple op
  | .int op v => .int op v
  | .ldc c => .ldc c
  | .var op x => .var op x
  | .iinc x delta => .iinc x delta
  | .jump op l => .jump op (f l)
  | .field op m => .field op m
  | .method op m => .method op m
  | .type op c => .type op c
  | .tableSwitch low otherwise ts => .tableSwitch low (f otherwise) (ts.map f)
  | .lookupSwitch otherwise pairs =>
    .lookupSwitch (f otherwise) (pairs.map fun p => (p.1, f p.2))

/-- The local that the node accesses, with the slots it spans. -/
def access? : Insn α → Option (Local × Nat)
  | .var op x => some (x, op.slotWidth)
  | .iinc x _ => some (x, 1)
  | _ => none

def mapLocal (f : Local → Local) : Insn α → Insn α
  | .var op x => .var op (f x)
  | .iinc x delta => .iinc (f x) delta
  | i => i

/-- The change of stack depth. A descriptor that does not parse counts as
one slot of a field and as no slots of a call. -/
def stackDelta : Insn α → Int
  | .label _ | .line _ | .iinc .. => 0
  | .ldc c => c.width
  | .field op m =>
    let w : Int := (Descriptor.fieldWidth? m.desc).getD 1
    match op with
    | .GETSTATIC => w
    | .PUTSTATIC => -w
    | .GETFIELD => w - 1
    | _ => -w - 1
  | .method op m =>
    let shape := (Descriptor.methodShape? m.desc).getD ⟨0, 0⟩
    let receiver : Int := if op = .INVOKESTATIC then 0 else 1
    shape.returnSlots - shape.argSlots - receiver
  | .simple op | .int op _ | .var op _ | .jump op _ | .type op _ => op.fixedDelta
  | .tableSwitch .. | .lookupSwitch .. => -1

/-- The node after this one is never reached from it. -/
def endsFlow (i : Insn α) : Bool := (i.opcode?.map Opcode.endsFlow).getD false

end Insn

end ClassPatch
