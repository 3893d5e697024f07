-- What can be wrong with a class: why bytes cannot be read as one, and why
-- one cannot be written.
import ClassPatch.Descriptor
import ClassPatch.Text.Quoted
import ClassPatch.Text.Utf8

namespace ClassPatch

/-- What a pool index was expected to lead to. -/
inductive Wanted where
  | utf8 | classRef | nameAndType | fieldRef | methodRef | loadable
deriving DecidableEq, Repr

def Wanted.name : Wanted → String
  | .utf8 => "utf8"
  | .classRef => "class"
  | .nameAndType => "name-and-type"
  | .fieldRef => "field reference"
  | .methodRef => "method reference"
  | .loadable => "loadable constant"

inductive Fault where
  /-- The input ends before the item that starts at the offset is complete. -/
  | endOfInput (offset : Nat)
  | badMagic (got : UInt32)
  | unsupportedVersion (major minor : UInt16)
  | invalidPoolIndex (index : UInt16)
  | wrongPoolEntry (index : UInt16) (wanted : Wanted)
  | unknownPoolTag (tag : UInt8) (offset : Nat)
  | invalidUtf8 (fault : Utf8.Fault)
  | unsupportedOpcode (byte : UInt8) (pc : Nat)
  /-- An instruction or a table entry at `pc` names a place where no instruction starts. -/
  | invalidTarget (pc : Nat) (target : Int)
  | invalidDescriptor (desc : String)
  | trailingBytes (count : Nat)
  | danglingLabel (label : Nat)
  | branchOutOfRange (pc target : Nat)
  | codeTooLarge (signature : String) (size : Nat)
  | poolOverflow
  | stringTooLong (size : Nat)
  | operandOutOfRange (what : String)
  | duplicateMember (name desc : String)
  | unresolvedTemp (temp : UInt16)
  | layoutDiverged (signature : String)
deriving DecidableEq, Repr

namespace Fault

/-- The container starts with these four bytes, "GRFT". -/
def magic : Nat := 0x47524654

def message : Fault → String
  | endOfInput offset => s!"unexpected end of input at offset {offset}"
  | badMagic got =>
    s!"wrong magic: got 0x{Text.hexPadded 8 got.toNat}, expected 0x{Text.hexPadded 8 magic}"
  | unsupportedVersion major minor => s!"unsupported container version {major}.{minor}"
  | invalidPoolIndex index => s!"invalid pool index {index}"
  | wrongPoolEntry index wanted => s!"pool entry {index} is not a {wanted.name}"
  | unknownPoolTag tag offset => s!"unknown pool tag {tag} at offset {offset}"
  | invalidUtf8 fault => s!"invalid utf-8 in pool entry: {fault.message}"
  | unsupportedOpcode byte pc =>
    s!"unsupported opcode 0x{Text.hexPadded 2 byte.toNat} at pc {pc}"
  | invalidTarget pc target => s!"invalid branch target {target} from pc {pc}"
  | invalidDescriptor desc => s!"invalid descriptor '{desc}'"
  | trailingBytes count => s!"{count} trailing bytes after class body"
  | danglingLabel label => s!"label {label} is referenced but not placed"
  | branchOutOfRange pc target => s!"branch from pc {pc} to pc {target} is out of range"
  | codeTooLarge signature size => s!"method {signature} code is too large ({size} bytes)"
  | poolOverflow => "constant pool overflow"
  | stringTooLong size => s!"string of {size} bytes does not fit into the constant pool"
  | operandOutOfRange what => s!"operand out of range: {what}"
  | duplicateMember name desc => s!"duplicate member {name} {desc}"
  | unresolvedTemp temp => s!"temporary local {temp} was never assigned a slot"
  | layoutDiverged signature => s!"instruction layout for {signature} did not converge"

/-- The fault lies in the bytes of a container, not in a class to be written. -/
def inContainer : Fault → Bool
  | endOfInput _ | badMagic _ | unsupportedVersion .. | invalidPoolIndex _ | wrongPoolEntry ..
  | unknownPoolTag .. | invalidUtf8 _ | unsupportedOpcode .. | invalidTarget ..
  | invalidDescriptor _ | trailingBytes _ => true
  | _ => false

end Fault

/-- What comes in two parts succeeds exactly if both of them do. -/
theorem bind_eq_ok {ε α β : Type} {x : Except ε α} {f : α → Except ε β} {b : β} :
    x.bind f = .ok b ↔ ∃ a, x = .ok a ∧ f a = .ok b := by
  cases x with
  | error e => exact ⟨nofun, fun ⟨_, h, _⟩ => nomatch h⟩
  | ok a => exact ⟨fun h => ⟨a, rfl, h⟩, by rintro ⟨_, ⟨⟩, h⟩; exact h⟩

/-! ## Descriptors that have to be valid -/

def fieldWidth (desc : String) : Except Fault Nat :=
  match Descriptor.fieldWidth? desc with
  | some w => .ok w
  | none => .error (.invalidDescriptor desc)

def methodShape (desc : String) : Except Fault Descriptor.Shape :=
  match Descriptor.methodShape? desc with
  | some shape => .ok shape
  | none => .error (.invalidDescriptor desc)

theorem fieldWidth_eq_ok {desc : String} {w : Nat} :
    fieldWidth desc = .ok w ↔ Descriptor.fieldWidth? desc = some w := by
  unfold fieldWidth
  cases Descriptor.fieldWidth? desc <;> simp

theorem methodShape_eq_ok {desc : String} {shape : Descriptor.Shape} :
    methodShape desc = .ok shape ↔ Descriptor.methodShape? desc = some shape := by
  unfold methodShape
  cases Descriptor.methodShape? desc <;> simp

theorem fieldWidth_ok {desc : String} :
    (∃ w, fieldWidth desc = .ok w) ↔ (Descriptor.fieldWidth? desc).isSome := by
  simp only [fieldWidth_eq_ok, Option.isSome_iff_exists]

theorem methodShape_ok {desc : String} :
    (∃ shape, methodShape desc = .ok shape) ↔ (Descriptor.methodShape? desc).isSome := by
  simp only [methodShape_eq_ok, Option.isSome_iff_exists]

end ClassPatch
