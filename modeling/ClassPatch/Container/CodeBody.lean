-- A method body as a container has it: instructions and tables that name
-- places by position. Resolving it gives every position that is named a
-- label, in ascending order.
import ClassPatch.Container.Instruction
import ClassPatch.Method

namespace ClassPatch

/-! ## Bodies -/

/-- A protected range by positions. -/
structure RangeEntry where
  start : Nat
  stop : Nat
  target : Nat
  caught : Option String

/-- A debug entry by position and length. -/
structure LocalEntry where
  start : Nat
  length : Nat
  name : String
  desc : String
  slot : UInt16

structure CodeBody where
  maxStack : UInt16
  maxLocals : UInt16
  /-- The bytes of the instructions. -/
  size : Nat
  /-- The instructions with their positions, ascending. -/
  insns : List (Nat × Insn Int)
  ranges : List RangeEntry
  locals : List LocalEntry
  /-- Line numbers with the positions that they start at. -/
  lines : List (Nat × UInt16)

namespace CodeBody
open Reader

/-- The longest code that a method may have. -/
def maxSize : Nat := 65535

/-! ## Reading -/

def readRange (pool : Pool) : Reader RangeEntry := do
  let start ← u16
  let stop ← u16
  let target ← u16
  let caught ← pool.className? (← u16)
  return ⟨start.toNat, stop.toNat, target.toNat, caught⟩

def readLocal (pool : Pool) : Reader LocalEntry := do
  let start ← u16
  let length ← u16
  let name ← pool.utf8 (← u16)
  let desc ← pool.utf8 (← u16)
  return ⟨start.toNat, length.toNat, name, desc, ← u16⟩

def readLine : Reader (Nat × UInt16) := do
  let start ← u16
  return (start.toNat, ← u16)

/-- The next instruction with its position; the code starts at offset `base`. -/
def readInsn (pool : Pool) (base : Nat) : Reader (Nat × Insn Int) := do
  let pc := (← offset) - base
  return (pc, ← Instruction.read pool pc)

/-- Instructions one after the other until the code ends. -/
def sweep (pool : Pool) (size : Nat) : Reader (List (Nat × Insn Int)) := do
  let base ← offset
  untilEnd (readInsn pool base) [] size

def read (pool : Pool) (signature : String) : Reader CodeBody := do
  let maxStack ← u16
  let maxLocals ← u16
  let size := (← u32).toNat
  if maxSize < size then throw (.codeTooLarge signature size)
  let insns ← within size (sweep pool size)
  let ranges ← counted (readRange pool)
  let locals ← counted (readLocal pool)
  let lines ← counted readLine
  return { maxStack, maxLocals, size, insns, ranges, locals, lines }

/-! ## Checking positions -/

/-- The positions where an instruction starts. -/
def starts (b : CodeBody) : Std.HashSet Nat := Std.HashSet.ofList (b.insns.map (·.1))

/-- A branch from `pc` leads to an instruction. -/
def checkBranch (starts : Std.HashSet Nat) (pc : Nat) (place : Int) : Except Fault Unit :=
  if 0 ≤ place ∧ starts.contains place.toNat then .ok ()
  else .error (.invalidTarget pc place)

/-- A table entry names an instruction or the end of the code. -/
def checkPlace (starts : Std.HashSet Nat) (size pc place : Nat) : Except Fault Unit :=
  if place = size ∨ starts.contains place then .ok ()
  else .error (.invalidTarget pc place)

/-- All places of the body lead somewhere: first those of instructions,
then of ranges, of debug entries and of lines. -/
def check (b : CodeBody) : Except Fault Unit := do
  let starts := b.starts
  b.insns.forM fun i => i.2.targets.forM (checkBranch starts i.1)
  b.ranges.forM fun r => [r.start, r.stop, r.target].forM fun p => checkPlace starts b.size p p
  b.locals.forM fun v =>
    [v.start, v.start + v.length].forM (checkPlace starts b.size v.start)
  b.lines.forM fun l => checkPlace starts b.size l.1 l.1

/-! ## Labels -/

/-- Every position that gets a label. Lines get none. -/
def named (b : CodeBody) : List Nat :=
  b.insns.flatMap (fun i => i.2.targets.map Int.toNat)
    ++ b.ranges.flatMap (fun r => [r.start, r.stop, r.target])
    ++ b.locals.flatMap (fun v => [v.start, v.start + v.length])

/-- The named positions in ascending order, each once. -/
def places (b : CodeBody) : List Nat :=
  let named := Std.HashSet.ofList b.named
  (b.insns.map (·.1) ++ [b.size]).filter (named.contains ·)

/-- The label of each named position: labels count up with positions. -/
def labelTable (b : CodeBody) : Std.HashMap Nat Label := Std.HashMap.ofList b.places.zipIdx

/-- The line numbers at each position, in their order. -/
def lineTable (b : CodeBody) : Std.HashMap Nat (List UInt16) :=
  b.lines.foldr (fun l m => m.insert l.1 (l.2 :: m.getD l.1 [])) ∅

/-! ## Resolving -/

/-- The marker of a position, if it is named. -/
def markerAt (labels : Std.HashMap Nat Label) (pc : Nat) : List Node :=
  match labels[pc]? with
  | some l => [.label l]
  | none => []

/-- An instruction with what stands before it: a marker, then lines. -/
def nodesAt (labels : Std.HashMap Nat Label) (lines : Std.HashMap Nat (List UInt16))
    (i : Nat × Insn Int) : List Node :=
  markerAt labels i.1 ++ (lines.getD i.1 []).map Insn.line ++
    [i.2.mapLabels fun place => labels.getD place.toNat 0]

/-- The body as code and debug entries. -/
def resolve (b : CodeBody) : Code × List LocalVar :=
  let labels := b.labelTable
  let lines := b.lineTable
  let labelAt := fun pc => labels.getD pc 0
  let nodes := b.insns.flatMap (nodesAt labels lines) ++ markerAt labels b.size
  ( { (Code.withLabels b.places.length).pushAll nodes with
      handlers := (b.ranges.map fun r =>
        ⟨labelAt r.start, labelAt r.stop, labelAt r.target, r.caught⟩).toArray },
    b.locals.map fun v =>
      ⟨v.name, v.desc, labelAt v.start, labelAt (v.start + v.length), v.slot⟩ )

end CodeBody

end ClassPatch
