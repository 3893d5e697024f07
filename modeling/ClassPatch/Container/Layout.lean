-- Where the instructions of a body come to stand. A jump whose distance
-- needs four bytes is made wide, which may push others apart, until all
-- jumps fit.
import ClassPatch.Container.Instruction
import ClassPatch.Code

namespace ClassPatch

/-- A node with its pool index, 0 for a node that has none. -/
structure Item where
  node : Node
  operand : UInt16 := 0

/-- The positions of the nodes of a body, and the jumps that are wide, by
index. -/
structure Layout where
  pcs : Array Nat
  /-- The bytes of the code. -/
  size : Nat
  wide : Std.HashSet Nat

namespace Layout

/-! ## One round -/

/-- The positions so far and the next one. -/
structure Placing where
  pcs : Array Nat := #[]
  next : Nat := 0

def Placing.add (wide : Std.HashSet Nat) (p : Placing) (item : Item) : Placing :=
  let size := Instruction.size p.next item.operand (wide.contains p.pcs.size) item.node
  { pcs := p.pcs.push p.next, next := p.next + size }

/-- The positions of all items when some jumps are wide. -/
def place (wide : Std.HashSet Nat) (items : List Item) : Layout :=
  let p := items.foldl (Placing.add wide) {}
  { pcs := p.pcs, size := p.next, wide }

/-- The position of a node, the end of the code for one past the last. -/
def pcAt (l : Layout) (i : Nat) : Nat := l.pcs.getD i l.size

/-- The position that a label marks. -/
def placeOf (l : Layout) (index : Std.HashMap Label Nat) (label : Label) : Nat :=
  match index[label]? with
  | some i => l.pcAt i
  | none => l.size

/-- Whether the jump at node `i` needs four bytes. Only a plain jump can
have them; any other branch that does not fit is a fault. -/
def widens (l : Layout) (index : Std.HashMap Label Nat) (i : Nat) (node : Node) :
    Except Fault Bool :=
  match node with
  | .jump op target =>
    let start := l.pcAt i
    let stop := l.placeOf index target
    if Instruction.fitsI16 ((stop : Int) - start) then .ok false
    else if op = .GOTO then .ok (!l.wide.contains i)
    else .error (.branchOutOfRange start stop)
  | _ => .ok false

/-- The jumps that have to be made wide yet. -/
def growing (l : Layout) (index : Std.HashMap Label Nat) (items : List Item) :
    Except Fault (List Nat) :=
  items.zipIdx.foldlM (fun found e => do
    if ← l.widens index e.2 e.1.node then return e.2 :: found else return found) []

/-! ## Rounds -/

/-- Places the items, makes jumps wide and starts again. Every round but
the last makes at least one more jump wide. -/
def settle (signature : String) (index : Std.HashMap Label Nat) (items : List Item) :
    (rounds : Nat) → (wide : Std.HashSet Nat) → Except Fault Layout
  | 0, _ => .error (.layoutDiverged signature)
  | rounds + 1, wide => do
    let l := place wide items
    if 65535 < l.size then throw (.codeTooLarge signature l.size)
    match ← l.growing index items with
    | [] => return l
    | grown => settle signature index items rounds (wide.insertMany grown)

/-- The layout of the first round that finds no jump to make wide. -/
def layOut (signature : String) (index : Std.HashMap Label Nat) (items : List Item) :
    Except Fault Layout :=
  settle signature index items (items.length + 1) ∅

end Layout

end ClassPatch
