-- Writing a class. The pool is built as the parts ask for entries, so the
-- bytes are a function of the class alone.
import ClassPatch.Class
import ClassPatch.Code.Depth
import ClassPatch.Container.Decode
import ClassPatch.Container.Layout
import ClassPatch.Container.PoolBuilder

namespace ClassPatch

/-- A count has two bytes. -/
def countBytes (n : Nat) (what : String) : Except Fault (List UInt8) :=
  if n ≤ 65535 then .ok (bytesOf 2 n) else .error (.operandOutOfRange s!"{n} {what}")

/-- An index or another number of two bytes. -/
def wordBytes (n : UInt16) : List UInt8 := bytesOf 2 n.toNat

namespace Field

def encode (f : Field) : Builder (List UInt8) := do
  let name ← PoolBuilder.utf8 f.name
  let desc ← PoolBuilder.utf8 f.desc
  let head := wordBytes f.access ++ wordBytes name ++ wordBytes desc
  match f.value with
  | some v => return head ++ 1 :: wordBytes (← PoolBuilder.constant v)
  | none => return head ++ [0]

end Field

namespace Method

/-! ## What a body has to have -/

def requireMarker (index : Std.HashMap Label Nat) (l : Label) : Except Fault Unit :=
  if index.contains l then .ok () else .error (.danglingLabel l)

/-- No temporary is left at a node, and what it branches to is marked. -/
def checkNode (index : Std.HashMap Label Nat) (i : Node) : Except Fault Unit :=
  match i.access? with
  | some (.temp t, _) => .error (.unresolvedTemp t)
  | _ => i.targets.forM (requireMarker index)

def checkLabels (index : Std.HashMap Label Nat) (m : Method) : Except Fault Unit := do
  m.code.toList.forM (checkNode index)
  m.code.handlers.toList.forM fun h => h.labels.forM (requireMarker index)
  m.locals.forM fun v => [v.start, v.stop].forM (requireMarker index)

/-! ## The code -/

/-- The pool index of a node's operand. -/
def operandOf : Node → Builder UInt16
  | .ldc c => PoolBuilder.constant c
  | .field _ m => PoolBuilder.field m
  | .method _ m => PoolBuilder.method m
  | .type _ name => PoolBuilder.className name
  | _ => return 0

def itemOf (node : Node) : Builder Item := do return ⟨node, ← operandOf node⟩

/-- The bytes of all instructions where the layout has them. -/
def codeBytes (l : Layout) (index : Std.HashMap Label Nat) (items : List Item) : List UInt8 :=
  items.zipIdx.flatMap fun e =>
    Instruction.bytes (l.pcAt e.2) e.1.operand (l.wide.contains e.2)
      (e.1.node.mapLabels fun label => (l.placeOf index label : Int))

/-! ## The tables -/

/-- A protected range that holds something. An empty one is left out. -/
def handlerBytes (place : Label → Nat) (h : Handler) : Builder (List (List UInt8)) := do
  if place h.stop ≤ place h.start then return []
  else
    let caught ← PoolBuilder.className? h.caught
    return [bytesOf 2 (place h.start) ++ bytesOf 2 (place h.stop) ++ bytesOf 2 (place h.target)
      ++ wordBytes caught]

/-- A debug entry that does not end before it starts. -/
def localBytes (place : Label → Nat) (v : LocalVar) : Builder (List (List UInt8)) := do
  if place v.stop < place v.start then return []
  else
    let name ← PoolBuilder.utf8 v.name
    let desc ← PoolBuilder.utf8 v.desc
    return [bytesOf 2 (place v.start) ++ bytesOf 2 (place v.stop - place v.start)
      ++ wordBytes name ++ wordBytes desc ++ wordBytes v.slot]

/-- The line numbers with their positions; those at the end of the code are left out. -/
def lineBytes (l : Layout) (nodes : List Node) : List (List UInt8) :=
  nodes.zipIdx.filterMap fun e =>
    match e.1 with
    | .line n => if l.pcAt e.2 < l.size then some (bytesOf 2 (l.pcAt e.2) ++ wordBytes n) else none
    | _ => none

/-- A table: a count and its entries. -/
def tableBytes (what : String) (entries : List (List UInt8)) : Except Fault (List UInt8) := do
  return (← countBytes entries.length what) ++ entries.flatten

/-! ## Bodies and methods -/

def encodeBody (m : Method) : Builder (List UInt8) := do
  let nodes := m.code.toList
  let index := markerIndex nodes
  m.checkLabels index
  let items ← nodes.mapM itemOf
  let l ← Layout.layOut m.signature index items
  nodes.forM fun i => (Instruction.check i : Except Fault Unit)
  let place := l.placeOf index
  let handlers ← m.code.handlers.toList.mapM (handlerBytes place)
  let handlers ← tableBytes "handlers" handlers.flatten
  let locals ← m.locals.mapM (localBytes place)
  let locals ← tableBytes "local variables" locals.flatten
  let lines ← tableBytes "line numbers" (lineBytes l nodes)
  return wordBytes m.code.maxStack ++ wordBytes m.neededLocals ++ bytesOf 4 l.size
    ++ codeBytes l index items ++ handlers ++ locals ++ lines

/-- A method whose code has no nodes is written without a body. -/
def encode (m : Method) : Builder (List UInt8) := do
  let name ← PoolBuilder.utf8 m.name
  let desc ← PoolBuilder.utf8 m.desc
  let count ← countBytes m.exceptions.length "exceptions"
  let exceptions ← m.exceptions.mapM PoolBuilder.className
  let head := wordBytes m.access ++ wordBytes name ++ wordBytes desc ++ count
    ++ exceptions.flatMap wordBytes
  if m.code.isEmpty then return head ++ [0] else return head ++ 1 :: (← m.encodeBody)

end Method

namespace Class

/-- Refuses the first member that another one before it equals in name and descriptor. -/
def checkUnique (members : List (String × String)) : Except Fault Unit := do
  let _ ← members.foldlM (fun (seen : Std.HashSet (String × String)) m =>
    if seen.contains m then (throw (.duplicateMember m.1 m.2) : Except Fault _)
    else return seen.insert m) ∅

/-- Everything after the pool. -/
def encodeBody (c : Class) : Builder (List UInt8) := do
  let name ← PoolBuilder.className c.name
  let superName ← PoolBuilder.className? c.superName
  let interfaceCount ← countBytes c.interfaces.length "interfaces"
  let interfaces ← c.interfaces.mapM PoolBuilder.className
  let fieldCount ← countBytes c.fields.length "fields"
  let fields ← c.fields.mapM Field.encode
  let methodCount ← countBytes c.methods.length "methods"
  let methods ← c.methods.mapM Method.encode
  return wordBytes c.access ++ wordBytes name ++ wordBytes superName
    ++ interfaceCount ++ interfaces.flatMap wordBytes
    ++ fieldCount ++ fields.flatten
    ++ methodCount ++ methods.flatten

/-- The bytes of a container with the class. -/
def encode (c : Class) : Except Fault (List UInt8) := do
  checkUnique (c.fields.map fun f => (f.name, f.desc))
  checkUnique (c.methods.map fun m => (m.name, m.desc))
  let (body, pool) ← c.encodeBody.run {}
  return bytesOf 4 Fault.magic ++ wordBytes c.major ++ wordBytes c.minor ++ pool.bytes ++ body

/-- Reads and writes again: the canonical bytes of the same class. -/
def normalize (bytes : List UInt8) : Except Fault (List UInt8) := do
  (← decode bytes).encode

end Class

end ClassPatch
