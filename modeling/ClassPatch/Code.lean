-- Code as an editable list. Every node that a list makes is stored for good
-- under a handle, and the order says which handles are in place. A label is
-- the handle of its marker, so a branch, a protected range and a debug range
-- name a place and not an index, and an edit elsewhere leaves them alone.
import ClassPatch.Dict
import ClassPatch.Insn
import Std.Data.HashMap
import Std.Data.HashSet

namespace ClassPatch

/-! ## Types -/

/-- A protected range `[start, stop)` and where control goes when
something is thrown in it; `caught` is empty for a range that catches all. -/
structure Handler where
  start : Label
  stop : Label
  target : Label
  caught : Option String
deriving DecidableEq

def Handler.labels (h : Handler) : List Label := [h.start, h.stop, h.target]

def Handler.mapLabels (f : Label → Label) (h : Handler) : Handler :=
  { h with start := f h.start, stop := f h.stop, target := f h.target }

/-- A label of the code that a fragment goes into, standing for a label of
the fragment. -/
structure Import where
  host : Label
  /-- The host's marker moves to where the fragment has its own. -/
  pulled : Bool
deriving DecidableEq

/-- The number of a node among all that its list ever made. -/
abbrev Handle := Nat

/-- A list of nodes with what belongs to it. -/
structure Code where
  /-- Every node that was made, by its handle. A label has its marker here
  from the start, under the label itself, whether it is in place or not. -/
  store : Array Node := #[]
  /-- The handles of the nodes in place. -/
  order : Array Handle := #[]
  handlers : Array Handler := #[]
  /-- The labels that have a name. -/
  names : Dict String Label := []
  /-- The labels bound to labels of another list, for the next splice. -/
  imports : Dict Label Import := []
  /-- The slots bound to temporaries, for the next splice. -/
  captured : Dict UInt16 UInt16 := []
deriving DecidableEq

/-! ## Views of nodes -/

/-- The labels that are marked, in order. -/
def markers (nodes : List Node) : List Label := nodes.filterMap Insn.marker?

/-- The nodes that stand for bytes. -/
def realNodes (nodes : List Node) : List Node := nodes.filter Insn.isReal

/-- The index of each label's marker, of the last one if there are several. -/
def markerIndex (nodes : List Node) : Std.HashMap Label Nat :=
  (nodes.foldl (fun (m, i) node =>
    match node.marker? with
    | some l => (m.insert l i, i + 1)
    | none => (m, i + 1)) ((∅ : Std.HashMap Label Nat), 0)).1

/-- The nodes that some handles stand for. -/
def nodesOf (store : Array Node) (handles : List Handle) : List Node :=
  handles.filterMap (store[·]?)

theorem nodesOf_append (store : Array Node) (a b : List Handle) :
    nodesOf store (a ++ b) = nodesOf store a ++ nodesOf store b := List.filterMap_append

theorem nodesOf_singleton {store : Array Node} {k : Handle} {i : Node} (h : store[k]? = some i) :
    nodesOf store [k] = [i] := by
  simp [nodesOf, h]

/-- What is stored keeps its handle. -/
theorem nodesOf_push {store : Array Node} {handles : List Handle} (i : Node)
    (h : ∀ k ∈ handles, k < store.size) : nodesOf (store.push i) handles = nodesOf store handles := by
  induction handles with
  | nil => rfl
  | cons k ks ih =>
    have hk : k < store.size := h k (List.mem_cons_self ..)
    have hks := ih fun k' h' => h k' (List.mem_cons_of_mem k h')
    simp only [nodesOf, List.filterMap_cons, Array.getElem?_push_lt hk] at hks ⊢
    simp only [hks, Array.getElem?_eq_getElem hk]

namespace Code

def empty : Code := {}

/-- The nodes in place. -/
def toList (c : Code) : List Node := nodesOf c.store c.order.toList

def size (c : Code) : Nat := c.order.size

def isEmpty (c : Code) : Bool := c.order.isEmpty

def get? (c : Code) (index : Nat) : Option Node := c.order[index]?.bind (c.store[·]?)

/-- Every label of the list, in place or not, in ascending order. -/
def issued (c : Code) : List Label := markers c.store.toList

/-- The same nodes and handlers in place; how they are stored, names and
bindings do not count. -/
def agrees (a b : Code) : Bool := a.toList == b.toList && a.handlers == b.handlers

/-- Changes the nodes in place, each as often as it stands there. -/
def mapNodes (f : Node → Node) (c : Code) : Code :=
  { c with store := c.order.foldl (fun store h => store.modify h f) c.store }

/-! ## Building -/

/-- Makes the marker of a new label, which is not in place yet. -/
def newLabel (c : Code) : Label × Code :=
  let l := c.store.size
  (l, { c with store := c.store.push (.label l) })

/-- Code without nodes that has so many labels, counted from 0. -/
def withLabels (count : Nat) : Code := { store := (Array.range count).map Insn.label }

/-- The label of a name, issued when the name is new. -/
def labelNamed (name : String) (c : Code) : Label × Code :=
  match c.names.get? name with
  | some l => (l, c)
  | none =>
    let (l, c) := c.newLabel
    (l, { c with names := c.names.insert name l })

/-- Adds a node at the end. A marker is stored already, any other node is
made new. -/
def push (i : Node) (c : Code) : Code :=
  match i with
  | .label l => { c with order := c.order.push l }
  | _ =>
    let h := c.store.size
    { c with store := c.store.push i, order := c.order.push h }

/-- A node at the end of the list is the last one in place. -/
theorem toList_push {c : Code} {i : Node} (h : ∀ k ∈ c.order.toList, k < c.store.size)
    (hi : ∀ l, i = .label l → c.store[l]? = some i) : (c.push i).toList = c.toList ++ [i] := by
  cases i with
  | label l => simp [push, toList, nodesOf_append, nodesOf_singleton (hi l rfl)]
  | _ => simp [push, toList, nodesOf_append, nodesOf_push _ h,
      nodesOf_singleton Array.getElem?_push_size]

def pushAll (nodes : List Node) (c : Code) : Code := nodes.foldl (fun c i => c.push i) c

/-- Marks the named label at the end. -/
def mark (name : String) (c : Code) : Code :=
  let (l, c) := c.labelNamed name
  c.push (.label l)

def addHandler (h : Handler) (c : Code) : Code := { c with handlers := c.handlers.push h }

/-- The shortest instruction that loads a number. -/
def loadInt (value : Int32) : Node :=
  let v := value.toInt
  if v = -1 then .simple .ICONST_M1
  else if v = 0 then .simple .ICONST_0
  else if v = 1 then .simple .ICONST_1
  else if v = 2 then .simple .ICONST_2
  else if v = 3 then .simple .ICONST_3
  else if v = 4 then .simple .ICONST_4
  else if v = 5 then .simple .ICONST_5
  else if -128 ≤ v ∧ v ≤ 127 then .int .BIPUSH value
  else if -32768 ≤ v ∧ v ≤ 32767 then .int .SIPUSH value
  else .ldc (.int value)

end Code

end ClassPatch
