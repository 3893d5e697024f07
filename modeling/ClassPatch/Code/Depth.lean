-- How deep the stack gets. Depths spread from the first node and from the
-- handlers along every way that control can take; the first depth that
-- reaches a node stays.
import ClassPatch.Code
import ClassPatch.Code.Locals

namespace ClassPatch.Code

/-! ## Ways of control -/

/-- The nodes that may follow a node: those it branches to, then the next one. -/
def successors (index : Std.HashMap Label Nat) (size i : Nat) (node : Node) : List Nat :=
  node.targets.filterMap (index[·]?) ++
    if !node.endsFlow && i + 1 < size then [i + 1] else []

/-! ## Spreading -/

/-- The depth at each node that was reached, the nodes in the order in
which they were, how many of them had their turn, and the greatest depth
seen. -/
structure Spread where
  depth : Std.HashMap Nat Int := ∅
  reached : Array Nat := #[]
  turns : Nat := 0
  deepest : Int := 0

/-- Reaches a node with a depth, unless it was reached before. -/
def Spread.reach (depth : Int) (s : Spread) (i : Nat) : Spread :=
  if s.depth.contains i then s
  else { s with depth := s.depth.insert i depth, reached := s.reached.push i }

/-- The stack never gets less than empty. -/
def depthAfter (before : Int) (node : Node) : Int := max 0 (before + node.stackDelta)

/-- The turn of node `i`: its depth goes on to its successors. -/
def Spread.visit (index : Std.HashMap Label Nat) (size : Nat) (s : Spread) (i : Nat)
    (node : Node) : Spread :=
  let before := s.depth.getD i 0
  let after := depthAfter before node
  (successors index size i node).foldl (Spread.reach after)
    { s with turns := s.turns + 1, deepest := max s.deepest (max before after) }

/-- The first node starts with an empty stack, a handler with what was thrown. -/
def Spread.start (index : Std.HashMap Label Nat) (handlers : List Handler) : Spread :=
  (handlers.filterMap fun h => index[h.target]?).foldl (Spread.reach 1)
    (({} : Spread).reach 0 0)

/-- Gives each reached node its turn. Every node has at most one, so as
many rounds as there are nodes are enough. -/
def Spread.run (nodes : Array Node) (index : Std.HashMap Label Nat) : Nat → Spread → Spread
  | 0, s => s
  | rounds + 1, s =>
    match s.reached[s.turns]? with
    | none => s
    | some i =>
      match nodes[i]? with
      | none => s
      | some node => Spread.run nodes index rounds (s.visit index nodes.size i node)

/-- Spreading is a matter of what the turn of each node does. -/
theorem Spread.run_map {g : Node → Node} {nodes : Array Node} {index index' : Std.HashMap Label Nat}
    (h : ∀ node ∈ nodes, ∀ s i, Spread.visit index' nodes.size s i (g node) =
      Spread.visit index nodes.size s i node) (rounds : Nat) (s : Spread) :
    Spread.run (nodes.map g) index' rounds s = Spread.run nodes index rounds s := by
  induction rounds generalizing s with
  | zero => rfl
  | succ rounds ih =>
    unfold Spread.run
    cases s.reached[s.turns]? with
    | none => rfl
    | some i =>
      simp only [Array.getElem?_map, Array.size_map]
      cases hi : nodes[i]? with
      | none => rfl
      | some node =>
        simp only [Option.map_some, h node (Array.mem_of_getElem? hi)]
        exact ih _

/-- The greatest depth of the stack. -/
def maxStack (c : Code) : UInt16 :=
  if c.isEmpty then 0
  else
    let nodes := c.toList
    let index := markerIndex nodes
    let s := Spread.run nodes.toArray index nodes.length (Spread.start index c.handlers.toList)
    saturate s.deepest.toNat

end ClassPatch.Code
