-- Putting a fragment into code. Labels of the fragment become labels of
-- the host, each site its own; markers that leave with removed nodes are
-- kept, because something may still name their place. Removed nodes stay in
-- the store, so the handles of all others stay what they are.
import ClassPatch.Code

namespace ClassPatch.Code

/-! ## Labels of the fragment in the host -/

/-- The host with labels for those of the fragment. -/
structure Adoption where
  host : Code
  /-- The host's label for a label of the fragment. -/
  image : Std.HashMap Label Label := ∅

/-- A bound label has its host label already; any other gets a new one. -/
def Adoption.add (imports : Dict Label Import) (a : Adoption) (l : Label) : Adoption :=
  match imports.get? l with
  | some i => { a with image := a.image.insert l i.host }
  | none =>
    let (own, host) := a.host.newLabel
    { host, image := a.image.insert l own }

/-- All labels of the fragment adopted, in ascending order. -/
def adopt (host fragment : Code) : Adoption :=
  fragment.issued.foldl (Adoption.add fragment.imports) { host }

def Adoption.map (a : Adoption) (l : Label) : Label := a.image.getD l l

/-! ## Markers at one place -/

/-- Groups of markers with nothing but line numbers between them. -/
structure Runs where
  done : List (List Label) := []
  open_ : List Label := []

def Runs.close (r : Runs) : Runs := { done := r.open_.reverse :: r.done, open_ := [] }

def Runs.add (r : Runs) : Node → Runs
  | .label l => { r with open_ := l :: r.open_ }
  | .line _ => r
  | _ => r.close

/-- The groups of markers, in order. -/
def markerRuns (nodes : List Node) : List (List Label) :=
  (nodes.foldl Runs.add {}).close.done.reverse

/-- For each marker that shares its place its whole group; a marker that
stands in several groups has the last one. -/
def runTable (nodes : List Node) : Std.HashMap Label (List Label) :=
  ((markerRuns nodes).filter (·.length > 1)).foldl
    (fun m run => run.foldl (fun m l => m.insert l run) m) ∅

/-! ## The segment -/

/-- What the fragment turns into: the host's store with the fragment's
instructions, the handles to put in place, the latest first, and the
labels marked among them. -/
structure Segment where
  store : Array Node
  handles : List Handle := []
  marked : Std.HashSet Label := ∅

/-- Puts a label's marker in place unless its handle stands outside or the
label was marked before. -/
def Segment.mark (outside : Std.HashSet Handle) (s : Segment) (l : Label) : Segment :=
  if outside.contains l || s.marked.contains l then s
  else { s with handles := l :: s.handles, marked := s.marked.insert l }

/-- Makes a node and puts it in place. -/
def Segment.push (s : Segment) (node : Node) : Segment :=
  let h := s.store.size
  { s with store := s.store.push node, handles := h :: s.handles }

/-- What a node of the fragment adds. The marker of a merged label adds
nothing; any other marker brings along the markers that stood with its
label in the removed nodes. -/
def Segment.add (map : Label → Label) (imports : Dict Label Import)
    (outside : Std.HashSet Handle) (runs : Std.HashMap Label (List Label))
    (s : Segment) (node : Node) : Segment :=
  match node.marker? with
  | none => s.push (node.mapLabels map)
  | some own =>
    let l := map own
    let pulled := ((imports.get? own).map Import.pulled).getD true
    if !pulled || outside.contains l || s.marked.contains l then s
    else (l :: runs.getD l []).foldl (Segment.mark outside) s

/-- Removed markers that the segment does not have. -/
def Segment.hoisted (s : Segment) (removed : List Handle) : List Handle :=
  removed.filter fun h =>
    match s.store[h]?.bind Insn.marker? with
    | some l => !s.marked.contains l
    | none => false

/-! ## Splicing -/

/-- Replaces `count` nodes from `index` on by the fragment. The removed
markers that it does not place come first, then the fragment. Its handlers
go before the host's. Gives the number of nodes put in. -/
def splice (host : Code) (index count : Nat) (fragment : Code) : Nat × Code :=
  let order := host.order.toList
  let before := order.take index
  let removed := (order.drop index).take count
  let after := order.drop (index + count)
  let adoption := adopt host fragment
  let segment := fragment.toList.foldl
    (Segment.add adoption.map fragment.imports (Std.HashSet.ofList (before ++ after))
      (runTable (nodesOf host.store removed)))
    { store := adoption.host.store }
  let inserted := segment.hoisted removed ++ segment.handles.reverse
  ( inserted.length,
    { host with
      store := segment.store
      order := (before ++ inserted ++ after).toArray
      handlers := fragment.handlers.map (Handler.mapLabels adoption.map) ++ host.handlers } )

end ClassPatch.Code
