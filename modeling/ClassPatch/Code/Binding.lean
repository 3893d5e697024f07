-- Where a needle was found, and how other fragments learn of it: a region
-- becomes a binding by the names that needle and fragment share.
import ClassPatch.Code

namespace ClassPatch

/-! ## Regions -/

/-- A stretch `[start, stop)` of nodes, with the host's label for each of
the needle's labels and the host's slot for each of its temporaries. -/
structure Region where
  start : Nat
  stop : Nat
  labels : Dict Label Label := []
  slots : Dict UInt16 UInt16 := []
deriving DecidableEq

namespace Region

def size (r : Region) : Nat := r.stop - r.start

def isEmpty (r : Region) : Bool := r.start == r.stop

/-- The greatest index, that of a word of 64 bits. -/
def lastIndex : Nat := UInt64.size - 1

/-- An index moved by some nodes, no further than to the first or the last one. -/
def moveIndex (index : Nat) (distance : Int) : Nat := min (index + distance).toNat lastIndex

/-- The region after the nodes before it grew or shrank by some. -/
def shifted (r : Region) (distance : Int) : Region :=
  { r with start := moveIndex r.start distance, stop := moveIndex r.stop distance }

end Region

/-! ## Bindings -/

/-- A region in terms of names. -/
structure Binding where
  labels : Dict String Label := []
  slots : Dict UInt16 UInt16 := []
deriving DecidableEq

namespace Code

/-- The names of this needle with what they stand for in a region. -/
def bindingAt (needle : Code) (r : Region) : Binding :=
  { labels := needle.names.filterMap fun e => (r.labels.get? e.2).map (e.1, ·)
    slots := r.slots }

/-- Ties the fragment's label of one name to the host's. -/
def importLabel (pulled : Bool) (c : Code) (e : String × Label) : Code :=
  match c.names.get? e.1 with
  | some own => { c with imports := c.imports.insert own ⟨e.2, pulled⟩ }
  | none => c

def bind (pulled : Bool) (b : Binding) (c : Code) : Code :=
  { b.labels.foldl (importLabel pulled) c with captured := b.slots }

/-- Bound labels stay where the host has them. -/
def mergeLabels (b : Binding) (c : Code) : Code := c.bind false b

/-- Bound labels move to where the fragment marks them. -/
def pullLabels (b : Binding) (c : Code) : Code := c.bind true b

end Code

end ClassPatch
