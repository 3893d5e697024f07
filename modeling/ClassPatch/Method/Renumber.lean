-- New slots for the locals of a method. Parameters stay; every other pair
-- of slot and width gets a slot of its own, packed in the order of first
-- use, so code that is put in later cannot share a slot by accident.
import ClassPatch.Method

namespace ClassPatch.Method

/-- A slot as it is used: with the width of the use. -/
abbrev Use := UInt16 × Nat

/-- Every use of a slot, in the code and then in the debug entries. -/
def uses (m : Method) : List Use :=
  Code.slotAccesses m.code.toList ++ m.locals.map fun v => (v.slot, v.width)

/-- The new slot of each use met so far, and the next free slot. -/
structure Packing where
  slots : Std.HashMap Use UInt16 := ∅
  next : UInt16

/-- The area of the parameters reaches to the end of every use that starts in it. -/
def paramArea (params : UInt16) (us : List Use) : UInt16 :=
  us.foldl (fun reach u => if u.1 < params then max reach (advance u.1 u.2) else reach) params

/-- A use outside the parameters gets the next slots when it is new. -/
def Packing.add (params : UInt16) (p : Packing) (u : Use) : Packing :=
  if u.1 < params || p.slots.contains u then p
  else { slots := p.slots.insert u p.next, next := advance p.next u.2 }

def packing (params : UInt16) (us : List Use) : Packing :=
  us.foldl (Packing.add params) { next := paramArea params us }

/-- The new slot of a use; one that has none stays. -/
def Packing.slot (p : Packing) (u : Use) : UInt16 := p.slots.getD u u.1

/-- A node with its slot moved. -/
def Packing.move (p : Packing) (i : Node) : Node :=
  let width := (i.access?.map (·.2)).getD 1
  i.mapLocal fun x =>
    match x with
    | .slot n => .slot (p.slot (n, width))
    | .temp t => .temp t

/-- Renumbers the locals and sets the limit to the slots in use. -/
def renumber (m : Method) : Except Fault Method := do
  let params := saturate (← m.paramSlots)
  let p := packing params m.uses
  return { m with
    code := m.code.mapNodes p.move
    locals := m.locals.map fun v => { v with slot := p.slot (v.slot, v.width) }
    maxLocals := p.next }

end ClassPatch.Method
