-- Methods: code with a descriptor, limits and a table of local variables.
import ClassPatch.Code.Binding
import ClassPatch.Code.Locals
import ClassPatch.Code.Splice

namespace ClassPatch

/-- A debug entry: the name and type of a slot between two labels. -/
structure LocalVar where
  name : String
  desc : String
  start : Label
  stop : Label
  slot : UInt16
deriving DecidableEq

/-- The slots of a debug entry; a type that does not parse counts as one. -/
def LocalVar.width (v : LocalVar) : Nat := (Descriptor.fieldWidth? v.desc).getD 1

structure Method where
  access : UInt16
  name : String
  desc : String
  exceptions : List String := []
  maxStack : UInt16 := 0
  maxLocals : UInt16 := 0
  code : Code := {}
  locals : List LocalVar := []
deriving DecidableEq

namespace Method

/-! ## Access and parameters -/

def isStatic (m : Method) : Bool := m.access &&& 0x0008 != 0

/-- A native or abstract method has no body. -/
def isBodiless (m : Method) : Bool := m.access &&& 0x0500 != 0

/-- The slots of the parameters, with the receiver if there is one. -/
def paramSlots (m : Method) : Except Fault Nat :=
  (methodShape m.desc).map fun shape => shape.argSlots + if m.isStatic then 0 else 1

/-- The slots of the parameters, none for a descriptor that does not parse. -/
def knownParams (m : Method) : UInt16 :=
  match m.paramSlots with
  | .ok n => saturate n
  | .error _ => 0

/-- A method without a body; its parameters are its locals. -/
def create (access : UInt16) (name desc : String) : Method :=
  let m : Method := { access, name, desc }
  { m with maxLocals := m.knownParams }

/-- Name and descriptor in one. -/
def signature (m : Method) : String := m.name ++ m.desc

/-- Takes the body away and sets the limits back to the parameters. With
a descriptor that does not parse the body goes too, but the limit of
locals stays. -/
def clearBody (m : Method) : Except Fault Unit × Method :=
  let m := { m with code := .empty, locals := [], maxStack := 0 }
  match m.paramSlots with
  | .ok n => (.ok (), { m with maxLocals := saturate n })
  | .error f => (.error f, m)

/-! ## Splicing -/

/-- Slots for temporaries, and the first slot past them. -/
structure Slots where
  bound : Dict UInt16 UInt16 := []
  next : UInt16

/-- A captured temporary has its slot; any other gets the next free ones. -/
def Slots.give (captured : Dict UInt16 UInt16) (s : Slots) (temp : UInt16 × Nat) : Slots :=
  match captured.get? temp.1 with
  | some slot => { s with bound := s.bound.insert temp.1 slot }
  | none =>
    { bound := s.bound.insert temp.1 s.next, next := advance s.next temp.2 }

/-- Slots for the temporaries of a fragment, free ones past everything
that the method uses. -/
def slotsFor (m : Method) (fragment : Code) : Slots :=
  fragment.temps.foldl (Slots.give fragment.captured)
    { next := max m.maxLocals m.code.frontier }

/-- Replaces `count` nodes from `index` on by the fragment, whose
temporaries become slots. Gives the number of nodes put in. -/
def splice (index count : Nat) (fragment : Code) (m : Method) : Nat × Method :=
  let slots := m.slotsFor fragment
  let fragment := fragment.bindTemps slots.bound
  let (inserted, code) := m.code.splice index count fragment
  (inserted,
    { m with code, maxLocals := max (max m.maxLocals slots.next) fragment.frontier })

def insertAt (index : Nat) (fragment : Code) (m : Method) : Nat × Method :=
  m.splice index 0 fragment

def prepend (fragment : Code) (m : Method) : Nat × Method := m.insertAt 0 fragment

def append (fragment : Code) (m : Method) : Nat × Method := m.insertAt m.code.size fragment

def insertBefore (r : Region) (fragment : Code) (m : Method) : Nat × Method :=
  m.insertAt r.start fragment

def insertAfter (r : Region) (fragment : Code) (m : Method) : Nat × Method :=
  m.insertAt r.stop fragment

def replace (r : Region) (fragment : Code) (m : Method) : Nat × Method :=
  m.splice r.start r.size fragment

/-! ## Limits -/

/-- The locals that parameters, code, debug entries and the present limit ask for. -/
def neededLocals (m : Method) : UInt16 :=
  max (max (max m.knownParams m.code.frontier)
    (greatest (m.locals.map fun v => advance v.slot v.width))) m.maxLocals

end Method

end ClassPatch
