-- Edits: one change to one member of a class.
import ClassPatch.Class
import ClassPatch.Code.Copy
import ClassPatch.Code.Occurrence
import ClassPatch.Identifier
import ClassPatch.Method.Renumber

namespace ClassPatch

/-! ## What can go wrong -/

/-- Why an edit cannot be applied to its target. -/
inductive Refusal where
  | notAMethod
  | bodyWithoutPlace
  | fieldIsMethod
  | invalid (fault : Fault)
  | renumbering (fault : Fault)
deriving DecidableEq

def Refusal.message : Refusal → String
  | notAMethod => "write target is not a method"
  | bodyWithoutPlace => "abstract or native method cannot carry a body"
  | fieldIsMethod => "field target carries a method descriptor"
  | invalid f => f.message
  | renumbering f => "slot renumbering failed: " ++ f.message

inductive PatchError where
  | memberNotFound (target : Identifier)
  | malformedInput (className : String) (fault : Fault)
  | serializationFailure (className : String) (fault : Fault)
  | editFailure (target : Identifier) (reason : Refusal)
deriving DecidableEq

def PatchError.message : PatchError → String
  | memberNotFound target => s!"member not found: {target.text}"
  | malformedInput name fault => s!"malformed input for class {name}: {fault.message}"
  | serializationFailure name fault => s!"failed to serialize class {name}: {fault.message}"
  | editFailure target reason => s!"cannot apply edit to {target.text}: {reason.message}"

/-- A change of a class that may stop on the way. What was changed before
stays changed. -/
abbrev Patching (α : Type) := ExceptT PatchError (StateM Class) α

/-! ## Edits -/

inductive EditKind where
  | write | inject | replace | addField
deriving DecidableEq

/-- The word for a kind in messages. -/
def EditKind.text : EditKind → String
  | write => "write"
  | inject => "inject"
  | replace => "replace"
  | addField => "add-field"

/-- The word for a kind in reports. -/
def EditKind.title : EditKind → String
  | write => "Write"
  | inject => "Inject"
  | replace => "Replace"
  | addField => "AddField"

/-- Targets are named as in the class that is patched. Code in an edit is a
template: every place that it goes to gets a copy. -/
inductive Edit where
  /-- Defines a method, or gives one a new body; the exceptions are those
  of a new method. -/
  | write (access : UInt16) (target : Identifier) (exceptions : List String) (body : Option Code)
  /-- Puts code before or after every occurrence of a needle, or without
  one at the start or the end. -/
  | inject (target : Identifier) (needle : Option Code) (code : Code) (before : Bool)
  /-- Puts code in the place of every occurrence of a needle. -/
  | replace (target : Identifier) (needle code : Code)
  /-- Declares a field. -/
  | addField (access : UInt16) (target : Identifier) (value : Option Constant)

namespace Edit

def kind : Edit → EditKind
  | .write .. => .write
  | .inject .. => .inject
  | .replace .. => .replace
  | .addField .. => .addField

def target : Edit → Identifier
  | .write _ t _ _ | .inject t _ _ _ | .replace t _ _ | .addField _ t _ => t

/-- The edit puts code among code, so the locals of its target have to be
packed first. -/
def splices (e : Edit) : Bool := e.kind == .inject || e.kind == .replace

/-! ## Many places in one method -/

/-- A method while its places are edited one after the other, and by how
many nodes the places after are moved. -/
structure Progress where
  method : Method
  shift : Int := 0

/-- Puts a copy of the code before or after a region. -/
def injectAt (needle code : Code) (before : Bool) (p : Progress) (r : Region) : Progress :=
  let r := r.shifted p.shift
  let fragment := code.copy.mergeLabels (needle.bindingAt r)
  let (inserted, method) :=
    if before then p.method.insertBefore r fragment else p.method.insertAfter r fragment
  { method, shift := p.shift + inserted }

/-- Puts a copy of the code in the place of a region. -/
def replaceAt (needle code : Code) (p : Progress) (r : Region) : Progress :=
  let r := r.shifted p.shift
  let fragment := code.copy.pullLabels (needle.bindingAt r)
  let (inserted, method) := p.method.replace r fragment
  { method, shift := p.shift + inserted - r.size }

/-- Edits the places that the needle has now, from the front. Gives their
number. -/
def atEach (needle : Code) (step : Progress → Region → Progress) (m : Method) : Nat × Method :=
  let regions := m.code.findAll needle
  (regions.length, (regions.foldl step { method := m }).method)

/-- What an inject does to its method. -/
def injectInto (needle : Option Code) (code : Code) (before : Bool) (m : Method) : Nat × Method :=
  match needle with
  | some needle => atEach needle (injectAt needle code before) m
  | none => (1, (if before then m.prepend code.copy else m.append code.copy).2)

def replaceIn (needle code : Code) (m : Method) : Nat × Method :=
  atEach needle (replaceAt needle code) m

/-! ## Applying -/

/-- Changes the target method, which has to be there. -/
def onMethod (target : Identifier) (f : Method → Nat × Method) : Patching Nat := do
  let c ← get
  match c.methodIndex? target.member target.signature with
  | none => throw (.memberNotFound target)
  | some i =>
    match c.methods[i]? with
    | none => throw (.memberNotFound target)
    | some m =>
      let (sites, m) := f m
      set (c.modifyMethod i fun _ => m)
      return sites

/-- The index of the target with no body: an old method loses the one that
it had, a new one goes to the end. -/
def blankMethod (access : UInt16) (target : Identifier) (exceptions : List String) :
    Patching Nat := do
  let c ← get
  match c.methodIndex? target.member target.signature with
  | some i =>
    match c.methods[i]? with
    | none => throw (.memberNotFound target)
    | some m =>
      let (cleared, m) := { m with access }.clearBody
      set (c.modifyMethod i fun _ => m)
      match cleared with
      | .ok () => return i
      | .error f => throw (.editFailure target (.invalid f))
  | none =>
    let m := { Method.create access target.member target.signature with exceptions }
    set { c with methods := c.methods ++ [m] }
    return c.methods.length

def applyWrite (access : UInt16) (target : Identifier) (exceptions : List String)
    (body : Option Code) : Patching Nat := do
  if !target.isMethod then throw (.editFailure target .notAMethod)
  if access &&& 0x0500 != 0 && body.isSome then throw (.editFailure target .bodyWithoutPlace)
  let i ← blankMethod access target exceptions
  match body with
  | some code => modify fun c => c.modifyMethod i fun m => (m.prepend code.copy).2
  | none => pure ()
  return 1

def applyAddField (access : UInt16) (target : Identifier) (value : Option Constant) :
    Patching Nat := do
  if target.isMethod then throw (.editFailure target .fieldIsMethod)
  match fieldWidth target.signature with
  | .error f => throw (.editFailure target (.invalid f))
  | .ok _ =>
    modify fun c =>
      { c with fields := c.fields ++ [⟨access, target.member, target.signature, value⟩] }
    return 1

/-- Applies the edit and gives the number of places that it changed. -/
def apply : Edit → Patching Nat
  | .write access target exceptions body => applyWrite access target exceptions body
  | .inject target needle code before => onMethod target (injectInto needle code before)
  | .replace target needle code => onMethod target (replaceIn needle code)
  | .addField access target value => applyAddField access target value

/-- The outcome and the class after an edit. -/
def run (e : Edit) (c : Class) : Except PatchError Nat × Class := (e.apply.run).run c

end Edit

end ClassPatch
