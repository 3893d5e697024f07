-- Patches by class, and the one entry point that a loader calls. What a
-- call dumps is part of its outcome and is delivered afterwards, so where
-- dumps go, and whether they get there, cannot change the result.
import ClassPatch.Config
import ClassPatch.Container.Encode
import ClassPatch.Dump
import ClassPatch.Listing
import ClassPatch.Patch

namespace ClassPatch

structure Registry where
  /-- By class name, with dots. -/
  patches : Dict String Patch := []
  config : Config := {}

/-- What a class became, and what was done to it. -/
structure Patched where
  bytes : List UInt8
  report : Report

/-- The result of a call with the dump that it makes. -/
structure Outcome (α : Type) where
  result : Except PatchError α
  dump : Option Dump := none

/-- The result, once the dump of the class has gone to a sink. A sink that
fails to keep it is not heard. -/
def Outcome.deliver {σ α : Type} (sink : DumpSink σ) (className : String) (o : Outcome α) :
    StateM σ (Except PatchError α) := do
  match o.dump with
  | some d => let _ ← sink className d
  | none => pure ()
  return o.result

namespace Registry

/-! ## Building -/

/-- Adds an edit to the patch of its target's class. -/
def register (r : Registry) (e : Edit) : Registry :=
  let name := e.target.dottedOwner
  let patch := (r.patches.get? name).getD { className := name }
  { r with patches := r.patches.insert name (patch.add e) }

/-- The patch of a class, whose name has dots or slashes. -/
def patch? (r : Registry) (className : String) : Option Patch :=
  r.patches.get? (Identifier.dotted className)

/-- The classes that have a patch, in order. -/
def classes (r : Registry) : List String := r.patches.map (·.1)

/-- Where dumps go if nothing else is said: to files, unless they are off. -/
def fileSink (r : Registry) : DumpSink DumpFiles :=
  if r.config.dump = .off then DumpSink.discard else DumpFiles.write

/-! ## Transforming -/

/-- A failure is dumped unless dumps are off. -/
def failed {α : Type} (r : Registry) (e : PatchError) (d : Dump) : Outcome α :=
  { result := .error e, dump := if r.config.dump = .off then none else some d }

/-- What a success dumps: nothing unless everything is dumped. -/
def successDump (r : Registry) (c : Class) (bytes : List UInt8) : Option Dump :=
  if r.config.dump = .always then
    some (if r.config.raw then .bytes bytes else .text c.text)
  else none

/-- Reads, patches and writes a class. Bytes that are no class are dumped
as they came, a class that stops on the way as far as it got. -/
def applyPatch (r : Registry) (p : Patch) (className : String) (bytes : List UInt8) :
    Outcome Patched :=
  match Class.decode bytes with
  | .error f => r.failed (.malformedInput className f) (.bytes bytes)
  | .ok c =>
    match p.run c with
    | (.error e, c) => r.failed e (.text c.text)
    | (.ok report, c) =>
      match c.encode with
      | .error f => r.failed (.serializationFailure className f) (.text c.text)
      | .ok out => { result := .ok ⟨out, report⟩, dump := r.successDump c out }

/-- Nothing for a class that has no patch. -/
def transformWithReport (r : Registry) (className : String) (bytes : List UInt8) :
    Outcome (Option Patched) :=
  match r.patch? className with
  | none => { result := .ok none }
  | some p =>
    let o := r.applyPatch p className bytes
    { result := o.result.map some, dump := o.dump }

/-- No bytes stay none, and a class that has no patch stays as it is. -/
def transform (r : Registry) (className : String) (bytes : Option (List UInt8)) :
    Outcome (Option (List UInt8)) :=
  match bytes with
  | none => { result := .ok none }
  | some bytes =>
    let o := r.transformWithReport className bytes
    { result := o.result.map fun p => some ((p.map (·.bytes)).getD bytes), dump := o.dump }

/-! ## Detail -/

/-- The registry in one line: its classes and its configuration. -/
def detail (r : Registry) : String :=
  let names := ", ".intercalate (r.classes.map Text.quoted)
  "PatchRegistry \x7b classes: [" ++ names ++ "], config: " ++ r.config.detail ++ ", .. \x7d"

end Registry

end ClassPatch
