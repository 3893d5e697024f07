-- All edits of one class, in the order in which they were added.
import ClassPatch.Report

namespace ClassPatch

structure Patch where
  /-- The name of the class, with dots. -/
  className : String
  edits : List Edit := []

namespace Patch

def add (p : Patch) (e : Edit) : Patch := { p with edits := p.edits ++ [e] }

/-- A method by name and descriptor. -/
abbrev Key := String × String

/-- Puts a key in its place unless it is there: by name, then by descriptor. -/
def insertKey (k : Key) : List Key → List Key
  | [] => [k]
  | k' :: ks =>
    if k = k' then k' :: ks
    else if k.1 < k'.1 ∨ k.1 = k'.1 ∧ k.2 < k'.2 then k :: k' :: ks
    else k' :: insertKey k ks

/-- The methods that get code put in, each once, in order. -/
def spliced (p : Patch) : List Key :=
  (p.edits.filter Edit.splices).foldl
    (fun ks e => insertKey (e.target.member, e.target.signature) ks) []

/-- Packs the locals of a method. One that is absent or has no code is
left to the edit that needs it. -/
def pack (p : Patch) (k : Key) : Patching (List String) := do
  let c ← get
  match c.methodIndex? k.1 k.2 with
  | none => return []
  | some i =>
    match c.methods[i]? with
    | none => return []
    | some m =>
      if m.code.isEmpty then return []
      else
        match m.renumber with
        | .ok m =>
          set (c.modifyMethod i fun _ => m)
          return [k.1 ++ k.2]
        | .error f =>
          let owner := Text.replaceAll ['.'] '/' p.className
          throw (.editFailure ⟨owner, k.1, k.2⟩ (.renumbering f))

def applyEdit (e : Edit) : Patching EditOutcome := do
  return ⟨e.kind, e.target, ← e.apply⟩

/-- Packs the locals where code will go, then applies all edits. -/
def apply (p : Patch) : Patching Report := do
  let renumbered ← p.spliced.mapM p.pack
  let edits ← p.edits.mapM applyEdit
  return ⟨p.className, renumbered.flatten, edits⟩

/-- The outcome and the class after the patch. -/
def run (p : Patch) (c : Class) : Except PatchError Report × Class := (p.apply.run).run c

end Patch

end ClassPatch
