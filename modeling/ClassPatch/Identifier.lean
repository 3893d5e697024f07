-- The name of a member of a class, as edits use it.
import ClassPatch.Descriptor
import ClassPatch.Json.Reader
import ClassPatch.Text.Blank

namespace ClassPatch

/-- A member by owner, name and descriptor. Owners are written with
slashes; a class by itself has no name and no descriptor. -/
structure Identifier where
  owner : String
  member : String
  signature : String
deriving DecidableEq

namespace Identifier

def isMethod (i : Identifier) : Bool := Descriptor.isMethod i.signature

/-- The class of a name with dots, as loaders call it. -/
def dotted (owner : String) : String := Text.replaceAll ['/'] '.' owner

def dottedOwner (i : Identifier) : String := dotted i.owner

def text (i : Identifier) : String :=
  if i.member.isEmpty then i.owner
  else if i.isMethod then s!"{i.owner}.{i.member}{i.signature}"
  else s!"{i.owner}.{i.member}:{i.signature}"

/-- Identifiers are ordered by owner, then by name, then by descriptor. -/
def le (a b : Identifier) : Bool :=
  if a.owner = b.owner then
    if a.member = b.member then a.signature ≤ b.signature else a.member ≤ b.member
  else a.owner ≤ b.owner

/-! ## JSON -/

def fieldNames : List String := ["owner", "member", "signature"]

def toJson (i : Identifier) : JsonValue :=
  .record [("owner", .text i.owner), ("member", .text i.member), ("signature", .text i.signature)]

def ofJson? (v : JsonValue) : Option Identifier := do
  match ← v.fields? fieldNames with
  | [some owner, some member, some signature] =>
    return ⟨← owner.asString?, ← member.asString?, ← signature.asString?⟩
  | _ => none

def parse? (json : String) : Option Identifier := JsonReader.parse json >>= ofJson?

end Identifier

end ClassPatch
