-- Names that differ between builds: a table from the names that edits are
-- written in to those of the classes that are patched.
import ClassPatch.Dict
import ClassPatch.Identifier
import Std.Data.HashMap

namespace ClassPatch

/-- The new name of one member. -/
structure MemberMapping where
  owner : String
  name : String
  signature : String
  mapped : String
deriving DecidableEq

/-- A member in the names before any renaming: its owner, its own name and its descriptor. -/
abbrev MemberKey := String × String × String

def MemberMapping.key (m : MemberMapping) : MemberKey := (m.owner, m.name, m.signature)

/-- The members in the order in which they were declared, with an index into them. -/
structure MappingTable where
  classes : Dict String String := []
  members : List MemberMapping := []
  /-- Where the last entry about a member stands. -/
  index : Std.HashMap MemberKey Nat := ∅

namespace MappingTable

/-! ## Declaring -/

def empty : MappingTable := {}

/-- The place of each key among the members, the last one if there are several. -/
def places (members : List MemberMapping) : Std.HashMap MemberKey Nat :=
  members.zipIdx.foldl (fun index e => index.insert e.1.key e.2) ∅

def reindex (t : MappingTable) : MappingTable := { t with index := places t.members }

def withClass (t : MappingTable) (symbolic runtime : String) : MappingTable :=
  { t with classes := t.classes.insert symbolic runtime }

def withMember (t : MappingTable) (m : MemberMapping) : MappingTable :=
  reindex { t with members := t.members ++ [m] }

/-- The table that lists these classes and members, of a class named twice the last name. -/
def ofLists (classes : List (String × String)) (members : List MemberMapping) : MappingTable :=
  reindex { classes := Dict.ofList classes, members }

/-! ## Resolving -/

/-- The key under which the index has a member. -/
def keyOf (i : Identifier) : MemberKey := (i.owner, i.member, i.signature)

/-- The entry to which the index leads for a member. -/
def entryFor? (t : MappingTable) (i : Identifier) : Option MemberMapping :=
  t.index[keyOf i]?.bind (t.members[·]?)

/-- The class that a name stands for, itself if the table has none. -/
def className (t : MappingTable) (name : String) : String := (t.classes.get? name).getD name

/-- The member in the names of the build. Class names inside its
descriptor are renamed as well. -/
def resolve (t : MappingTable) (i : Identifier) : Identifier :=
  { owner := t.className i.owner
    member := ((t.entryFor? i).map (·.mapped)).getD i.member
    signature := Descriptor.mapClasses t.classes.get? i.signature }

/-! ## JSON -/

def memberOfJson? (v : JsonValue) : Option MemberMapping := do
  match ← v.fields? ["owner", "name", "signature", "mapped"] with
  | [some owner, some name, some signature, some mapped] =>
    return ⟨← owner.asString?, ← name.asString?, ← signature.asString?, ← mapped.asString?⟩
  | _ => none

/-- The classes and members that a document lists. A part that is missing is empty. -/
def listed? (v : JsonValue) : Option (List (String × String) × List MemberMapping) := do
  match ← v.fields? ["classes", "members"] with
  | [classes, members] =>
    let classes ← match classes with
      | some c => c.asStrings?
      | none => some []
    let members ← match members with
      | some m => m.asArray? >>= fun items => items.mapM memberOfJson?
      | none => some []
    return (classes, members)
  | _ => none

def ofJson? (v : JsonValue) : Option MappingTable := (listed? v).map fun l => ofLists l.1 l.2

def parse? (json : String) : Option MappingTable := JsonReader.parse json >>= ofJson?

end MappingTable

end ClassPatch
