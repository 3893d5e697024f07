-- What a patch did to a class.
import ClassPatch.Edit

namespace ClassPatch

structure EditOutcome where
  kind : EditKind
  target : Identifier
  /-- The number of places that the edit changed. -/
  sites : Nat

structure Report where
  className : String
  /-- The methods whose locals were packed. -/
  renumbered : List String := []
  edits : List EditOutcome := []

namespace Report

def totalSites (r : Report) : Nat := r.edits.foldl (fun total o => total + o.sites) 0

/-- The edits that found no place. -/
def unmatched (r : Report) : List EditOutcome := r.edits.filter (·.sites == 0)

def outcomeJson (o : EditOutcome) : JsonValue :=
  .record [("kind", .text o.kind.title), ("target", o.target.toJson), ("sites", .natural o.sites)]

def toJson (r : Report) : JsonValue :=
  .record [("class", .text r.className), ("renumbered", .array (r.renumbered.map .text)),
    ("edits", .array (r.edits.map outcomeJson))]

def text (r : Report) : String := r.toJson.pretty ""

end Report

end ClassPatch
