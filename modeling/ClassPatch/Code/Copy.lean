-- A copy under handles of its own.
import ClassPatch.Code

namespace ClassPatch.Code

/-- Every label that the code mentions: at its nodes, then in its
handlers, then under its names. -/
def mentioned (c : Code) : List Label :=
  c.toList.flatMap Insn.labels ++ c.handlers.toList.flatMap Handler.labels ++ c.names.map (·.2)

/-- Gives a label the next number, once. -/
def number (m : Std.HashMap Label Label) (l : Label) : Std.HashMap Label Label :=
  if m.contains l then m else m.insert l m.size

/-- The mentioned labels numbered by first mention. -/
def numbering (c : Code) : Std.HashMap Label Label := c.mentioned.foldl number ∅

/-- The same code with nothing stored but its nodes in place and the labels
that it mentions, and with no binding. -/
def copy (c : Code) : Code :=
  let m := c.numbering
  let f := fun l => m.getD l l
  { (withLabels m.size).pushAll (c.toList.map (Insn.mapLabels f)) with
    handlers := c.handlers.map (Handler.mapLabels f)
    names := c.names.map fun e => (e.1, f e.2) }

end ClassPatch.Code
