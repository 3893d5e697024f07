-- JSON values and their two written forms, on one line and indented.
import ClassPatch.Text.Quoted

namespace ClassPatch

/-! ## Values -/

/-- A JSON value. Members keep their order and may repeat a name. A string
is missing where the text names half of a surrogate pair, which is no
character. -/
inductive JsonValue where
  | null
  | bool (b : Bool)
  /-- A number as it is written. -/
  | number (digits : String)
  | string (s : Option String)
  | array (items : List JsonValue)
  | object (members : List (Option String × JsonValue))

namespace JsonValue

def text (s : String) : JsonValue := .string (some s)

def natural (n : Nat) : JsonValue := .number (toString n)

def record (members : List (String × JsonValue)) : JsonValue :=
  .object (members.map fun m => (some m.1, m.2))

/-! ## Writing -/

/-- Quotes, backslashes and controls are escaped, everything else stands
as it is. -/
def escapeChar (c : Char) : String :=
  if c = '"' then "\\\""
  else if c = '\\' then "\\\\"
  else if c = '\n' then "\\n"
  else if c = '\r' then "\\r"
  else if c = '\t' then "\\t"
  else if c.toNat = 8 then "\\b"
  else if c.toNat = 12 then "\\f"
  else if c.toNat < 32 then "\\u" ++ Text.hexPadded 4 c.toNat
  else c.toString

def writeString (s : String) : String :=
  "\"" ++ s.foldl (fun out c => out ++ escapeChar c) "" ++ "\""

theorem sizeOf_member {m : Option String × JsonValue} {members : List (Option String × JsonValue)}
    (h : m ∈ members) : sizeOf m.2 < sizeOf members := by
  have := List.sizeOf_lt_of_mem h
  cases m
  simp_all
  omega

/-- A value on one line, without blanks. -/
def compact : JsonValue → String
  | .null | .string none => "null"
  | .bool b => if b then "true" else "false"
  | .number digits => digits
  | .string (some s) => writeString s
  | .array items => "[" ++ ",".intercalate (items.map compact) ++ "]"
  | .object members =>
    "\x7b" ++ ",".intercalate
      (members.map fun m => writeString (m.1.getD "") ++ ":" ++ m.2.compact) ++ "\x7d"
termination_by v => sizeOf v
decreasing_by
  · have := List.sizeOf_lt_of_mem ‹_ ∈ items›
    simp; omega
  · have := sizeOf_member ‹_ ∈ members›
    simp; omega

/-- Two more columns. -/
def deeper (margin : String) : String := margin ++ "  "

/-- A value with every item and member on a line of its own. Nothing
stands between the brackets of an empty one. -/
def pretty (margin : String) : JsonValue → String
  | .null | .string none => "null"
  | .bool b => if b then "true" else "false"
  | .number digits => digits
  | .string (some s) => writeString s
  | .array items =>
    if items.isEmpty then "[]"
    else
      "[\n" ++ ",\n".intercalate (items.map fun i => deeper margin ++ i.pretty (deeper margin))
        ++ "\n" ++ margin ++ "]"
  | .object members =>
    if members.isEmpty then "\x7b\x7d"
    else
      "\x7b\n" ++ ",\n".intercalate (members.map fun m =>
          deeper margin ++ writeString (m.1.getD "") ++ ": " ++ m.2.pretty (deeper margin))
        ++ "\n" ++ margin ++ "\x7d"
termination_by v => sizeOf v
decreasing_by
  · have := List.sizeOf_lt_of_mem ‹_ ∈ items›
    simp; omega
  · have := sizeOf_member ‹_ ∈ members›
    simp; omega

end JsonValue

end ClassPatch
