-- Reading JSON texts. The grammar is strict: no trailing commas, no
-- leading zeros, no raw controls in strings, nothing after the value.
import ClassPatch.Json.Value

namespace ClassPatch.JsonReader

/-! ## Tokens -/

def isBlank (c : Char) : Bool := c = ' ' || c = '\n' || c = '\t' || c = '\r'

def skipBlanks (cs : List Char) : List Char := cs.dropWhile isBlank

/-- The characters of a keyword, taken off the front. -/
def keyword (word : String) (cs : List Char) : Option (List Char) :=
  if word.toList.isPrefixOf cs then some (cs.drop word.length) else none

def hexValue? (c : Char) : Option Nat :=
  let n := c.toNat
  if 48 ≤ n ∧ n ≤ 57 then some (n - 48)
  else if 97 ≤ n ∧ n ≤ 102 then some (n - 87)
  else if 65 ≤ n ∧ n ≤ 70 then some (n - 55)
  else none

def fourHex (a b c d : Char) : Option Nat := do
  return (← hexValue? a) * 4096 + (← hexValue? b) * 256 + (← hexValue? c) * 16 + (← hexValue? d)

/-- The character of a short escape. -/
def shortEscape? : Char → Option Char
  | '"' => some '"'
  | '\\' => some '\\'
  | '/' => some '/'
  | 'b' => some (Char.ofNat 8)
  | 'f' => some (Char.ofNat 12)
  | 'n' => some '\n'
  | 'r' => some '\r'
  | 't' => some '\t'
  | _ => none

/-- The units of a string before they are paired: characters as they
stand, and numbers from escapes. -/
def stringUnits (read : List Nat) : List Char → Option (List Nat × List Char)
  | [] => none
  | '"' :: rest => some (read.reverse, rest)
  | '\\' :: 'u' :: a :: b :: c :: d :: rest =>
    match fourHex a b c d with
    | some n => stringUnits (n :: read) rest
    | none => none
  | '\\' :: e :: rest =>
    match shortEscape? e with
    | some c => stringUnits (c.toNat :: read) rest
    | none => none
  | c :: rest => if c.toNat < 32 || c = '\\' then none else stringUnits (c.toNat :: read) rest

def isHigh (n : Nat) : Bool := 0xD800 ≤ n && n ≤ 0xDBFF
def isLow (n : Nat) : Bool := 0xDC00 ≤ n && n ≤ 0xDFFF

/-- The text of units. Two halves of a pair make one character; a half
alone makes none. -/
def pairUnits (read : List Char) : List Nat → Option String
  | [] => some (String.ofList read.reverse)
  | n :: rest =>
    if isHigh n then
      match rest with
      | m :: rest =>
        if isLow m then
          pairUnits (Char.ofNat (0x10000 + (n - 0xD800) * 0x400 + (m - 0xDC00)) :: read) rest
        else none
      | [] => none
    else if isLow n then none
    else pairUnits (Char.ofNat n :: read) rest

/-- The rest of a string after its opening quote. -/
def stringRest (cs : List Char) : Option (Option String × List Char) :=
  (stringUnits [] cs).map fun (units, rest) => (pairUnits [] units, rest)

def isDigit (c : Char) : Bool := 48 ≤ c.toNat && c.toNat ≤ 57

/-- One digit or more. -/
def digits (cs : List Char) : Option (List Char × List Char) :=
  match cs.takeWhile isDigit with
  | [] => none
  | ds => some (ds, cs.dropWhile isDigit)

/-- Digits without a leading zero. -/
def wholePart (cs : List Char) : Option (List Char × List Char) := do
  let (ds, rest) ← digits cs
  match ds with
  | '0' :: _ :: _ => none
  | _ => some (ds, rest)

def fraction (cs : List Char) : Option (List Char × List Char) :=
  match cs with
  | '.' :: rest => (digits rest).map fun (ds, rest) => ('.' :: ds, rest)
  | _ => some ([], cs)

def exponent (cs : List Char) : Option (List Char × List Char) :=
  match cs with
  | e :: rest =>
    if e = 'e' || e = 'E' then
      match rest with
      | s :: more =>
        if s = '+' || s = '-' then (digits more).map fun (ds, rest) => (e :: s :: ds, rest)
        else (digits rest).map fun (ds, rest) => (e :: ds, rest)
      | [] => none
    else some ([], cs)
  | [] => some ([], cs)

def number (cs : List Char) : Option (JsonValue × List Char) := do
  let (sign, cs) := match cs with
    | '-' :: rest => (['-'], rest)
    | _ => ([], cs)
  let (whole, cs) ← wholePart cs
  let (part, cs) ← fraction cs
  let (power, cs) ← exponent cs
  return (.number (String.ofList (sign ++ whole ++ part ++ power)), cs)

/-! ## Values -/

mutual

/-- The value at the front. Every call consumes a character before the
next, so as much fuel as there are characters is enough. -/
def value : (fuel : Nat) → List Char → Option (JsonValue × List Char)
  | 0, _ => none
  | fuel + 1, cs =>
    match skipBlanks cs with
    | [] => none
    | '"' :: rest => (stringRest rest).map fun (s, rest) => (.string s, rest)
    | '[' :: rest =>
      match skipBlanks rest with
      | ']' :: rest => some (.array [], rest)
      | _ => items fuel [] rest
    | '{' :: rest =>
      match skipBlanks rest with
      | '}' :: rest => some (.object [], rest)
      | _ => members fuel [] rest
    | 'n' :: rest => (keyword "ull" rest).map (.null, ·)
    | 't' :: rest => (keyword "rue" rest).map (.bool true, ·)
    | 'f' :: rest => (keyword "alse" rest).map (.bool false, ·)
    | cs => number cs

/-- The items up to the closing bracket, after those already read. -/
def items : (fuel : Nat) → List JsonValue → List Char → Option (JsonValue × List Char)
  | 0, _, _ => none
  | fuel + 1, read, cs =>
    match value fuel cs with
    | none => none
    | some (v, rest) =>
      match skipBlanks rest with
      | ',' :: rest => items fuel (v :: read) rest
      | ']' :: rest => some (.array (v :: read).reverse, rest)
      | _ => none

/-- The members up to the closing brace, after those already read. -/
def members : (fuel : Nat) → List (Option String × JsonValue) → List Char →
    Option (JsonValue × List Char)
  | 0, _, _ => none
  | fuel + 1, read, cs =>
    match skipBlanks cs with
    | '"' :: rest =>
      match stringRest rest with
      | none => none
      | some (name, rest) =>
        match skipBlanks rest with
        | ':' :: rest =>
          match value fuel rest with
          | none => none
          | some (v, rest) =>
            match skipBlanks rest with
            | ',' :: rest => members fuel ((name, v) :: read) rest
            | '}' :: rest => some (.object ((name, v) :: read).reverse, rest)
            | _ => none
        | _ => none
    | _ => none

end

/-- The value that a whole text is. -/
def parse (s : String) : Option JsonValue := do
  let cs := s.toList
  let (v, rest) ← value (2 * cs.length + 2) cs
  if (skipBlanks rest).isEmpty then some v else none

end ClassPatch.JsonReader

/-! ## Typed reading -/

namespace ClassPatch.JsonValue

def asString? : JsonValue → Option String
  | .string s => s
  | _ => none

def asBool? : JsonValue → Option Bool
  | .bool b => some b
  | _ => none

def asArray? : JsonValue → Option (List JsonValue)
  | .array items => some items
  | _ => none

/-- An object whose values are all strings. -/
def asStrings? : JsonValue → Option (List (String × String))
  | .object ms => ms.mapM fun m => do return (← m.1, ← m.2.asString?)
  | _ => none

/-- The values of a record's fields, in the order of `names`. A record is
an object, in which each name stands at most once and other names are
passed over, or an array of the first fields in their order. -/
def fields? (names : List String) : JsonValue → Option (List (Option JsonValue))
  | .array items =>
    if items.length ≤ names.length then
      some (items.map some ++ List.replicate (names.length - items.length) none)
    else none
  | .object ms => do
    let ms ← ms.mapM fun m => m.1.map (·, m.2)
    names.mapM fun name =>
      match ms.filter (·.1 == name) with
      | [] => some none
      | [m] => some (some m.2)
      | _ => none
  | _ => none

end ClassPatch.JsonValue
