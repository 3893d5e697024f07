-- Texts between quotes, with the escapes that keep them on one line.
import ClassPatch.Text.Visible

namespace ClassPatch.Text

/-- Lower-case hexadecimal digits without leading zeros. -/
def hexDigits (n : Nat) : String := String.ofList (Nat.toDigits 16 n)

/-- Lower-case hexadecimal digits, filled up with zeros to a width. -/
def hexPadded (size n : Nat) : String :=
  let ds := Nat.toDigits 16 n
  String.ofList (List.replicate (size - ds.length) '0' ++ ds)

/-- A quote, a backslash and the common controls have short escapes; what
cannot be shown is written by its code point. -/
def escapeChar (c : Char) : String :=
  if c = '"' then "\\\""
  else if c = '\\' then "\\\\"
  else if c = '\n' then "\\n"
  else if c = '\r' then "\\r"
  else if c = '\t' then "\\t"
  else if c.toNat = 0 then "\\0"
  else if isVisible c then c.toString
  else "\\u\x7b" ++ hexDigits c.toNat ++ "\x7d"

def quoted (s : String) : String :=
  "\"" ++ s.foldl (fun out c => out ++ escapeChar c) "" ++ "\""

end ClassPatch.Text
