-- Blank characters, and texts without them at either end.
namespace ClassPatch.Text

/-- The white space of the character database. -/
def isBlank (c : Char) : Bool :=
  let n := c.toNat
  (9 ≤ n && n ≤ 13) || n = 0x20 || n = 0x85 || n = 0xA0 || n = 0x1680 ||
    (0x2000 ≤ n && n ≤ 0x200A) || n = 0x2028 || n = 0x2029 || n = 0x202F || n = 0x205F ||
    n = 0x3000

def trim (s : String) : String :=
  String.ofList ((s.toList.dropWhile isBlank).reverse.dropWhile isBlank).reverse

/-- Every character that is one of `cs` becomes `c`. -/
def replaceAll (cs : List Char) (c : Char) (s : String) : String :=
  s.map fun d => if cs.contains d then c else d

end ClassPatch.Text
