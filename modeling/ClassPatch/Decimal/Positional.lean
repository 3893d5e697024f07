-- Binary floating point written out in full: the shortest digits that
-- read back, always positional, with no exponent and no needless point.
import ClassPatch.Decimal.Shortest

namespace ClassPatch.Decimal

/-! ## Formats -/

/-- A binary interchange format: the widths of its two fields. -/
structure Format where
  mantBits : Nat
  expBits : Nat

def single : Format := ⟨23, 8⟩
def double : Format := ⟨52, 11⟩

/-- What the fields of a bit pattern say. -/
inductive Number where
  | nan
  | infinite
  | zero
  | finite (f : Fraction)

def Format.bias (f : Format) : Nat := 1 <<< (f.expBits - 1) - 1

def Format.isNegative (f : Format) (bits : Nat) : Bool :=
  bits >>> (f.mantBits + f.expBits) % 2 == 1

/-- Reads the fields apart from the sign. The lowest exponent field has
no hidden bit, the highest holds the infinities and the numbers that are
none. -/
def Format.number (f : Format) (bits : Nat) : Number :=
  let mant := bits % 1 <<< f.mantBits
  let exp := bits >>> f.mantBits % 1 <<< f.expBits
  if exp == 1 <<< f.expBits - 1 then
    if mant == 0 then .infinite else .nan
  else
    let lowest : Int := 1 - (f.bias : Int) - f.mantBits
    if exp == 0 then
      if mant == 0 then .zero else .finite ⟨mant, lowest, false⟩
    else .finite ⟨1 <<< f.mantBits + mant, lowest + exp - 1, mant == 0 && exp != 1⟩

/-! ## Text -/

def zeros (n : Nat) : String := String.ofList (List.replicate n '0')

/-- The digits with the point where the exponent puts it. -/
def Expansion.positional (d : Expansion) : String :=
  let ds := toString d.digits
  if 0 ≤ d.exp then ds ++ zeros d.exp.toNat
  else
    let places := (-d.exp).toNat
    if places < ds.length then
      let cut := ds.length - places
      String.ofList (ds.toList.take cut) ++ "." ++ String.ofList (ds.toList.drop cut)
    else "0." ++ zeros (places - ds.length) ++ ds

/-- The text of a bit pattern. Zero keeps its sign, a value that is no
number has none. -/
def Format.text (f : Format) (bits : Nat) : String :=
  let sign := if f.isNegative bits then "-" else ""
  match f.number bits with
  | .nan => "NaN"
  | .infinite => sign ++ "inf"
  | .zero => sign ++ "0"
  | .finite x => sign ++ x.shortest.positional

end ClassPatch.Decimal
