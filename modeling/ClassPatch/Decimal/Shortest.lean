-- The shortest decimal of a binary fraction. A fraction stands for the
-- reals that round to it; among the decimals that lie there the one with
-- the fewest digits wins, and of those the nearest.
namespace ClassPatch.Decimal

/-! ## Binary fractions -/

/-- The positive number `mant · 2 ^ exp`, one of a row of numbers that
share a format. -/
structure Fraction where
  mant : Nat
  exp : Int
  /-- The number below is only half a step away, as it is under a power of two. -/
  narrow : Bool
deriving DecidableEq, Repr

/-- The decimal number `digits · 10 ^ exp`. -/
structure Expansion where
  digits : Nat
  exp : Int
deriving DecidableEq, Repr

/-- Three reals over one denominator: the number itself and the two ends
of the interval that rounds to it. -/
structure Interval where
  low : Nat
  mid : Nat
  high : Nat
  den : Nat
  /-- The ends belong to the interval. -/
  closed : Bool

/-- The interval reaches half a step to each side, a quarter below a
power of two. Its ends round to the even mantissa. -/
def Fraction.interval (f : Fraction) : Interval :=
  let scale := if f.exp < 2 then 1 else 1 <<< (f.exp - 2).toNat
  { low := (4 * f.mant - if f.narrow then 1 else 2) * scale
    mid := 4 * f.mant * scale
    high := (4 * f.mant + 2) * scale
    den := if f.exp < 2 then 1 <<< (2 - f.exp).toNat else 1
    closed := f.mant % 2 == 0 }

/-! ## Grids of decimals -/

/-- How many decimal digits a number has. -/
def width (n : Nat) : Nat := (Nat.toDigits 10 n).length

/-- The power of ten just above the number: `10 ^ (k - 1) ≤ mid / den < 10 ^ k`. -/
def Interval.magnitude (i : Interval) : Int :=
  if i.den ≤ i.mid then width (i.mid / i.den)
  else 1 - (width ((i.den - 1) / i.mid) : Int)

/-- The same reals counted in steps of `10 ^ g`. -/
def Interval.inSteps (i : Interval) (g : Int) : Interval :=
  let up := Nat.pow 10 (-g).toNat
  { i with low := i.low * up, mid := i.mid * up, high := i.high * up, den := i.den * Nat.pow 10 g.toNat }

def Interval.holds (i : Interval) (steps : Nat) : Bool :=
  let x := steps * i.den
  if i.closed then i.low ≤ x && x ≤ i.high else i.low < x && x < i.high

/-- The step nearest to the number among its two neighbours that lie in
the interval. A tie goes to the upper one. -/
def Interval.nearest? (i : Interval) : Option Nat :=
  let below := i.mid / i.den
  let above := below + 1
  match i.holds below, i.holds above with
  | true, true => if above * i.den - i.mid ≤ i.mid - below * i.den then some above else some below
  | true, false => some below
  | false, true => some above
  | false, false => none

/-- A last digit of zero moves into the exponent. -/
def Expansion.trim (d : Expansion) : Expansion :=
  if d.digits % 10 == 0 then ⟨d.digits / 10, d.exp + 1⟩ else d

/-- The most digits that any number of the formats in use needs. -/
def maxDigits : Nat := 17

/-- The decimal with the fewest digits that reads back as the number. -/
def Fraction.shortest (f : Fraction) : Expansion :=
  let i := f.interval
  let k := i.magnitude
  let found := (List.range maxDigits).findSome? fun (n : Nat) =>
    let g := k - (n + 1)
    (i.inSteps g).nearest?.map fun c => (⟨c, g⟩ : Expansion).trim
  found.getD ⟨0, 0⟩

end ClassPatch.Decimal
