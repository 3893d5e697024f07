-- Reading bytes from the front. Every reader takes bytes strictly in
-- order and fails with the offset of the item that it could not complete.
import ClassPatch.Fault

namespace ClassPatch

/-- The bytes that are left, and the offset of the first of them in the
whole input. -/
structure Cursor where
  rest : List UInt8
  offset : Nat
deriving DecidableEq

abbrev Reader (α : Type) := StateT Cursor (Except Fault) α

namespace Reader

/-! ## Bytes and numbers -/

def take (n : Nat) : Reader (List UInt8) := fun c =>
  let front := c.rest.take n
  if front.length = n then .ok (front, ⟨c.rest.drop n, c.offset + n⟩)
  else .error (.endOfInput c.offset)

/-- The number that bytes spell, the greatest place first. -/
def bigEndian (bs : List UInt8) : Nat := bs.foldl (fun n b => n * 256 + b.toNat) 0

def number (size : Nat) : Reader Nat := do return bigEndian (← take size)

def u8 : Reader UInt8 := do return UInt8.ofNat (← number 1)
def u16 : Reader UInt16 := do return UInt16.ofNat (← number 2)
def u32 : Reader UInt32 := do return UInt32.ofNat (← number 4)
def u64 : Reader UInt64 := do return UInt64.ofNat (← number 8)
def i8 : Reader Int8 := do return Int8.ofNat (← number 1)
def i16 : Reader Int16 := do return Int16.ofNat (← number 2)
def i32 : Reader Int32 := do return Int32.ofNat (← number 4)
def i64 : Reader Int64 := do return Int64.ofNat (← number 8)

def skip (n : Nat) : Reader Unit := do let _ ← take n

def offset : Reader Nat := fun c => .ok (c.offset, c)

/-! ## Sequences -/

/-- Reads items and puts them before those in `read`, the latest first. -/
def timesFrom {α : Type} (item : Reader α) (read : List α) : Nat → Reader (List α)
  | 0 => return read.reverse
  | n + 1 => do timesFrom item ((← item) :: read) n

def times {α : Type} (n : Nat) (item : Reader α) : Reader (List α) := timesFrom item [] n

/-- A count of two bytes and as many items. -/
def counted {α : Type} (item : Reader α) : Reader (List α) := do
  times (← u16).toNat item

/-- Reads items until the bytes end. Each item takes at least one byte, so
`fuel` as many rounds as there are bytes are enough. -/
def untilEnd {α : Type} (item : Reader α) (read : List α) : (fuel : Nat) → Reader (List α)
  | 0 => return read.reverse
  | fuel + 1 => do
    if (← get).rest.isEmpty then return read.reverse
    else untilEnd item ((← item) :: read) fuel

/-- Reads exactly the next `size` bytes with a reader of their own. -/
def within {α : Type} (size : Nat) (body : Reader α) : Reader α := do
  let start ← offset
  let bytes ← take size
  let (a, _) ← body ⟨bytes, start⟩
  return a

end Reader

/-! ## Writing numbers -/

/-- The `size` lowest bytes of a number, the greatest place first. -/
def bytesOf : (size : Nat) → Nat → List UInt8
  | 0, _ => []
  | size + 1, n => bytesOf size (n / 256) ++ [UInt8.ofNat n]

/-- A signed number as the bytes that wrap around to it. -/
def signedBytes (size : Nat) (n : Int) : List UInt8 := bytesOf size (n % Int.pow 256 size).toNat

end ClassPatch
