-- Texts as bytes. Every character has one encoding of one to four bytes;
-- bytes that are no text are refused with the place where they go wrong.
namespace ClassPatch.Utf8

/-! ## Writing -/

def byte (n : Nat) : UInt8 := UInt8.ofNat n

/-- A continuation byte carries six bits. -/
def continuation (n : Nat) : UInt8 := byte (0x80 + n % 64)

def encodeChar (c : Char) : List UInt8 :=
  let n := c.toNat
  if n < 0x80 then [byte n]
  else if n < 0x800 then [byte (0xC0 + n / 64), continuation n]
  else if n < 0x10000 then [byte (0xE0 + n / 4096), continuation (n / 64), continuation n]
  else [byte (0xF0 + n / 262144), continuation (n / 4096), continuation (n / 64), continuation n]

def encode (s : String) : List UInt8 := s.toList.flatMap encodeChar

/-! ## Reading -/

/-- Where bytes stop being a text: how many of them are good, and how
many after those are bad, unknown when the input ends inside a character. -/
structure Fault where
  validUpTo : Nat
  length : Option Nat
deriving DecidableEq, Repr

def Fault.message (f : Fault) : String :=
  match f.length with
  | some n => s!"invalid utf-8 sequence of {n} bytes from index {f.validUpTo}"
  | none => s!"incomplete utf-8 byte sequence from index {f.validUpTo}"

/-- What a first byte promises: its own bits, how many bytes follow, and
the range of the second byte that keeps the encoding unique. -/
structure Lead where
  bits : Nat
  following : Nat
  low : Nat
  high : Nat

def lead? (n : Nat) : Option Lead :=
  if n < 0x80 then some ⟨n, 0, 0x80, 0xBF⟩
  else if n < 0xC2 then none
  else if n < 0xE0 then some ⟨n - 0xC0, 1, 0x80, 0xBF⟩
  else if n = 0xE0 then some ⟨0, 2, 0xA0, 0xBF⟩
  else if n = 0xED then some ⟨0xD, 2, 0x80, 0x9F⟩
  else if n < 0xF0 then some ⟨n - 0xE0, 2, 0x80, 0xBF⟩
  else if n = 0xF0 then some ⟨0, 3, 0x90, 0xBF⟩
  else if n < 0xF4 then some ⟨n - 0xF0, 3, 0x80, 0xBF⟩
  else if n = 0xF4 then some ⟨4, 3, 0x80, 0x8F⟩
  else none

/-- Reads the bytes after the first one. The fault is the number of bytes
that were good. -/
def follow (low high : Nat) :
    (following : Nat) → (value seen : Nat) → List UInt8 → Except (Option Nat) (Nat × List UInt8)
  | 0, value, _, rest => .ok (value, rest)
  | _ + 1, _, _, [] => .error none
  | k + 1, value, seen, b :: rest =>
    if low ≤ b.toNat ∧ b.toNat ≤ high then
      follow 0x80 0xBF k (value * 64 + b.toNat % 64) (seen + 1) rest
    else .error (some seen)

theorem follow_length {low high k value seen : Nat} {bs rest : List UInt8} {v : Nat}
    (h : follow low high k value seen bs = .ok (v, rest)) : rest.length ≤ bs.length := by
  induction k generalizing low high value seen bs with
  | zero => simp [follow] at h; simp [h.2]
  | succ k ih =>
    cases bs with
    | nil => simp [follow] at h
    | cons b bs =>
      rw [follow] at h
      split at h
      · have := ih h
        simp only [List.length_cons]; omega
      · cases h

/-- Reads characters until the bytes end; `read` holds those before
`index`, the latest first. -/
def decodeFrom (index : Nat) (read : List Char) (bs : List UInt8) : Except Fault (List Char) :=
  match bs with
  | [] => .ok read.reverse
  | b :: rest =>
    match lead? b.toNat with
    | none => .error ⟨index, some 1⟩
    | some l =>
      match h : follow l.low l.high l.following l.bits 1 rest with
      | .error length => .error ⟨index, length⟩
      | .ok (value, rest') =>
        decodeFrom (index + 1 + l.following) (Char.ofNat value :: read) rest'
termination_by bs.length
decreasing_by
  have := follow_length h
  simp only [List.length_cons]
  omega

def decode (bs : List UInt8) : Except Fault String :=
  (decodeFrom 0 [] bs).map String.ofList

end ClassPatch.Utf8
