-- Every text reads back from its bytes, and has as many of them as the pool
-- checks for.
import ClassPatch.Text.Utf8
import Mathlib.Algebra.Ring.Nat

namespace ClassPatch.Utf8

/-! ## One character -/

theorem toNat_byte {n : Nat} (h : n < 256) : (byte n).toNat = n := by
  unfold byte
  rw [UInt8.toNat_ofNat']
  omega

/-- The bytes of a first byte's promise make up a character. -/
theorem decodeFrom_step {index : Nat} {read : List Char} {b : UInt8} {l : Lead}
    {rest rest' : List UInt8} {value : Nat} (hl : lead? b.toNat = some l)
    (hf : follow l.low l.high l.following l.bits 1 rest = .ok (value, rest')) :
    decodeFrom index read (b :: rest) =
      decodeFrom (index + 1 + l.following) (Char.ofNat value :: read) rest' := by
  rw [decodeFrom]
  simp only [hl]
  split
  · rename_i e he
    rw [hf] at he
    cases he
  · rename_i v r he
    rw [hf] at he
    cases he
    rfl

theorem follow_step {low high k value seen n : Nat} {rest : List UInt8} (hn : n < 256)
    (hlow : low ≤ n) (hhigh : n ≤ high) :
    follow low high (k + 1) value seen (byte n :: rest) =
      follow 0x80 0xBF k (value * 64 + n % 64) (seen + 1) rest := by
  rw [follow, toNat_byte hn, if_pos ⟨hlow, hhigh⟩]

/-- A continuation byte after the second one is always in range. -/
theorem follow_continuation {k value seen n : Nat} {rest : List UInt8} :
    follow 0x80 0xBF (k + 1) value seen (continuation n :: rest) =
      follow 0x80 0xBF k (value * 64 + n % 64) (seen + 1) rest := by
  unfold continuation
  rw [follow_step (by omega) (by omega) (by omega)]
  congr 2
  omega

theorem lead?_two {k : Nat} (h : 2 ≤ k ∧ k < 32) :
    lead? (0xC0 + k) = some ⟨k, 1, 0x80, 0xBF⟩ := by
  unfold lead?
  rw [if_neg (by omega), if_neg (by omega), if_pos (by omega), Nat.add_sub_cancel_left]

/-- The second byte of three keeps clear of shorter forms and of surrogates. -/
theorem lead?_three {n : Nat} (h : 0x800 ≤ n ∧ n < 0x10000) (hs : n < 0xD800 ∨ 0xDFFF < n) :
    ∃ low high, lead? (0xE0 + n / 4096) = some ⟨n / 4096, 2, low, high⟩ ∧
      low ≤ 0x80 + n / 64 % 64 ∧ 0x80 + n / 64 % 64 ≤ high := by
  unfold lead?
  rw [if_neg (by omega), if_neg (by omega), if_neg (by omega)]
  by_cases h0 : n / 4096 = 0
  · exact ⟨0xA0, 0xBF, by rw [if_pos (by omega), h0], by omega, by omega⟩
  · rw [if_neg (by omega)]
    by_cases hd : n / 4096 = 0xD
    · exact ⟨0x80, 0x9F, by rw [if_pos (by omega), hd], by omega, by omega⟩
    · refine ⟨0x80, 0xBF, ?_, by omega, by omega⟩
      rw [if_neg (by omega), if_pos (by omega), Nat.add_sub_cancel_left]

/-- The second byte of four keeps clear of shorter forms and of what lies
past the last character. -/
theorem lead?_four {n : Nat} (h : 0x10000 ≤ n ∧ n < 0x110000) :
    ∃ low high, lead? (0xF0 + n / 262144) = some ⟨n / 262144, 3, low, high⟩ ∧
      low ≤ 0x80 + n / 4096 % 64 ∧ 0x80 + n / 4096 % 64 ≤ high := by
  unfold lead?
  rw [if_neg (by omega), if_neg (by omega), if_neg (by omega), if_neg (by omega),
    if_neg (by omega), if_neg (by omega)]
  by_cases h0 : n / 262144 = 0
  · exact ⟨0x90, 0xBF, by rw [if_pos (by omega), h0], by omega, by omega⟩
  · rw [if_neg (by omega)]
    by_cases h4 : n / 262144 = 4
    · refine ⟨0x80, 0x8F, ?_, by omega, by omega⟩
      rw [if_neg (by omega), if_pos (by omega), h4]
    · refine ⟨0x80, 0xBF, ?_, by omega, by omega⟩
      rw [if_pos (by omega), Nat.add_sub_cancel_left]

theorem decodeFrom_encodeChar (index : Nat) (read : List Char) (c : Char) (rest : List UInt8) :
    ∃ index', decodeFrom index read (encodeChar c ++ rest) =
      decodeFrom index' (c :: read) rest := by
  have hvalid : c.toNat < 0xD800 ∨ 0xDFFF < c.toNat ∧ c.toNat < 0x110000 := c.valid
  have step : ∀ {b : UInt8} {l : Lead} {bs : List UInt8}, lead? b.toNat = some l →
      follow l.low l.high l.following l.bits 1 bs = .ok (c.toNat, rest) →
      ∃ index', decodeFrom index read (b :: bs) = decodeFrom index' (c :: read) rest := by
    intro b l bs hl hf
    refine ⟨index + 1 + l.following, ?_⟩
    rw [decodeFrom_step hl hf, Char.ofNat_toNat]
  unfold encodeChar
  dsimp only
  split
  · rename_i h
    rw [List.singleton_append]
    refine step (l := ⟨c.toNat, 0, 0x80, 0xBF⟩) ?_ rfl
    rw [toNat_byte (by omega)]
    unfold lead?
    rw [if_pos h]
  split
  · rename_i h₁ h₂
    rw [List.cons_append, List.singleton_append]
    refine step (l := ⟨c.toNat / 64, 1, 0x80, 0xBF⟩) ?_ ?_
    · rw [toNat_byte (by omega)]
      exact lead?_two (by omega)
    · rw [follow_continuation, follow]
      congr 2
      dsimp only
      omega
  split
  · rename_i h₁ h₂ h₃
    obtain ⟨low, high, hl, hlow, hhigh⟩ := lead?_three (n := c.toNat) (by omega) (by omega)
    rw [List.cons_append, List.cons_append, List.singleton_append]
    refine step (l := ⟨c.toNat / 4096, 2, low, high⟩) ?_ ?_
    · rw [toNat_byte (by omega)]
      exact hl
    · rw [continuation, follow_step (by omega) hlow hhigh, follow_continuation, follow]
      congr 2
      dsimp only
      omega
  · rename_i h₁ h₂ h₃
    obtain ⟨low, high, hl, hlow, hhigh⟩ := lead?_four (n := c.toNat) (by omega)
    rw [List.cons_append, List.cons_append, List.cons_append, List.singleton_append]
    refine step (l := ⟨c.toNat / 262144, 3, low, high⟩) ?_ ?_
    · rw [toNat_byte (by omega)]
      exact hl
    · rw [continuation, follow_step (by omega) hlow hhigh, follow_continuation,
        follow_continuation, follow]
      congr 2
      dsimp only
      omega

/-! ## Texts -/

theorem decodeFrom_flatMap (index : Nat) (read cs : List Char) :
    decodeFrom index read (cs.flatMap encodeChar) = .ok (read.reverse ++ cs) := by
  induction cs generalizing index read with
  | nil => rw [List.flatMap_nil, decodeFrom, List.append_nil]
  | cons c cs ih =>
    obtain ⟨index', h⟩ := decodeFrom_encodeChar index read c (cs.flatMap encodeChar)
    rw [List.flatMap_cons, h, ih, List.reverse_cons, List.append_assoc]
    rfl

/-- Every text reads back from its bytes. -/
theorem decode_encode (s : String) : decode (encode s) = .ok s := by
  unfold decode encode
  rw [decodeFrom_flatMap]
  exact congrArg Except.ok String.ofList_toList

theorem length_encodeChar_eq (c : Char) : (encodeChar c).length =
    if c.toNat < 0x80 then 1 else if c.toNat < 0x800 then 2 else
      if c.toNat < 0x10000 then 3 else 4 := by
  unfold encodeChar
  dsimp only
  split
  · rfl
  split
  · rfl
  split <;> rfl

theorem length_encodeChar (c : Char) : (encodeChar c).length = c.utf8Size := by
  have h₁ : c.val ≤ 0x7F ↔ c.toNat < 0x80 := by
    rw [UInt32.le_iff_toNat_le]
    exact Nat.lt_succ_iff.symm
  have h₂ : c.val ≤ 0x7FF ↔ c.toNat < 0x800 := by
    rw [UInt32.le_iff_toNat_le]
    exact Nat.lt_succ_iff.symm
  have h₃ : c.val ≤ 0xFFFF ↔ c.toNat < 0x10000 := by
    rw [UInt32.le_iff_toNat_le]
    exact Nat.lt_succ_iff.symm
  have hsize : c.utf8Size = if c.val ≤ 0x7F then 1 else if c.val ≤ 0x7FF then 2 else
      if c.val ≤ 0xFFFF then 3 else 4 := rfl
  rw [hsize, length_encodeChar_eq]
  simp only [h₁, h₂, h₃]

/-- A text has as many bytes as the machine counts for it. -/
theorem length_encode (s : String) : (encode s).length = s.utf8ByteSize := by
  have key : ∀ cs : List Char,
      (cs.flatMap encodeChar).length = (String.ofList cs).utf8ByteSize := by
    intro cs
    induction cs with
    | nil => rfl
    | cons c cs ih =>
      rw [List.flatMap_cons, List.length_append, length_encodeChar, ih, String.ofList_cons,
        String.utf8ByteSize_append, String.utf8ByteSize_singleton]
  have := key s.toList
  rwa [String.ofList_toList] at this

/-! ## Texts that were read -/

/-- Every byte that follows the first one adds six bits to the value. -/
theorem follow_ok {low high k value seen v : Nat} {bs rest : List UInt8}
    (h : follow low high k value seen bs = .ok (v, rest)) :
    v < (value + 1) * 64 ^ k ∧ rest.length + k = bs.length := by
  induction k generalizing low high value seen bs with
  | zero =>
    rw [follow] at h
    cases h
    omega
  | succ k ih =>
    cases bs with
    | nil => cases h
    | cons b bs =>
      rw [follow] at h
      split at h
      · obtain ⟨hv, hlen⟩ := ih h
        refine ⟨Nat.lt_of_lt_of_le hv ?_, by rw [List.length_cons]; omega⟩
        rw [Nat.pow_succ, Nat.mul_comm (64 ^ k), ← Nat.mul_assoc]
        exact Nat.mul_le_mul_right _ (by omega)
      · cases h

theorem toNat_ofNat_le (n : Nat) : (Char.ofNat n).toNat ≤ n := by
  unfold Char.ofNat
  by_cases h : n.isValidChar
  · rw [dif_pos h]
    exact Nat.le_refl _
  · rw [dif_neg h]
    exact Nat.zero_le _

/-- The more bytes follow the first one, the fewer bits it has itself. -/
theorem lead?_bits {n : Nat} {l : Lead} (h : lead? n = some l) :
    l.following = 0 ∧ l.bits < 128 ∨ l.following = 1 ∧ l.bits < 32 ∨
      l.following = 2 ∧ l.bits < 16 ∨ l.following = 3 := by
  unfold lead? at h
  repeat' split at h
  all_goals simp only [Option.some.injEq, reduceCtorEq] at h
  all_goals subst h; dsimp only; omega

/-- A character that was read is written with no more bytes than it had. -/
theorem length_encodeChar_le {n v : Nat} {l : Lead} (hl : lead? n = some l)
    (hv : v < (l.bits + 1) * 64 ^ l.following) :
    (encodeChar (Char.ofNat v)).length ≤ 1 + l.following := by
  have hle := toNat_ofNat_le v
  rw [length_encodeChar_eq]
  rcases lead?_bits hl with ⟨hf, hb⟩ | ⟨hf, hb⟩ | ⟨hf, hb⟩ | hf
  all_goals
    rw [hf] at hv ⊢
    split
    · omega
    split
    · omega
    split <;> omega

theorem length_of_decodeFrom {index : Nat} {read cs : List Char} {bs : List UInt8}
    (h : decodeFrom index read bs = .ok cs) :
    (cs.flatMap encodeChar).length ≤ (read.flatMap encodeChar).length + bs.length := by
  have hreverse : ∀ cs : List Char,
      (cs.reverse.flatMap encodeChar).length = (cs.flatMap encodeChar).length := fun cs =>
    ((List.reverse_perm cs).flatMap_right encodeChar).length_eq
  fun_induction decodeFrom index read bs with
  | case1 index read =>
    cases h
    rw [hreverse]
    exact Nat.le_add_right _ _
  | case2 => cases h
  | case3 => cases h
  | case4 index read b rest l hl value rest' hf ih =>
    obtain ⟨hv, hlen⟩ := follow_ok hf
    have hchar := length_encodeChar_le hl hv
    have := ih h
    rw [List.flatMap_cons, List.length_append] at this
    rw [List.length_cons]
    omega

/-- A text that was read is not longer than the bytes that it was read from. -/
theorem utf8ByteSize_of_decode {bs : List UInt8} {s : String} (h : decode bs = .ok s) :
    s.utf8ByteSize ≤ bs.length := by
  unfold decode at h
  cases hcs : decodeFrom 0 [] bs with
  | error e =>
    rw [hcs] at h
    cases h
  | ok cs =>
    rw [hcs] at h
    cases h
    have := length_of_decodeFrom hcs
    rw [← length_encode, encode, String.toList_ofList]
    rwa [List.flatMap_nil, List.length_nil, Nat.zero_add] at this

end ClassPatch.Utf8
