-- Reading back what was written. A reader that reads some bytes as a value
-- does so whatever follows them, so the laws of the parts give the law of a
-- whole that is written one part after the other.
import ClassPatch.Container.Cursor
import Mathlib.Algebra.Ring.Int.Defs
import Mathlib.Algebra.Ring.Nat
import Mathlib.Data.List.Forall2

namespace ClassPatch.Reader
variable {α β : Type}

/-! ## Exact reads -/

/-- In front of any other bytes and at any offset the reader takes exactly
these bytes and gives the value. -/
def Reads (x : Reader α) (bs : List UInt8) (a : α) : Prop :=
  ∀ rest offset, x ⟨bs ++ rest, offset⟩ = .ok (a, ⟨rest, offset + bs.length⟩)

theorem Reads.congr {x : Reader α} {bs cs : List UInt8} {a : α} (h : Reads x bs a) (hbs : bs = cs) :
    Reads x cs a := hbs ▸ h

theorem reads_pure (a : α) : Reads (pure a) [] a := fun _ _ => rfl

theorem reads_lift {x : Except Fault α} {a : α} (h : x = .ok a) : Reads (liftM x) [] a := by
  subst h
  exact fun _ _ => rfl

theorem reads_bind {x : Reader α} {f : α → Reader β} {bs cs : List UInt8} {a : α} {b : β}
    (hx : Reads x bs a) (hf : Reads (f a) cs b) : Reads (x >>= f) (bs ++ cs) b := by
  intro rest offset
  change (x ⟨bs ++ cs ++ rest, offset⟩).bind _ = _
  rw [List.append_assoc, hx]
  change f a ⟨cs ++ rest, offset + bs.length⟩ = _
  rw [hf, List.length_append, Nat.add_assoc]

/-- A reader that takes bytes, and then one that takes none. -/
theorem reads_map {x : Reader α} {f : α → Reader β} {bs : List UInt8} {a : α} {b : β}
    (hx : Reads x bs a) (hf : Reads (f a) [] b) : Reads (x >>= f) bs b := by
  have := reads_bind hx hf
  rwa [List.append_nil] at this

/-- A reader that takes no bytes, and then any other. -/
theorem reads_after {x : Reader α} {f : α → Reader β} {bs : List UInt8} {a : α} {b : β}
    (hx : Reads x [] a) (hf : Reads (f a) bs b) : Reads (x >>= f) bs b := reads_bind hx hf

/-- A reader that looks at the offset, but does the same wherever it is. -/
theorem reads_offset {f : Nat → Reader β} {bs : List UInt8} {b : β}
    (h : ∀ n, Reads (f n) bs b) : Reads (offset >>= f) bs b :=
  fun rest n => h n rest n

theorem reads_take {n : Nat} {bs : List UInt8} (h : bs.length = n) : Reads (take n) bs bs := by
  subst h
  intro rest offset
  unfold take
  simp

theorem reads_skip {n : Nat} {bs : List UInt8} (h : bs.length = n) : Reads (skip n) bs () :=
  reads_map (reads_take h) (reads_pure ())

/-! ## Numbers -/

theorem length_bytesOf (size n : Nat) : (bytesOf size n).length = size := by
  induction size generalizing n with
  | zero => rfl
  | succ size ih => rw [bytesOf, List.length_append, ih, List.length_singleton]

theorem bigEndian_concat (bs : List UInt8) (b : UInt8) :
    bigEndian (bs ++ [b]) = bigEndian bs * 256 + b.toNat := by
  unfold bigEndian
  rw [List.foldl_append]
  rfl

theorem bigEndian_bytesOf (size n : Nat) : bigEndian (bytesOf size n) = n % 256 ^ size := by
  induction size generalizing n with
  | zero => rw [Nat.pow_zero, Nat.mod_one]; rfl
  | succ size ih =>
    have hpow : 256 ^ (size + 1) = 256 * 256 ^ size := Nat.pow_succ'
    rw [bytesOf, bigEndian_concat, ih, UInt8.toNat_ofNat', hpow, Nat.mod_mul]
    omega

theorem reads_number {size n : Nat} (h : n < 256 ^ size) :
    Reads (number size) (bytesOf size n) n := by
  refine reads_map (reads_take (length_bytesOf size n)) ?_
  rw [bigEndian_bytesOf, Nat.mod_eq_of_lt h]
  exact reads_pure n

theorem reads_u8 (n : UInt8) : Reads u8 [n] n := by
  have h : Reads u8 (bytesOf 1 n.toNat) (UInt8.ofNat n.toNat) :=
    reads_map (reads_number n.toNat_lt) (reads_pure _)
  have hb : bytesOf 1 n.toNat = [n] := by simp [bytesOf]
  rwa [hb, UInt8.ofNat_toNat] at h

/-- A byte that decides how to go on. -/
theorem reads_head {f : UInt8 → Reader β} {bs : List UInt8} {b : β} (n : UInt8)
    (h : Reads (f n) bs b) : Reads (u8 >>= f) (n :: bs) b :=
  reads_bind (reads_u8 n) h

theorem reads_u16 (n : UInt16) : Reads u16 (bytesOf 2 n.toNat) n := by
  have h : Reads u16 (bytesOf 2 n.toNat) (UInt16.ofNat n.toNat) :=
    reads_map (reads_number n.toNat_lt) (reads_pure _)
  rwa [UInt16.ofNat_toNat] at h

theorem reads_u32 (n : UInt32) : Reads u32 (bytesOf 4 n.toNat) n := by
  have h : Reads u32 (bytesOf 4 n.toNat) (UInt32.ofNat n.toNat) :=
    reads_map (reads_number n.toNat_lt) (reads_pure _)
  rwa [UInt32.ofNat_toNat] at h

theorem reads_u64 (n : UInt64) : Reads u64 (bytesOf 8 n.toNat) n := by
  have h : Reads u64 (bytesOf 8 n.toNat) (UInt64.ofNat n.toNat) :=
    reads_map (reads_number n.toNat_lt) (reads_pure _)
  rwa [UInt64.ofNat_toNat] at h

theorem reads_int (v : Int32) : Reads i32 (bytesOf 4 v.toUInt32.toNat) v := by
  have h : Reads i32 (bytesOf 4 v.toUInt32.toNat) (Int32.ofNat v.toUInt32.toNat) :=
    reads_map (reads_number v.toUInt32.toNat_lt) (reads_pure _)
  rwa [show Int32.ofNat v.toUInt32.toNat = v from congrArg Int32.ofUInt32 UInt32.ofNat_toNat] at h

theorem reads_long (v : Int64) : Reads i64 (bytesOf 8 v.toUInt64.toNat) v := by
  have h : Reads i64 (bytesOf 8 v.toUInt64.toNat) (Int64.ofNat v.toUInt64.toNat) :=
    reads_map (reads_number v.toUInt64.toNat_lt) (reads_pure _)
  rwa [show Int64.ofNat v.toUInt64.toNat = v from congrArg Int64.ofUInt64 UInt64.ofNat_toNat] at h

/-- A count or a position that fits two bytes. -/
theorem reads_u16_of_lt {n : Nat} (h : n < 65536) :
    Reads u16 (bytesOf 2 n) (UInt16.ofNat n) := by
  have := reads_u16 (UInt16.ofNat n)
  rwa [UInt16.toNat_ofNat_of_lt' h] at this

theorem reads_u32_of_lt {n : Nat} (h : n < 2 ^ 32) :
    Reads u32 (bytesOf 4 n) (UInt32.ofNat n) := by
  have := reads_u32 (UInt32.ofNat n)
  rwa [UInt32.toNat_ofNat_of_lt' h] at this

/-! ## Signed numbers -/

theorem signedBytes_eq (size : Nat) (n : Int) :
    signedBytes size n = bytesOf size (n % 256 ^ size).toNat := rfl

theorem length_signedBytes (size : Nat) (n : Int) : (signedBytes size n).length = size :=
  length_bytesOf size _

theorem toNat_emod_lt (n : Int) (size : Nat) : (n % 256 ^ size).toNat < 256 ^ size := by
  have hpos : (0 : Int) < 256 ^ size := Int.pow_pos (by decide)
  have := Int.emod_lt_of_pos n hpos
  have := Int.emod_nonneg n (Int.ne_of_gt hpos)
  have hcast : ((256 ^ size : Nat) : Int) = 256 ^ size := by simp
  omega

theorem Int8.ofNat_emod (n : Int) : Int8.ofNat (n % 256 ^ 1).toNat = Int8.ofInt n := by
  rw [← Int8.ofInt_eq_ofNat, Int.toNat_of_nonneg (by omega), ← Int8.toInt_inj]
  simp only [Int8.toInt_ofInt]
  exact Int.emod_bmod n _

theorem Int16.ofNat_emod (n : Int) : Int16.ofNat (n % 256 ^ 2).toNat = Int16.ofInt n := by
  rw [← Int16.ofInt_eq_ofNat, Int.toNat_of_nonneg (by omega), ← Int16.toInt_inj]
  simp only [Int16.toInt_ofInt]
  exact Int.emod_bmod n _

theorem Int32.ofNat_emod (n : Int) : Int32.ofNat (n % 256 ^ 4).toNat = Int32.ofInt n := by
  rw [← Int32.ofInt_eq_ofNat, Int.toNat_of_nonneg (by omega), ← Int32.toInt_inj]
  simp only [Int32.toInt_ofInt]
  exact Int.emod_bmod n _

theorem reads_i8 (n : Int) : Reads i8 (signedBytes 1 n) (Int8.ofInt n) := by
  rw [← Int8.ofNat_emod, signedBytes_eq]
  exact reads_map (reads_number (toNat_emod_lt n 1)) (reads_pure _)

theorem reads_i16 (n : Int) : Reads i16 (signedBytes 2 n) (Int16.ofInt n) := by
  rw [← Int16.ofNat_emod, signedBytes_eq]
  exact reads_map (reads_number (toNat_emod_lt n 2)) (reads_pure _)

theorem reads_i32 (n : Int) : Reads i32 (signedBytes 4 n) (Int32.ofInt n) := by
  rw [← Int32.ofNat_emod, signedBytes_eq]
  exact reads_map (reads_number (toNat_emod_lt n 4)) (reads_pure _)

/-! ## Sequences -/

theorem reads_timesFrom {item : Reader α} {bss : List (List UInt8)} {as : List α}
    (h : List.Forall₂ (Reads item) bss as) (read : List α) :
    Reads (timesFrom item read as.length) bss.flatten (read.reverse ++ as) := by
  induction h generalizing read with
  | nil =>
    rw [List.append_nil]
    exact reads_pure read.reverse
  | @cons bs a bss as ha _ ih =>
    have := ih (a :: read)
    rw [List.reverse_cons, List.append_assoc] at this
    exact reads_bind ha this

theorem reads_times {item : Reader α} {n : Nat} {bss : List (List UInt8)} {as : List α}
    (hn : as.length = n) (h : List.Forall₂ (Reads item) bss as) :
    Reads (times n item) bss.flatten as := by
  subst hn
  exact reads_timesFrom h []

/-- A table: a count of two bytes, and its items. -/
theorem reads_counted {item : Reader α} {bss : List (List UInt8)} {as : List α}
    (hn : bss.length ≤ 65535) (h : List.Forall₂ (Reads item) bss as) :
    Reads (counted item) (bytesOf 2 bss.length ++ bss.flatten) as := by
  refine reads_bind (reads_u16_of_lt (by omega)) ?_
  rw [UInt16.toNat_ofNat_of_lt' (Nat.lt_succ_of_le hn)]
  exact reads_times h.length_eq.symm h

/-! ## Readers partway -/

/-- In front of any other bytes and at any offset the first reader takes
exactly these bytes and goes on as the second one. -/
def Reaches (x : Reader α) (bs : List UInt8) (y : Reader α) : Prop :=
  ∀ rest offset, x ⟨bs ++ rest, offset⟩ = y ⟨rest, offset + bs.length⟩

theorem reaches_refl (x : Reader α) : Reaches x [] x := fun _ _ => rfl

theorem reaches_after {x : Reader α} {f : α → Reader β} {y : Reader β} {bs cs : List UInt8} {a : α}
    (hx : Reads x bs a) (hf : Reaches (f a) cs y) : Reaches (x >>= f) (bs ++ cs) y := by
  intro rest offset
  change (x ⟨bs ++ cs ++ rest, offset⟩).bind _ = _
  rw [List.append_assoc, hx, List.length_append, ← Nat.add_assoc]
  exact hf rest _

theorem reaches_last {x : Reader α} {f : α → Reader β} {y : Reader β} {bs : List UInt8} {a : α}
    (hx : Reads x bs a) (hf : Reaches (f a) [] y) : Reaches (x >>= f) bs y := by
  have := reaches_after hx hf
  rwa [List.append_nil] at this

theorem reaches_known {x : Except Fault α} {f : α → Reader β} {y : Reader β} {bs : List UInt8}
    {a : α} (hx : x = .ok a) (hf : Reaches (f a) bs y) : Reaches (liftM x >>= f) bs y :=
  reaches_after (reads_lift hx) hf

/-- A check of what was there before, which may as well come after the bytes. -/
theorem reaches_check {x : Except Fault α} {y z : Reader β} {bs : List UInt8} (h : Reaches y bs z) :
    Reaches (liftM x >>= fun _ => y) bs (liftM x >>= fun _ => z) := by
  cases x with
  | error f => exact fun _ _ => rfl
  | ok a => exact h

/-! ## Conditional reads -/

/-- In front of any other bytes the reader takes exactly these bytes and gives
the value if the condition holds, and fails if it does not. -/
structure Accepts (x : Reader α) (bs : List UInt8) (cond : Prop) (a : α) : Prop where
  reads : cond → Reads x bs a
  needs : ∀ rest offset r, x ⟨bs ++ rest, offset⟩ = .ok r → cond

theorem Reads.accepts {x : Reader α} {bs : List UInt8} {a : α} (h : Reads x bs a) :
    Accepts x bs True a := ⟨fun _ => h, fun _ _ _ _ => trivial⟩

theorem Accepts.of_iff {x : Reader α} {bs : List UInt8} {p q : Prop} {a : α}
    (h : Accepts x bs p a) (hpq : p ↔ q) : Accepts x bs q a :=
  ⟨fun hq => h.reads (hpq.2 hq), fun rest offset r hr => hpq.1 (h.needs rest offset r hr)⟩

theorem accepts_bind {x : Reader α} {f : α → Reader β} {bs cs : List UInt8} {p q : Prop} {a : α}
    {b : β} (hx : Accepts x bs p a) (hf : Accepts (f a) cs q b) :
    Accepts (x >>= f) (bs ++ cs) (p ∧ q) b := by
  refine ⟨fun h => reads_bind (hx.reads h.1) (hf.reads h.2), fun rest offset r hr => ?_⟩
  change (x ⟨bs ++ cs ++ rest, offset⟩).bind _ = _ at hr
  rw [List.append_assoc] at hr
  obtain ⟨s, hc, hr⟩ := bind_eq_ok.1 hr
  have hp := hx.needs _ _ _ hc
  rw [hx.reads hp] at hc
  cases hc
  exact ⟨hp, hf.needs _ _ _ hr⟩

theorem Reaches.accepts {x y : Reader α} {bs cs : List UInt8} {q : Prop} {a : α}
    (h : Reaches x bs y) (hy : Accepts y cs q a) : Accepts x (bs ++ cs) q a := by
  constructor
  · intro hq rest offset
    rw [List.append_assoc, h, hy.reads hq, List.length_append, Nat.add_assoc]
  · intro rest offset r hr
    rw [List.append_assoc, h] at hr
    exact hy.needs _ _ _ hr

/-- What always reads, and then something that may not. -/
theorem accepts_after {x : Reader α} {f : α → Reader β} {bs cs : List UInt8} {q : Prop} {a : α}
    {b : β} (hx : Reads x bs a) (hf : Accepts (f a) cs q b) : Accepts (x >>= f) (bs ++ cs) q b :=
  (reaches_last hx (reaches_refl (f a))).accepts hf

theorem accepts_map {x : Reader α} {f : α → Reader β} {bs : List UInt8} {q : Prop} {a : α} {b : β}
    (hx : Reads x bs a) (hf : Accepts (f a) [] q b) : Accepts (x >>= f) bs q b := by
  have := accepts_after hx hf
  rwa [List.append_nil] at this

/-- Something that may not read, and then no more bytes. -/
theorem accepts_last {x : Reader α} {f : α → Reader β} {bs : List UInt8} {p : Prop} {a : α} {b : β}
    (hx : Accepts x bs p a) (hf : Reads (f a) [] b) : Accepts (x >>= f) bs p b := by
  have := (accepts_bind hx hf.accepts).of_iff (and_iff_left trivial)
  rwa [List.append_nil] at this

/-- A check, and then something that does not look at its result. -/
theorem accepts_check {x : Except Fault α} {y : Reader β} {bs : List UInt8} {q : Prop} {b : β}
    (hy : Accepts y bs q b) : Accepts (liftM x >>= fun _ => y) bs ((∃ a, x = .ok a) ∧ q) b := by
  cases x with
  | error e =>
    refine ⟨fun h => ?_, fun rest offset r h => ?_⟩
    · obtain ⟨⟨_, ⟨⟩⟩, _⟩ := h
    · cases h
  | ok a =>
    exact ⟨fun h => hy.reads h.2, fun rest offset r h => ⟨⟨a, rfl⟩, hy.needs rest offset r h⟩⟩

theorem accepts_timesFrom {γ : Type} {item : Reader α} {cond : γ → Prop} {q : γ → α → Prop}
    {cs : List γ} {bss : List (List UInt8)}
    (h : List.Forall₂ (fun c bs => ∃ a, q c a ∧ Accepts item bs (cond c) a) cs bss) :
    ∃ as, List.Forall₂ q cs as ∧ ∀ read, Accepts (timesFrom item read cs.length) bss.flatten
      (∀ c ∈ cs, cond c) (read.reverse ++ as) := by
  induction h with
  | nil =>
    refine ⟨[], .nil, fun read => ?_⟩
    rw [List.append_nil]
    exact (reads_pure read.reverse).accepts.of_iff (by simp)
  | cons hc _ ih =>
    obtain ⟨a, ha, hitem⟩ := hc
    obtain ⟨as, has, hrest⟩ := ih
    refine ⟨a :: as, .cons ha has, fun read => ?_⟩
    have := hrest (a :: read)
    rw [List.reverse_cons, List.append_assoc] at this
    exact (accepts_bind hitem this).of_iff List.forall_mem_cons.symm

/-- A table of items, each of which may be refused. -/
theorem accepts_counted {γ : Type} {item : Reader α} {cond : γ → Prop} {q : γ → α → Prop}
    {cs : List γ} {bss : List (List UInt8)} (hn : cs.length ≤ 65535)
    (h : List.Forall₂ (fun c bs => ∃ a, q c a ∧ Accepts item bs (cond c) a) cs bss) :
    ∃ as, List.Forall₂ q cs as ∧ Accepts (counted item) (bytesOf 2 cs.length ++ bss.flatten)
      (∀ c ∈ cs, cond c) as := by
  obtain ⟨as, has, hread⟩ := accepts_timesFrom h
  refine ⟨as, has, accepts_after (reads_u16_of_lt (Nat.lt_succ_of_le hn)) ?_⟩
  rw [UInt16.toNat_ofNat_of_lt' (Nat.lt_succ_of_le hn)]
  exact hread []

end ClassPatch.Reader
