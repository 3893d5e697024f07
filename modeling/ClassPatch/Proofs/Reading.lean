-- What readers give when they succeed. Every reader moves forward and takes
-- off the front exactly the bytes that it passes, so the instructions of a
-- body start at ascending positions inside of it. What an instruction names
-- comes from the pool, and its operands are of a size that can be written.
import ClassPatch.Container.Decode
import ClassPatch.Proofs.Contents
import ClassPatch.Proofs.Ties

namespace ClassPatch

namespace Reader
variable {α β : Type}

/-! ## Results and progress -/

/-- The reader takes at least `n` bytes, and what it gives is one of those
that `p` allows. -/
def Gives (n : Nat) (x : Reader α) (p : α → Prop) : Prop :=
  ∀ c a c', x c = .ok (a, c') →
    c.offset + n ≤ c'.offset ∧ c.offset + c.rest.length = c'.offset + c'.rest.length ∧ p a

theorem Gives.imp {n m : Nat} {x : Reader α} {p q : α → Prop} (h : Gives n x p) (hn : m ≤ n)
    (hp : ∀ a, p a → q a) : Gives m x q := by
  intro c a c' hx
  obtain ⟨h₁, h₂, h₃⟩ := h c a c' hx
  exact ⟨by omega, h₂, hp a h₃⟩

theorem gives_pure {a : α} {p : α → Prop} (h : p a) : Gives 0 (pure a) p := by
  rintro c _ _ ⟨⟩
  exact ⟨Nat.le_refl _, rfl, h⟩

theorem gives_throw {f : Fault} {p : α → Prop} : Gives 0 (throw f) p := by
  rintro c _ _ ⟨⟩

theorem gives_lift {x : Except Fault α} : Gives 0 (liftM x) fun a => x = .ok a := by
  intro c a c' h
  cases x with
  | error f => cases h
  | ok b =>
    cases h
    exact ⟨Nat.le_refl _, rfl, rfl⟩

theorem gives_bind {n m : Nat} {x : Reader α} {f : α → Reader β} {p : α → Prop} {q : β → Prop}
    (hx : Gives n x p) (hf : ∀ a, p a → Gives m (f a) q) : Gives (n + m) (x >>= f) q := by
  intro c b c' h
  change (x c).bind _ = _ at h
  obtain ⟨⟨a, c₁⟩, hxc, h⟩ := bind_eq_ok.1 h
  obtain ⟨h₁, h₂, hp⟩ := hx c a c₁ hxc
  obtain ⟨h₃, h₄, hq⟩ := hf a hp c₁ b c' h
  exact ⟨by omega, by omega, hq⟩

/-- One reader after another, with no count of bytes. -/
theorem gives_then {n m : Nat} {x : Reader α} {f : α → Reader β} {p : α → Prop} {q : β → Prop}
    (hx : Gives n x p) (hf : ∀ a, p a → Gives m (f a) q) : Gives 0 (x >>= f) q :=
  (gives_bind hx hf).imp (Nat.zero_le _) fun _ h => h

theorem gives_ite {n : Nat} {x y : Reader α} {p : α → Prop} {c : Prop} [Decidable c]
    (hx : c → Gives n x p) (hy : ¬c → Gives n y p) : Gives n (if c then x else y) p := by
  split
  · exact hx ‹_›
  · exact hy ‹_›

theorem gives_take (n : Nat) : Gives n (take n) fun bs => bs.length = n := by
  intro c bs c' h
  unfold take at h
  dsimp only at h
  split at h
  · rename_i hn
    cases h
    refine ⟨Nat.le_refl _, ?_, hn⟩
    rw [List.length_take] at hn
    simp only [List.length_drop]
    omega
  · cases h

theorem gives_number (n : Nat) : Gives n (number n) fun _ => True :=
  gives_bind (m := 0) (gives_take n) fun _ _ => gives_pure trivial

theorem gives_u8 : Gives 1 u8 fun _ => True :=
  gives_bind (m := 0) (gives_number 1) fun _ _ => gives_pure trivial

theorem gives_u16 : Gives 2 u16 fun _ => True :=
  gives_bind (m := 0) (gives_number 2) fun _ _ => gives_pure trivial

theorem gives_u32 : Gives 4 u32 fun _ => True :=
  gives_bind (m := 0) (gives_number 4) fun _ _ => gives_pure trivial

theorem gives_i8 : Gives 1 i8 fun _ => True :=
  gives_bind (m := 0) (gives_number 1) fun _ _ => gives_pure trivial

theorem gives_i16 : Gives 2 i16 fun _ => True :=
  gives_bind (m := 0) (gives_number 2) fun _ _ => gives_pure trivial

theorem gives_i32 : Gives 4 i32 fun _ => True :=
  gives_bind (m := 0) (gives_number 4) fun _ _ => gives_pure trivial

theorem gives_u64 : Gives 8 u64 fun _ => True :=
  gives_bind (m := 0) (gives_number 8) fun _ _ => gives_pure trivial

theorem gives_i64 : Gives 8 i64 fun _ => True :=
  gives_bind (m := 0) (gives_number 8) fun _ _ => gives_pure trivial

theorem gives_skip (n : Nat) : Gives 0 (skip n) fun _ => True :=
  gives_then (m := 0) (gives_take n) fun _ _ => gives_pure trivial

/-! ## Sequences -/

theorem gives_timesFrom {item : Reader α} {p : α → Prop} (hi : Gives 0 item p) (n : Nat)
    {read : List α} (hr : ∀ a ∈ read, p a) :
    Gives 0 (timesFrom item read n) fun as => as.length = read.length + n ∧ ∀ a ∈ as, p a := by
  induction n generalizing read with
  | zero => exact gives_pure ⟨List.length_reverse, fun a ha => hr a (List.mem_reverse.1 ha)⟩
  | succ n ih =>
    refine gives_then hi fun a ha => (ih ?_).imp (Nat.le_refl _) fun as has => ⟨?_, has.2⟩
    · intro b hb
      rcases List.mem_cons.1 hb with rfl | hb
      · exact ha
      · exact hr b hb
    · rw [has.1, List.length_cons]
      omega

theorem gives_times {item : Reader α} {p : α → Prop} (hi : Gives 0 item p) (n : Nat) :
    Gives 0 (times n item) fun as => as.length = n ∧ ∀ a ∈ as, p a :=
  (gives_timesFrom hi n (by simp)).imp (Nat.le_refl _) fun _ h => ⟨by simpa using h.1, h.2⟩

theorem gives_counted {item : Reader α} {p : α → Prop} (hi : Gives 0 item p) :
    Gives 0 (counted item) fun as => as.length ≤ 65535 ∧ ∀ a ∈ as, p a :=
  gives_then gives_u16 fun n _ => (gives_times hi _).imp (Nat.le_refl _) fun _ h =>
    ⟨h.1 ▸ Nat.le_of_lt_succ n.toNat_lt, h.2⟩

end Reader

/-! ## Instructions -/

/-- The operands are of the kind that the opcode takes, and a field is not
said to be declared by an interface. -/
def Insn.Proper {α : Type} : Insn α → Prop
  | .simple op => op.kind = .bare
  | .int op _ => op.kind = .int
  | .var op _ => op.kind = .var
  | .jump op _ => op.kind = .jump
  | .field op m => op.kind = .field ∧ m.interface = false
  | .method op _ => op.kind = .method
  | .type op _ => op.kind = .type
  | _ => True

namespace Instruction
open Reader

/-- What every instruction is that was read. -/
structure Legible (i : Insn Int) : Prop where
  real : i.isReal
  slots : i.NoTemp
  proper : i.Proper

/-- What every instruction is that was read with a pool. Only a call that
repeats its argument slots may have more of them than fit. -/
structure Drawn (p : Pool) (i : Insn Int) : Prop extends Legible i where
  held : ∀ c, i.content? = some c → p.Holds c
  fits : ∀ f : Int → Label, encodable (i.mapLabels f) = true ∨ ∃ m, i = .method .INVOKEINTERFACE m

variable {pool : Pool}

/-- An instruction that names nothing in the pool and has an encoding wherever it leads. -/
theorem Legible.drawn {i : Insn Int} (h : Legible i) (hc : i.content? = none)
    (he : ∀ f : Int → Label, encodable (i.mapLabels f) = true) : Drawn pool i :=
  ⟨h, fun _ hs => (nomatch hc.symm.trans hs), fun f => .inl (he f)⟩

theorem encodable_method {op : Opcode} (h : op ≠ .INVOKEINTERFACE) (m : MemberRef) :
    encodable (.method op m) = true := by
  simp [encodable, h]

theorem gives_readPlace (pc : Nat) : Gives 0 (readPlace pc) fun _ => True :=
  gives_then (m := 0) gives_i32 fun _ _ => gives_pure trivial

theorem gives_readWide (pc : Nat) : Gives 0 (readWide pc) (Drawn pool) := by
  unfold readWide
  refine gives_then (m := 0) gives_u8 fun inner _ => ?_
  split
  · exact gives_throw
  · rename_i op _
    split
    · refine gives_then (m := 0) gives_u16 fun slot _ => ?_
      exact gives_then (m := 0) gives_i16 fun delta _ =>
        gives_pure (Legible.drawn ⟨rfl, nofun, trivial⟩ rfl fun _ => rfl)
    · rename_i hk
      exact gives_then (m := 0) gives_u16 fun slot _ =>
        gives_pure (Legible.drawn ⟨rfl, nofun, hk⟩ rfl fun _ => rfl)
    · exact gives_throw

theorem fitsU8_byte (b : UInt8) : fitsU8 (Int32.ofNat b.toNat).toInt = true := by
  have hb := b.toNat_lt
  rw [Int32.toInt_ofNat_of_lt (by omega)]
  unfold fitsU8
  simp only [Bool.and_eq_true, decide_eq_true_eq]
  omega

/-- An immediate that was read has the size that its opcode gives it. -/
theorem gives_readImmediate (op : Opcode) :
    Gives 0 (readImmediate op) fun v => encodable (.int op v) = true := by
  unfold readImmediate
  split
  · refine gives_then (m := 0) gives_i8 fun v _ => gives_pure ?_
    have hl := v.le_toInt
    have hh := v.toInt_lt
    change fitsI8 v.toInt32.toInt = true
    rw [Int8.toInt_toInt32]
    unfold fitsI8
    simp only [Bool.and_eq_true, decide_eq_true_eq]
    omega
  · refine gives_then (m := 0) gives_i16 fun v _ => gives_pure ?_
    have hl := v.le_toInt
    have hh := v.toInt_lt
    change fitsI16 v.toInt32.toInt = true
    rw [Int16.toInt_toInt32]
    unfold fitsI16
    simp only [Bool.and_eq_true, decide_eq_true_eq]
    omega
  · rename_i hb hs
    refine gives_then (m := 0) gives_u8 fun v _ => gives_pure ?_
    have hother : ∀ n, encodable (.int op n) = fitsU8 n.toInt := by
      simp [encodable]
    rw [hother]
    exact fitsU8_byte v

theorem gives_readMethod (pool : Pool) {op : Opcode} (hk : op.kind = .method) :
    Gives 0 (readMethod pool op) (Drawn pool) := by
  unfold readMethod
  refine gives_then (m := 0) gives_u16 fun i _ => ?_
  refine gives_then (m := 0) gives_lift fun m hm => ?_
  have held : ∀ c, (Insn.method op m : Insn Int).content? = some c → pool.Holds c := by
    rintro _ ⟨⟩
    exact ⟨i, Pool.leads_of_method hm⟩
  dsimp only
  split
  · rename_i hop
    refine gives_then (m := 0) (gives_skip 2) fun _ _ => gives_pure ⟨⟨rfl, nofun, hk⟩, held, ?_⟩
    exact fun _ => .inr ⟨m, by rw [hop]⟩
  · rename_i hop
    exact gives_pure ⟨⟨rfl, nofun, hk⟩, held, fun _ => .inl (encodable_method hop m)⟩

/-- A dense switch that was read has as many targets as there are keys from
its lowest to its highest one. -/
theorem gives_readTableSwitch (pc : Nat) : Gives 0 (readTableSwitch pc) (Drawn pool) := by
  unfold readTableSwitch
  refine gives_then (m := 0) (gives_skip _) fun _ _ => ?_
  refine gives_then (m := 0) (gives_readPlace pc) fun otherwise _ => ?_
  refine gives_then (m := 0) gives_i32 fun low _ => ?_
  refine gives_then (m := 0) gives_i32 fun high _ => ?_
  dsimp only
  split
  · exact gives_then (m := 0) (p := fun _ => False) gives_throw fun _ h => h.elim
  · rename_i hle
    rw [Int32.lt_iff_toInt_lt] at hle
    refine gives_then (m := 0) (gives_times (gives_readPlace pc) _) fun ts hts => gives_pure ?_
    refine Legible.drawn ⟨rfl, nofun, trivial⟩ rfl fun f => ?_
    have hhigh := high.toInt_lt
    have hlen := hts.1
    simp only [Insn.mapLabels, encodable, Bool.and_eq_true, Bool.not_eq_true', decide_eq_true_eq,
      List.length_map, List.isEmpty_eq_false_iff, ← List.length_pos_iff]
    omega

theorem gives_readLookupSwitch (pc : Nat) : Gives 0 (readLookupSwitch pc) (Drawn pool) := by
  unfold readLookupSwitch
  refine gives_then (m := 0) (gives_skip _) fun _ _ => ?_
  refine gives_then (m := 0) (gives_readPlace pc) fun otherwise _ => ?_
  refine gives_then (m := 0) gives_i32 fun count _ => ?_
  have hpair : Gives 0 (readPair pc) fun _ => True :=
    gives_then (m := 0) gives_i32 fun _ _ =>
      gives_then (m := 0) (gives_readPlace pc) fun _ _ => gives_pure trivial
  have pairs : Gives 0 (do
      let pairs ← times count.toInt.toNat (readPair pc)
      return Insn.lookupSwitch otherwise pairs) (Drawn pool) :=
    gives_then (m := 0) (gives_times hpair _) fun ps _ =>
      gives_pure (Legible.drawn ⟨rfl, nofun, trivial⟩ rfl fun _ => rfl)
  dsimp only
  split
  · exact gives_then (m := 0) (p := fun _ => True) gives_throw fun _ _ => pairs
  · exact pairs

/-- A constant that was read comes from the pool, whatever the form of its instruction. -/
theorem gives_ldc {i : UInt16} :
    Gives 0 (do return Insn.ldc (← pool.constant i) : Reader (Insn Int)) (Drawn pool) := by
  refine gives_then (m := 0) gives_lift fun v hv => gives_pure ⟨⟨rfl, nofun, trivial⟩, ?_, ?_⟩
  · rintro _ ⟨⟩
    exact ⟨i, Pool.leads_of_constant hv⟩
  · exact fun _ => .inl rfl

theorem gives_readOperands (pool : Pool) (pc : Nat) (op : Opcode) :
    Gives 0 (readOperands pool pc op) (Drawn pool) := by
  unfold readOperands
  split
  · rename_i hk
    exact gives_pure (Legible.drawn ⟨rfl, nofun, hk⟩ rfl fun _ => rfl)
  · rename_i hk
    exact gives_then (m := 0) (gives_readImmediate op) fun _ hv =>
      gives_pure (Legible.drawn ⟨rfl, nofun, hk⟩ rfl fun _ => hv)
  · exact gives_then (m := 0) gives_u8 fun _ _ => gives_ldc
  · rename_i hk
    exact gives_then (m := 0) gives_u8 fun n _ =>
      gives_pure (Legible.drawn ⟨rfl, nofun, hk⟩ rfl fun _ => rfl)
  · refine gives_then (m := 0) gives_u8 fun slot _ => ?_
    exact gives_then (m := 0) gives_i8 fun delta _ =>
      gives_pure (Legible.drawn ⟨rfl, nofun, trivial⟩ rfl fun _ => rfl)
  · rename_i hk
    exact gives_then (m := 0) gives_i16 fun d _ =>
      gives_pure (Legible.drawn ⟨rfl, nofun, hk⟩ rfl fun _ => rfl)
  · rename_i hk
    refine gives_then (m := 0) gives_u16 fun i _ => gives_then (m := 0) gives_lift fun m hm => ?_
    have held : pool.Holds (.field m) := ⟨i, Pool.leads_of_field hm⟩
    refine gives_pure ⟨⟨rfl, nofun, hk, held.field.1⟩, ?_, fun _ => .inl rfl⟩
    rintro _ ⟨⟩
    exact held
  · exact gives_readMethod pool ‹_›
  · rename_i hk
    refine gives_then (m := 0) gives_u16 fun i _ => gives_then (m := 0) gives_lift fun name hn => ?_
    refine gives_pure ⟨⟨rfl, nofun, hk⟩, ?_, fun _ => .inl rfl⟩
    rintro _ ⟨⟩
    exact ⟨i, Pool.leads_of_className hn⟩
  · exact gives_readTableSwitch pc
  · exact gives_readLookupSwitch pc

theorem kind_of_ofShortForm? {b : UInt8} {op : Opcode} {slot : Nat}
    (h : Opcode.ofShortForm? b = some (op, slot)) : op.kind = .var := by
  have all : (List.range 256).all fun n =>
      (Opcode.ofShortForm? (UInt8.ofNat n)).all fun e => e.1.kind == .var := by
    decide +kernel
  have hb := List.all_eq_true.1 all b.toNat (List.mem_range.2 b.toNat_lt)
  rw [UInt8.ofNat_toNat, h] at hb
  simpa using hb

/-- An instruction takes at least one byte. -/
theorem gives_read (pool : Pool) (pc : Nat) : Gives 1 (read pool pc) (Drawn pool) := by
  unfold read
  refine gives_bind (m := 0) gives_u8 fun byte _ => ?_
  split
  · exact gives_readWide pc
  split
  · exact gives_then (m := 0) gives_u16 fun _ _ => gives_ldc
  split
  · exact gives_then (m := 0) (gives_readPlace pc) fun p _ =>
      gives_pure (Legible.drawn ⟨rfl, nofun, rfl⟩ rfl fun _ => rfl)
  split
  · exact gives_pure (Legible.drawn ⟨rfl, nofun, kind_of_ofShortForm? ‹_›⟩ rfl fun _ => rfl)
  · split
    · exact gives_readOperands pool pc _
    · exact gives_throw

end Instruction

end ClassPatch
