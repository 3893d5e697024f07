-- Containers are self-delimiting. A reader that succeeds has taken a front of
-- its bytes, and nothing of what follows matters to it. Cut inside of that
-- front it finds the end of the input, and no other fault before.
import ClassPatch.Proofs.Normal

namespace ClassPatch

namespace Reader
variable {α β : Type}

/-! ## Fronts that a reader takes -/

/-- From `offset` on the reader takes exactly the bytes of `front` and gives
`a`, whatever follows them. If they are cut, it finds the end of the input at
an item that starts no later than the cut. -/
structure Spans (x : Reader α) (offset : Nat) (front : List UInt8) (a : α) : Prop where
  whole : ∀ rest, x ⟨front ++ rest, offset⟩ = .ok (a, ⟨rest, offset + front.length⟩)
  cut : ∀ part rest, part ++ rest = front → rest ≠ [] →
    ∃ found ≤ offset + part.length, x ⟨part, offset⟩ = .error (.endOfInput found)

/-- Whatever the reader succeeds on starts with a front that it spans. -/
def Delimited (x : Reader α) : Prop :=
  ∀ c a c', x c = .ok (a, c') → ∃ front, c.rest = front ++ c'.rest ∧ Spans x c.offset front a

/-- A reader that looks at no bytes has none to be cut. -/
theorem spans_nil {x : Reader α} {offset : Nat} {a : α}
    (h : ∀ rest, x ⟨rest, offset⟩ = .ok (a, ⟨rest, offset⟩)) : Spans x offset [] a where
  whole := h
  cut _ _ he hne := absurd (List.append_eq_nil_iff.1 he).2 hne

theorem spans_bind {x : Reader α} {f : α → Reader β} {offset : Nat} {front back : List UInt8}
    {a : α} {b : β} (hx : Spans x offset front a)
    (hf : Spans (f a) (offset + front.length) back b) :
    Spans (x >>= f) offset (front ++ back) b := by
  have step : ∀ rest, (x >>= f) ⟨front ++ rest, offset⟩ =
      f a ⟨rest, offset + front.length⟩ := by
    intro rest
    change (x _).bind _ = _
    rw [hx.whole]
    rfl
  refine ⟨fun rest => ?_, fun part rest he hne => ?_⟩
  · rw [List.append_assoc, step, hf.whole, List.length_append, Nat.add_assoc]
  have behind : ∀ mid, mid ++ rest = back → part = front ++ mid →
      ∃ found ≤ offset + part.length, (x >>= f) ⟨part, offset⟩ = .error (.endOfInput found) := by
    rintro mid hmid rfl
    obtain ⟨found, hle, hcut⟩ := hf.cut mid rest hmid hne
    rw [Nat.add_assoc, ← List.length_append] at hle
    exact ⟨found, hle, (step mid).trans hcut⟩
  -- The cut is inside of what the first reader takes, or behind it.
  rcases List.append_eq_append_iff.1 he with ⟨mid, hfront, hrest⟩ | ⟨mid, hpart, hback⟩
  · by_cases hmid : mid = []
    · subst hmid
      rw [List.append_nil] at hfront
      exact behind [] hrest (by rw [List.append_nil, hfront])
    · obtain ⟨found, hle, hcut⟩ := hx.cut part mid hfront.symm hmid
      refine ⟨found, hle, ?_⟩
      change (x _).bind _ = _
      rw [hcut]
      rfl
  · exact behind mid hback.symm hpart

/-! ## Delimited readers -/

theorem delimited_pure (a : α) : Delimited (pure a) := by
  rintro c _ _ ⟨⟩
  exact ⟨[], rfl, spans_nil fun _ => rfl⟩

theorem delimited_throw {f : Fault} : Delimited (throw f : Reader α) := by
  rintro c _ _ ⟨⟩

/-- What follows a refusal is not read. -/
theorem delimited_refuse {f : Fault} {g : α → Reader β} :
    Delimited ((throw f : Reader α) >>= g) := by
  rintro c _ _ ⟨⟩

theorem delimited_lift {x : Except Fault α} : Delimited (liftM x) := by
  intro c a c' h
  cases x with
  | error f => cases h
  | ok a =>
    cases h
    exact ⟨[], rfl, spans_nil fun _ => rfl⟩

theorem delimited_offset : Delimited offset := by
  rintro c _ _ ⟨⟩
  exact ⟨[], rfl, spans_nil fun _ => rfl⟩

theorem delimited_bind {x : Reader α} {f : α → Reader β} (hx : Delimited x)
    (hf : ∀ a, Delimited (f a)) : Delimited (x >>= f) := by
  intro c b c' h
  change (x c).bind _ = _ at h
  obtain ⟨⟨a, c₁⟩, hxc, h⟩ := bind_eq_ok.1 h
  obtain ⟨front, hfront, hspan⟩ := hx c a c₁ hxc
  have hc₁ : c₁.offset = c.offset + front.length := by
    have hwhole := hspan.whole c₁.rest
    rw [← hfront] at hwhole
    have hc := Except.ok.inj (hxc.symm.trans hwhole)
    exact congrArg Cursor.offset (Prod.mk.inj hc).2
  obtain ⟨back, hback, hspan'⟩ := hf a c₁ b c' h
  rw [hc₁] at hspan'
  exact ⟨front ++ back, by rw [List.append_assoc, ← hback, hfront], spans_bind hspan hspan'⟩

theorem delimited_ite {c : Prop} [Decidable c] {x y : Reader α} (hx : Delimited x)
    (hy : Delimited y) : Delimited (if c then x else y) := by
  split
  · exact hx
  · exact hy

/-- Taking fails at the start of what it cannot complete. -/
theorem delimited_take (n : Nat) : Delimited (take n) := by
  intro c bs c' h
  unfold take at h
  dsimp only at h
  split at h
  · rename_i hn
    cases h
    refine ⟨c.rest.take n, (List.take_append_drop n c.rest).symm, fun rest => ?_, ?_⟩
    · unfold take
      dsimp only
      rw [List.take_append_of_le_length (Nat.le_of_eq hn.symm),
        List.take_of_length_le (Nat.le_of_eq hn), if_pos hn,
        List.drop_append_of_le_length (Nat.le_of_eq hn.symm),
        List.drop_eq_nil_of_le (Nat.le_of_eq hn), List.nil_append, hn]
    · intro part rest he hne
      refine ⟨c.offset, Nat.le_add_right _ _, ?_⟩
      have hlen : part.length + rest.length = n := by rw [← List.length_append, he, hn]
      have hpos := List.length_pos_of_ne_nil hne
      unfold take
      dsimp only
      rw [List.take_of_length_le (by omega), if_neg (by omega)]
  · cases h

theorem delimited_number (size : Nat) : Delimited (number size) :=
  delimited_bind (delimited_take size) fun _ => delimited_pure _

theorem delimited_u8 : Delimited u8 := delimited_bind (delimited_number 1) fun _ => delimited_pure _

theorem delimited_u16 : Delimited u16 :=
  delimited_bind (delimited_number 2) fun _ => delimited_pure _

theorem delimited_u32 : Delimited u32 :=
  delimited_bind (delimited_number 4) fun _ => delimited_pure _

theorem delimited_u64 : Delimited u64 :=
  delimited_bind (delimited_number 8) fun _ => delimited_pure _

theorem delimited_i32 : Delimited i32 :=
  delimited_bind (delimited_number 4) fun _ => delimited_pure _

theorem delimited_i64 : Delimited i64 :=
  delimited_bind (delimited_number 8) fun _ => delimited_pure _

/-- An index into the pool, and what it leads to. -/
theorem delimited_lookup (find : UInt16 → Except Fault α) :
    Delimited (do find (← u16) : Reader α) :=
  delimited_bind delimited_u16 fun _ => delimited_lift

theorem delimited_timesFrom {item : Reader α} (h : Delimited item) (read : List α) (n : Nat) :
    Delimited (timesFrom item read n) := by
  induction n generalizing read with
  | zero => exact delimited_pure _
  | succ n ih => exact delimited_bind h fun a => ih (a :: read)

theorem delimited_times {item : Reader α} (h : Delimited item) (n : Nat) :
    Delimited (times n item) := delimited_timesFrom h [] n

theorem delimited_counted {item : Reader α} (h : Delimited item) : Delimited (counted item) :=
  delimited_bind delimited_u16 fun n => delimited_times h n.toNat

/-- The bytes of a part are taken before they are looked at, so any reader may
read them. -/
theorem delimited_within (size : Nat) (body : Reader α) : Delimited (within size body) :=
  delimited_bind delimited_offset fun _ => delimited_bind (delimited_take size) fun _ =>
    delimited_bind delimited_lift fun _ => delimited_pure _

end Reader

open Reader

/-! ## The parts of a container -/

namespace Pool

theorem delimited_readText : Delimited readText := by
  unfold readText
  refine delimited_bind delimited_u16 fun n => delimited_bind (delimited_take _) fun bytes => ?_
  split
  · exact delimited_pure _
  · exact delimited_throw

theorem delimited_readPair (f : UInt16 → UInt16 → Entry) : Delimited (readPair f) :=
  delimited_bind delimited_u16 fun _ => delimited_bind delimited_u16 fun _ => delimited_pure _

theorem delimited_readEntry : Delimited readEntry := by
  unfold readEntry
  refine delimited_bind delimited_offset fun start => delimited_bind delimited_u8 fun tag => ?_
  refine delimited_ite (delimited_bind delimited_readText fun _ => delimited_pure _) ?_
  refine delimited_ite (delimited_bind delimited_i32 fun _ => delimited_pure _) ?_
  refine delimited_ite (delimited_bind delimited_u32 fun _ => delimited_pure _) ?_
  refine delimited_ite (delimited_bind delimited_i64 fun _ => delimited_pure _) ?_
  refine delimited_ite (delimited_bind delimited_u64 fun _ => delimited_pure _) ?_
  refine delimited_ite (delimited_bind delimited_u16 fun _ => delimited_pure _) ?_
  refine delimited_ite (delimited_bind delimited_u16 fun _ => delimited_pure _) ?_
  refine delimited_ite (delimited_readPair _) (delimited_ite (delimited_readPair _) ?_)
  exact delimited_ite (delimited_readPair _) (delimited_ite (delimited_readPair _) delimited_throw)

theorem delimited_read : Delimited Pool.read :=
  delimited_bind delimited_u16 fun _ =>
    delimited_bind (delimited_times delimited_readEntry _) fun _ => delimited_pure _

end Pool

namespace CodeBody

theorem delimited_readRange (pool : Pool) : Delimited (readRange pool) :=
  delimited_bind delimited_u16 fun _ => delimited_bind delimited_u16 fun _ =>
    delimited_bind delimited_u16 fun _ => delimited_bind delimited_u16 fun _ =>
      delimited_bind delimited_lift fun _ => delimited_pure _

theorem delimited_readLocal (pool : Pool) : Delimited (readLocal pool) :=
  delimited_bind delimited_u16 fun _ => delimited_bind delimited_u16 fun _ =>
    delimited_bind delimited_u16 fun _ => delimited_bind delimited_lift fun _ =>
      delimited_bind delimited_u16 fun _ => delimited_bind delimited_lift fun _ =>
        delimited_bind delimited_u16 fun _ => delimited_pure _

theorem delimited_readLine : Delimited readLine :=
  delimited_bind delimited_u16 fun _ => delimited_bind delimited_u16 fun _ => delimited_pure _

theorem delimited_read (pool : Pool) (signature : String) :
    Delimited (CodeBody.read pool signature) := by
  unfold CodeBody.read
  refine delimited_bind delimited_u16 fun maxStack => ?_
  refine delimited_bind delimited_u16 fun maxLocals => ?_
  refine delimited_bind delimited_u32 fun size => ?_
  dsimp only
  split
  · exact delimited_refuse
  refine delimited_bind (delimited_within _ _) fun insns => ?_
  refine delimited_bind (delimited_counted (delimited_readRange pool)) fun ranges => ?_
  refine delimited_bind (delimited_counted (delimited_readLocal pool)) fun locals => ?_
  exact delimited_bind (delimited_counted delimited_readLine) fun lines => delimited_pure _

end CodeBody

theorem Field.delimited_read (pool : Pool) : Delimited (Field.read pool) := by
  unfold Field.read
  refine delimited_bind delimited_u16 fun access => ?_
  refine delimited_bind delimited_u16 fun _ => delimited_bind delimited_lift fun name => ?_
  refine delimited_bind delimited_u16 fun _ => delimited_bind delimited_lift fun desc => ?_
  refine delimited_bind delimited_lift fun _ => delimited_bind delimited_u8 fun flag => ?_
  split
  · exact delimited_pure _
  · exact delimited_bind delimited_u16 fun _ => delimited_bind delimited_lift fun _ =>
      delimited_pure _

namespace Method

/-- The places of a body are checked once all of it is read. -/
theorem delimited_readBody (pool : Pool) (m : Method) : Delimited (m.readBody pool) :=
  delimited_bind (CodeBody.delimited_read pool _) fun _ =>
    delimited_bind delimited_lift fun _ => delimited_pure _

theorem delimited_read (pool : Pool) : Delimited (Method.read pool) := by
  unfold Method.read
  refine delimited_bind delimited_u16 fun access => ?_
  refine delimited_bind delimited_u16 fun _ => delimited_bind delimited_lift fun name => ?_
  refine delimited_bind delimited_u16 fun _ => delimited_bind delimited_lift fun desc => ?_
  refine delimited_bind delimited_lift fun _ => ?_
  refine delimited_bind (delimited_counted (delimited_lookup pool.className)) fun exceptions => ?_
  refine delimited_bind delimited_u8 fun flag => ?_
  split
  · exact delimited_pure _
  · exact delimited_readBody pool _

end Method

namespace Class

theorem delimited_readHeader : Delimited readHeader := by
  unfold readHeader
  refine delimited_bind delimited_u32 fun magic => ?_
  dsimp only
  split
  · exact delimited_refuse
  refine delimited_bind delimited_u16 fun major => delimited_bind delimited_u16 fun minor => ?_
  split
  · exact delimited_refuse
  · exact delimited_pure _

theorem delimited_read : Delimited Class.read := by
  unfold Class.read
  refine delimited_bind delimited_readHeader fun v => ?_
  refine delimited_bind Pool.delimited_read fun pool => ?_
  refine delimited_bind delimited_u16 fun access => ?_
  refine delimited_bind delimited_u16 fun _ => delimited_bind delimited_lift fun name => ?_
  refine delimited_bind delimited_u16 fun _ => delimited_bind delimited_lift fun superName => ?_
  refine delimited_bind (delimited_counted (delimited_lookup pool.className)) fun interfaces => ?_
  refine delimited_bind (delimited_counted (Field.delimited_read pool)) fun fields => ?_
  exact delimited_bind (delimited_counted (Method.delimited_read pool)) fun methods =>
    delimited_pure _

/-! ## Whole containers -/

/-- What decodes is spanned by the reader up to its last byte. -/
theorem spans_of_decode {bytes : List UInt8} {c : Class} (h : decode bytes = .ok c) :
    Spans Class.read 0 bytes c := by
  unfold decode at h
  obtain ⟨⟨d, last⟩, hread, h⟩ := bind_eq_ok.1 h
  obtain ⟨front, hfront, hspan⟩ := delimited_read _ _ _ hread
  change (if last.rest.isEmpty then .ok d else throw (Fault.trailingBytes last.rest.length)) =
    (.ok c : Except Fault Class) at h
  split at h
  · rename_i hempty
    cases h
    rw [List.isEmpty_iff.1 hempty, List.append_nil] at hfront
    rwa [← hfront] at hspan
  · cases h

/-- No other end makes a container of the same bytes: cut short it is refused
for its end, and followed by more bytes it is refused for those. -/
theorem decode_is_self_delimiting {bytes : List UInt8} {c : Class} (h : decode bytes = .ok c) :
    (∀ part, part <+: bytes → part ≠ bytes →
      ∃ found ≤ part.length, decode part = .error (.endOfInput found)) ∧
    ∀ more ≠ [], decode (bytes ++ more) = .error (.trailingBytes more.length) := by
  have hspan := spans_of_decode h
  refine ⟨?_, fun more hmore => ?_⟩
  · rintro part ⟨rest, hpart⟩ hne
    have hrest : rest ≠ [] := by
      rintro rfl
      exact hne (by rw [← hpart, List.append_nil])
    obtain ⟨found, hle, hcut⟩ := hspan.cut part rest hpart hrest
    refine ⟨found, by rwa [Nat.zero_add] at hle, ?_⟩
    unfold decode
    rw [hcut]
    rfl
  · unfold decode
    rw [hspan.whole more]
    change (if more.isEmpty then _ else _) = _
    rw [if_neg (by rwa [List.isEmpty_iff])]
    rfl

end Class

/-- A body that chooses by a table, under a handler and with a line. -/
def CodeBody.choosing : CodeBody where
  maxStack := 1
  maxLocals := 0
  size := 21
  insns := [(0, .simple .ICONST_0), (1, .tableSwitch 0 20 [0]), (20, .simple .RETURN)]
  ranges := [⟨0, 20, 20, none⟩]
  locals := []
  lines := [(20, 7)]

def choosingMethod : List UInt8 :=
  [0, 9, 0, 3, 0, 4, 0, 0, 1, 0, 1, 0, 0, 0, 0, 0, 21, 3, 170, 0, 0, 0, 0, 0, 19, 0, 0, 0, 0, 0, 0,
   0, 0, 255, 255, 255, 255, 177, 0, 1, 0, 0, 0, 20, 0, 20, 0, 0, 0, 0, 0, 1, 0, 20, 0, 7]

/-- The bytes of a class "A" whose method "m" chooses by a table. -/
def choosingBytes : List UInt8 := hollowHead ++ 0 :: 1 :: choosingMethod

namespace CodeBody
open Reader

theorem sound_choosing : choosing.Sound := by
  refine ⟨?_, by decide, by decide, by decide, by decide, nofun, by decide⟩
  intro i hi
  simp only [choosing, List.mem_cons, List.not_mem_nil, or_false] at hi
  rcases hi with rfl | rfl | rfl
  · exact ⟨rfl, nofun, rfl⟩
  · exact ⟨rfl, nofun, trivial⟩
  · exact ⟨rfl, nofun, rfl⟩

theorem sweeps_choosing : Sweeps hollowPool 0
    [3, 170, 0, 0, 0, 0, 0, 19, 0, 0, 0, 0, 0, 0, 0, 0, 255, 255, 255, 255, 177] choosing.insns := by
  have hpush : Reads (Instruction.read hollowPool 0) [3] (.simple .ICONST_0) :=
    reads_head 3 (reads_pure _)
  have hswitch : Reads (Instruction.read hollowPool 1)
      [170, 0, 0, 0, 0, 0, 19, 0, 0, 0, 0, 0, 0, 0, 0, 255, 255, 255, 255]
      (.tableSwitch 0 20 [0]) := by
    have hplaced : Instruction.Placed 1 false id (.tableSwitch 0 20 [0]) :=
      ⟨by decide, by decide, nofun, nofun⟩
    have hread := @Instruction.reads_tableSwitch hollowPool 1 0 false id 0 20 [0] rfl hplaced
    exact hread.congr (by decide +kernel)
  have hreturn : Reads (Instruction.read hollowPool 20) [177] (.simple .RETURN) :=
    reads_head 177 (reads_pure _)
  exact .cons hpush (by decide) (.cons hswitch (by decide) (.cons hreturn (by decide) (.nil 21)))

theorem reads_choosing : Reads (read hollowPool "m()V") (choosingMethod.drop 9) choosing := by
  have hline : Reads readLine [0, 20, 0, 7] (20, 7) :=
    reads_bind (reads_u16 20) (reads_map (reads_u16 7) (reads_pure _))
  apply Reads.congr
  · apply reads_bind (reads_u16 1)
    apply reads_bind (reads_u16 0)
    apply reads_bind (reads_u32 21)
    rw [if_neg (by decide)]
    apply reads_bind (reads_sweep sweeps_choosing rfl)
    apply reads_bind (reads_counted (by decide) (.cons (reads_catchAll rfl 0 20 20) .nil))
    apply reads_bind (reads_counted (by decide) .nil)
    exact reads_map (reads_counted (by decide) (.cons hline .nil)) (reads_pure _)
  · rfl

end CodeBody

namespace Class

/-- Cut inside of its switch or of its table of lines, or with two bytes more. -/
theorem choosing_is_self_delimiting :
    decode choosingBytes = .ok { name := "A", methods := [CodeBody.choosing.alone] } ∧
    (∃ found ≤ 64, decode (choosingBytes.take 64) = .error (.endOfInput found)) ∧
    (∃ found ≤ 92, decode (choosingBytes.take 92) = .error (.endOfInput found)) ∧
    decode (choosingBytes ++ [0, 0]) = .error (.trailingBytes 2) := by
  have hmethod := CodeBody.sound_choosing.reads_alone rfl rfl CodeBody.reads_choosing
  have hmethods := Reader.reads_counted (by decide) (.cons hmethod .nil)
  have h : decode choosingBytes = .ok { name := "A", methods := [CodeBody.choosing.alone] } :=
    decode_hollowHead (hmethods.congr (by decide +kernel))
  obtain ⟨hcut, hmore⟩ := decode_is_self_delimiting h
  exact ⟨h, hcut (choosingBytes.take 64) (List.take_prefix ..) (by decide +kernel),
    hcut (choosingBytes.take 92) (List.take_prefix ..) (by decide +kernel), hmore [0, 0] (by decide)⟩

end Class

end ClassPatch
