-- A pool under construction and the pool that is read from its bytes. An
-- index keeps its meaning while the pool grows, and every entry reads back.
import ClassPatch.Container.PoolBuilder
import ClassPatch.Proofs.Contents
import ClassPatch.Proofs.Framing
import ClassPatch.Proofs.Texts
import Mathlib.Data.List.Forall2

namespace ClassPatch

/-! ## Looking up -/

namespace Pool

variable {p : Pool} {i : UInt16}

theorem entry_of_has {e : Entry} (h : p.Has i e) : p.entry i = .ok e := by
  unfold entry
  rw [if_neg h.1, h.2]

theorem utf8_of_has {s : String} (h : p.Has i (.utf8 s)) : p.utf8 i = .ok s := by
  unfold utf8
  rw [entry_of_has h]
  rfl

theorem className_of_has {name : UInt16} {s : String} (h : p.Has i (.classRef name))
    (hn : p.Has name (.utf8 s)) : p.className i = .ok s := by
  unfold className
  rw [entry_of_has h]
  exact utf8_of_has hn

theorem className?_of_ok {s : String} (hi : i ≠ 0) (h : p.className i = .ok s) :
    p.className? i = .ok (some s) := by
  unfold className?
  rw [if_neg hi, h]
  rfl

theorem member_of_ok {owner nt : UInt16} {m : MemberRef} (ho : p.className owner = .ok m.owner)
    (hn : p.nameAndType nt = .ok (m.name, m.desc)) (interface : Bool) :
    p.member owner nt interface = .ok { m with interface } := by
  unfold member
  rw [hn]
  change (p.className owner).bind _ = _
  rw [ho]
  rfl

end Pool

namespace PoolBuilder

/-! ## Growing -/

/-- Every entry of the builder is one of the pool, under the same index. -/
def Within (b : PoolBuilder) (p : Pool) : Prop :=
  ∀ (k : Nat) (e : Entry), b.entries[k]? = some e → p.entries[k]? = some e

/-- The index is about the entries, which all fit where they are counted. -/
structure Valid (b : PoolBuilder) : Prop where
  found : ∀ (e : Entry) (i : UInt16), b.index[e]? = some i →
    i ≠ 0 ∧ b.entries[i.toNat - 1]? = some e
  count : b.entries.size ≤ maxEntries
  texts : ∀ s, .utf8 s ∈ b.entries → s.utf8ByteSize ≤ 65535

theorem valid_empty : ({} : PoolBuilder).Valid := ⟨by simp, by decide, by simp⟩

/-- The builder computes something whose meaning, in any pool that has
the entries made so far, is as `q` says. -/
def Builds {α : Type} (x : Builder α) (q : Pool → α → Prop) : Prop :=
  ∀ b a b', b.Valid → x b = .ok (a, b') →
    b'.Valid ∧ ∀ p, b'.Within p → b.Within p ∧ q p a

variable {α β : Type}

theorem builds_pure {a : α} {q : Pool → α → Prop} (h : ∀ p, q p a) : Builds (pure a) q := by
  rintro b _ _ hb ⟨⟩
  exact ⟨hb, fun p hp => ⟨hp, h p⟩⟩

theorem builds_throw {f : Fault} {q : Pool → α → Prop} : Builds (throw f) q := by
  rintro b _ _ _ ⟨⟩

theorem builds_lift {x : Except Fault α} {q : Pool → α → Prop} (h : ∀ a, x = .ok a → ∀ p, q p a) :
    Builds (liftM x) q := by
  intro b a b' hb hx
  cases x with
  | error f => cases hx
  | ok a =>
    cases hx
    exact ⟨hb, fun p hp => ⟨hp, h a rfl p⟩⟩

theorem builds_bind {x : Builder α} {f : α → Builder β} {q : Pool → α → Prop}
    {r : Pool → β → Prop} (hx : Builds x q)
    (hf : ∀ a, Builds (f a) fun p c => q p a → r p c) : Builds (x >>= f) r := by
  intro b c b' hb h
  change (x b).bind _ = _ at h
  obtain ⟨⟨a, b₁⟩, hxb, h⟩ := bind_eq_ok.1 h
  obtain ⟨hb₁, h₁⟩ := hx b a b₁ hb hxb
  obtain ⟨hb', h₂⟩ := hf a b₁ c b' hb₁ h
  refine ⟨hb', fun p hp => ?_⟩
  obtain ⟨hp₁, hr⟩ := h₂ p hp
  exact ⟨(h₁ p hp₁).1, hr (h₁ p hp₁).2⟩

theorem Builds.imp {x : Builder α} {q r : Pool → α → Prop} (h : Builds x q)
    (hqr : ∀ p a, q p a → r p a) : Builds x r := by
  intro b a b' hb hx
  obtain ⟨hb', hq⟩ := h b a b' hb hx
  exact ⟨hb', fun p hp => ⟨(hq p hp).1, hqr p a (hq p hp).2⟩⟩

theorem builds_mapM {f : α → Builder β} {q : Pool → α → β → Prop} {xs : List α}
    (h : ∀ x ∈ xs, Builds (f x) fun p y => q p x y) :
    Builds (xs.mapM f) fun p ys => List.Forall₂ (q p) xs ys := by
  induction xs with
  | nil => exact builds_pure fun _ => .nil
  | cons x xs ih =>
    rw [List.mapM_cons]
    refine builds_bind (h x (List.mem_cons_self ..)) fun y => ?_
    refine builds_bind (ih fun z hz => h z (List.mem_cons_of_mem _ hz)) fun ys => ?_
    exact builds_pure fun p hys hy => .cons hy hys

/-! ## Entries -/

/-- The builder with one more entry, under the next index. -/
def add (b : PoolBuilder) (e : Entry) : PoolBuilder :=
  ⟨b.entries.push e, b.index.insert e (UInt16.ofNat (b.entries.size + 1))⟩

/-- An entry has its index already, or there is room for it and it gets the next one. -/
theorem intern_ok {e : Entry} {b b' : PoolBuilder} {i : UInt16} :
    intern e b = .ok (i, b') ↔ b.index[e]? = some i ∧ b' = b ∨
      b.index[e]? = none ∧ b.entries.size < maxEntries ∧
        i = UInt16.ofNat (b.entries.size + 1) ∧ b' = b.add e := by
  unfold intern
  cases b.index[e]? with
  | some j =>
    constructor
    · rintro ⟨⟩
      exact .inl ⟨rfl, rfl⟩
    · rintro (⟨⟨⟩, rfl⟩ | ⟨⟨⟩, _⟩)
      rfl
  | none =>
    dsimp only
    split
    · rename_i hsize
      constructor
      · rintro ⟨⟩
        exact .inr ⟨rfl, hsize, rfl, rfl⟩
      · rintro (⟨⟨⟩, _⟩ | ⟨_, _, rfl, rfl⟩)
        rfl
    · rename_i hsize
      refine ⟨nofun, ?_⟩
      rintro (⟨⟨⟩, _⟩ | ⟨_, h, _⟩)
      exact absurd h hsize

section
variable {b : PoolBuilder} {e : Entry}

/-- The entries that there were keep their places. -/
theorem getElem?_add {k : Nat} {d : Entry} (h : b.entries[k]? = some d) :
    (b.add e).entries[k]? = some d := by
  have hlt := (Array.getElem?_eq_some_iff.1 h).1
  rw [add, Array.getElem?_push_lt hlt, ← h, Array.getElem?_eq_getElem hlt]

/-- The new entry is under the index that it gets. -/
theorem found_add (hsize : b.entries.size < maxEntries) :
    UInt16.ofNat (b.entries.size + 1) ≠ 0 ∧
      (b.add e).entries[(UInt16.ofNat (b.entries.size + 1)).toNat - 1]? = some e := by
  have hnat : (UInt16.ofNat (b.entries.size + 1)).toNat = b.entries.size + 1 :=
    UInt16.toNat_ofNat_of_lt' (Nat.lt_of_lt_of_le (Nat.succ_lt_succ hsize) (by decide))
  constructor
  · intro h0
    rw [h0] at hnat
    exact absurd hnat (by simp)
  · rw [hnat, Nat.add_sub_cancel]
    exact Array.getElem?_push_size

theorem Valid.add (hb : b.Valid) (hsize : b.entries.size < maxEntries)
    (he : ∀ s, e = .utf8 s → s.utf8ByteSize ≤ 65535) : (b.add e).Valid := by
  refine ⟨?_, ?_, ?_⟩
  · intro d i hd
    rw [PoolBuilder.add, Std.HashMap.getElem?_insert] at hd
    split at hd
    · rename_i hde
      cases hd
      rw [beq_iff_eq] at hde
      exact hde ▸ found_add hsize
    · obtain ⟨hi, hget⟩ := hb.found d i hd
      exact ⟨hi, getElem?_add hget⟩
  · rw [PoolBuilder.add, Array.size_push]
    exact hsize
  · intro s hs
    rcases Array.mem_push.1 hs with hs | hs
    · exact hb.texts s hs
    · exact he s hs.symm

end

theorem builds_intern {e : Entry} (he : ∀ s, e = .utf8 s → s.utf8ByteSize ≤ 65535) :
    Builds (intern e) fun p i => p.Has i e := by
  intro b i b' hb h
  rcases intern_ok.1 h with ⟨hi, rfl⟩ | ⟨_, hsize, rfl, rfl⟩
  · obtain ⟨hne, hget⟩ := hb.found e i hi
    exact ⟨hb, fun p hp => ⟨hp, hne, hp _ _ hget⟩⟩
  · obtain ⟨hne, hget⟩ := found_add hsize
    exact ⟨hb.add hsize he,
      fun p hp => ⟨fun k d hk => hp k d (getElem?_add hk), hne, hp _ _ hget⟩⟩

theorem builds_utf8 (s : String) : Builds (utf8 s) fun p i => p.Has i (.utf8 s) := by
  unfold utf8
  split
  · rename_i hs
    exact builds_intern (by rintro _ ⟨⟩; exact hs)
  · exact builds_throw

theorem builds_className (name : String) :
    Builds (className name) fun p i => i ≠ 0 ∧ p.className i = .ok name := by
  refine builds_bind (builds_utf8 name) fun n => ?_
  exact (builds_intern (by rintro _ ⟨⟩)).imp fun p i hi hn => ⟨hi.1, Pool.className_of_has hi hn⟩

theorem builds_className? (name : Option String) :
    Builds (className? name) fun p i => p.className? i = .ok name := by
  cases name with
  | none => exact builds_pure fun _ => rfl
  | some name => exact (builds_className name).imp fun p i hi => Pool.className?_of_ok hi.1 hi.2

theorem builds_nameAndType (name desc : String) :
    Builds (nameAndType name desc) fun p i => p.nameAndType i = .ok (name, desc) := by
  refine builds_bind (builds_utf8 name) fun n => builds_bind (builds_utf8 desc) fun d => ?_
  refine (builds_intern (by rintro _ ⟨⟩)).imp fun p i hi hd hn => ?_
  unfold Pool.nameAndType
  rw [Pool.entry_of_has hi]
  change (p.utf8 n).bind _ = _
  rw [Pool.utf8_of_has hn]
  change (p.utf8 d).bind _ = _
  rw [Pool.utf8_of_has hd]
  rfl

theorem builds_field (m : MemberRef) :
    Builds (field m) fun p i => p.field i = .ok { m with interface := false } := by
  refine builds_bind (builds_className m.owner) fun owner => ?_
  refine builds_bind (builds_nameAndType m.name m.desc) fun nt => ?_
  refine (builds_intern (by rintro _ ⟨⟩)).imp fun p i hi hn ho => ?_
  unfold Pool.field
  rw [Pool.entry_of_has hi]
  exact Pool.member_of_ok ho.2 hn false

theorem builds_method (m : MemberRef) : Builds (method m) fun p i => p.method i = .ok m := by
  refine builds_bind (builds_className m.owner) fun owner => ?_
  refine builds_bind (builds_nameAndType m.name m.desc) fun nt => ?_
  refine (builds_intern (by intro s hs; split at hs <;> cases hs)).imp fun p i hi hn ho => ?_
  unfold Pool.method
  rw [Pool.entry_of_has hi]
  obtain ⟨o, n, d, f⟩ := m
  cases f <;> exact Pool.member_of_ok ho.2 hn _

theorem builds_constant (c : Constant) :
    Builds (constant c) fun p i => p.constant i = .ok c := by
  have plain : ∀ {e : Entry} {c : Constant}, (∀ s, e ≠ .utf8 s) →
      (∀ p : Pool, ∀ i, p.entry i = .ok e → p.constant i = .ok c) →
      Builds (intern e) fun p i => p.constant i = .ok c := fun he hc =>
    (builds_intern fun s hs => absurd hs (he s)).imp fun p i hi => hc p i (Pool.entry_of_has hi)
  cases c with
  | string s =>
    refine builds_bind (builds_utf8 s) fun n => ?_
    refine (builds_intern (by rintro _ ⟨⟩)).imp fun p i hi hn => ?_
    unfold Pool.constant
    rw [Pool.entry_of_has hi]
    change (p.utf8 n).bind _ = _
    rw [Pool.utf8_of_has hn]
    rfl
  | classRef name =>
    refine builds_bind (builds_utf8 name) fun n => ?_
    refine (builds_intern (by rintro _ ⟨⟩)).imp fun p i hi hn => ?_
    unfold Pool.constant
    rw [Pool.entry_of_has hi]
    change (p.utf8 n).bind _ = _
    rw [Pool.utf8_of_has hn]
    rfl
  | _ =>
    refine plain (by rintro _ ⟨⟩) fun p i hi => ?_
    unfold Pool.constant
    rw [hi]
    rfl

end PoolBuilder

/-! ## Reading back -/

namespace Pool
open Reader

theorem reads_readText {s : String} (h : s.utf8ByteSize ≤ 65535) :
    Reads readText (bytesOf 2 (Utf8.encode s).length ++ Utf8.encode s) s := by
  have hlen : (Utf8.encode s).length < 65536 := by
    rw [Utf8.length_encode]
    exact Nat.lt_succ_of_le h
  refine reads_bind (reads_u16_of_lt hlen) (reads_map (reads_take ?_) ?_)
  · rw [UInt16.toNat_ofNat_of_lt' hlen]
  · rw [Utf8.decode_encode]
    exact reads_pure s

theorem reads_readPair (f : UInt16 → UInt16 → Entry) (a b : UInt16) :
    Reads (readPair f) (bytesOf 2 a.toNat ++ bytesOf 2 b.toNat) (f a b) :=
  reads_bind (reads_u16 a) (reads_map (reads_u16 b) (reads_pure _))

/-- Every entry reads back, whatever follows it. -/
theorem reads_readEntry {e : Entry} (he : ∀ s, e = .utf8 s → s.utf8ByteSize ≤ 65535) :
    Reads readEntry e.bytes e := by
  refine reads_offset fun start => reads_head e.tag ?_
  cases e with
  | utf8 s => exact reads_map (reads_readText (he s rfl)) (reads_pure _)
  | int v => exact reads_map (reads_int v) (reads_pure _)
  | float bits => exact reads_map (reads_u32 bits) (reads_pure _)
  | long v => exact reads_map (reads_long v) (reads_pure _)
  | double bits => exact reads_map (reads_u64 bits) (reads_pure _)
  | classRef i => exact reads_map (reads_u16 i) (reads_pure _)
  | string i => exact reads_map (reads_u16 i) (reads_pure _)
  | fieldRef a b => exact reads_readPair .fieldRef a b
  | methodRef a b => exact reads_readPair .methodRef a b
  | interfaceMethodRef a b => exact reads_readPair .interfaceMethodRef a b
  | nameAndType a b => exact reads_readPair .nameAndType a b

/-- The pool that was built reads back from its bytes. -/
theorem reads_read {b : PoolBuilder} (h : b.Valid) : Reads Pool.read b.bytes ⟨b.entries⟩ := by
  have hcount : b.entries.size + 1 < 65536 := by
    have := h.count
    unfold PoolBuilder.maxEntries at this
    omega
  have hentries : List.Forall₂ (Reads readEntry) (b.entries.toList.map Entry.bytes)
      b.entries.toList := by
    rw [List.forall₂_map_left_iff, List.forall₂_same]
    exact fun e he => reads_readEntry fun s hs => h.texts s (hs ▸ Array.mem_toList_iff.1 he)
  refine reads_bind (reads_u16_of_lt hcount) ?_
  rw [List.flatMap_def]
  refine reads_map (reads_times ?_ hentries) (reads_pure _)
  rw [UInt16.toNat_ofNat_of_lt' hcount, Array.length_toList]
  rfl

end Pool

end ClassPatch
