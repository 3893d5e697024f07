-- A pool that is built again from what another pool holds. Each content is
-- interned once, so the new pool is no longer than the old one and never
-- overflows; and no text of it is longer than those that were read.
import ClassPatch.Proofs.Pools
import ClassPatch.Proofs.Writing

namespace ClassPatch.PoolBuilder

/-- The entries of the builder as a pool. -/
def pool (b : PoolBuilder) : Pool := ⟨b.entries⟩

/-- Each entry stands once, and the index knows all of them. -/
structure Complete (b : PoolBuilder) : Prop where
  known : ∀ e ∈ b.entries, ∃ i, b.index[e]? = some i
  distinct : b.entries.toList.Nodup

theorem complete_empty : ({} : PoolBuilder).Complete :=
  ⟨fun _ h => absurd h (Array.not_mem_empty _), List.nodup_nil⟩

theorem Complete.not_mem {b : PoolBuilder} {e : Entry} (h : b.Complete)
    (he : b.index[e]? = none) : e ∉ b.entries := by
  intro hin
  obtain ⟨i, hi⟩ := h.known e hin
  rw [he] at hi
  cases hi

theorem Complete.add {b : PoolBuilder} {e : Entry} (h : b.Complete) (he : e ∉ b.entries) :
    (b.add e).Complete := by
  constructor
  · intro d hd
    rw [PoolBuilder.add, Std.HashMap.getElem?_insert]
    split
    · exact ⟨_, rfl⟩
    · rename_i hne
      rcases Array.mem_push.1 hd with hd | rfl
      · exact h.known d hd
      · exact absurd (beq_self_eq_true d) hne
  · rw [PoolBuilder.add, Array.toList_push, List.nodup_append]
    refine ⟨h.distinct, List.nodup_singleton e, ?_⟩
    intro a ha d hd had
    rw [List.mem_singleton.1 hd] at had
    exact he (had ▸ Array.mem_toList_iff.1 ha)

/-- Everything in the builder has its content from the pool, and the index
knows all of it. -/
structure Backed (p : Pool) (b : PoolBuilder) : Prop where
  valid : b.Valid
  known : ∀ e ∈ b.entries, ∃ i, b.index[e]? = some i
  distinct : b.entries.toList.Nodup
  held : ∀ e ∈ b.entries, ∃ c, b.pool.Stands e c ∧ p.Holds c

theorem backed_empty (p : Pool) : Backed p {} :=
  ⟨valid_empty, complete_empty.known, complete_empty.distinct,
    fun _ h => absurd h (Array.not_mem_empty _)⟩

theorem within_pool (b : PoolBuilder) : b.Within b.pool := fun _ _ h => h

variable {p : Pool} {b : PoolBuilder}

theorem Backed.complete (hb : Backed p b) : b.Complete := ⟨hb.known, hb.distinct⟩

/-- There is room for one more entry with a content that the pool holds. -/
theorem Backed.room {e : Entry} {c : Content} (hp : p.Modest) (hb : Backed p b)
    (hs : b.pool.Stands e c) (hc : p.Holds c) (he : e ∉ b.entries) :
    b.entries.size < maxEntries := by
  have hes : (e :: b.entries.toList).Nodup :=
    List.nodup_cons.2 ⟨fun h => he (Array.mem_toList_iff.1 h), hb.distinct⟩
  have hle := Pool.length_le_of_holds (p := b.pool) (q := p) hb.distinct hes fun a ha => by
    rcases List.mem_cons.1 ha with rfl | ha
    · exact ⟨c, hs, hc⟩
    · exact hb.held a (Array.mem_toList_iff.1 ha)
  rw [List.length_cons, Array.length_toList] at hle
  exact Nat.lt_of_lt_of_le hle hp.count

/-- A new entry with a content that the pool holds keeps the builder backed. -/
theorem Backed.add {e : Entry} {c : Content} (hb : Backed p b) (he : e ∉ b.entries)
    (hvalid : (b.add e).Valid) (hs : b.pool.Stands e c) (hc : p.Holds c) : Backed p (b.add e) := by
  have hmono : ∀ {d c}, b.pool.Stands d c → (b.add e).pool.Stands d c := fun h =>
    h.mono fun i d hd => ⟨hd.1, getElem?_add hd.2⟩
  have hadd := hb.complete.add he
  refine ⟨hvalid, hadd.known, hadd.distinct, ?_⟩
  intro d hd
  rcases Array.mem_push.1 hd with hd | rfl
  · obtain ⟨c, hc, hpc⟩ := hb.held d hd
    exact ⟨c, hmono hc, hpc⟩
  · exact ⟨c, hmono hs, hc⟩

/-- An entry with a content that the pool holds always gets an index. -/
theorem Backed.intern {e : Entry} {c : Content} (hp : p.Modest) (hb : Backed p b)
    (hs : b.pool.Stands e c) (hc : p.Holds c) :
    ∃ i b', intern e b = .ok (i, b') ∧ Backed p b' := by
  cases hi : b.index[e]? with
  | some i => exact ⟨i, b, intern_ok.2 (.inl ⟨hi, rfl⟩), hb⟩
  | none =>
    have hnew := hb.complete.not_mem hi
    have hroom := hb.room hp hs hc hnew
    have htexts : ∀ s, e = .utf8 s → s.utf8ByteSize ≤ 65535 := by
      rintro s rfl
      cases hs
      obtain ⟨i, d, hd, hds⟩ := hc
      cases hds
      exact hp.texts s hd.mem
    exact ⟨_, _, intern_ok.2 (.inr ⟨hi, hroom, rfl, rfl⟩),
      hb.add hnew (hb.valid.add hroom htexts) hs hc⟩

/-! ## What the pool holds is always there -/

/-- The computation always has a result and leaves the builder backed. -/
def Supplied {α : Type} (p : Pool) (x : Builder α) : Prop :=
  ∀ b, Backed p b → ∃ a b', x b = .ok (a, b') ∧ Backed p b'

theorem supplied_utf8 (hp : p.Modest) {s : String} (h : p.Holds (.utf8 s)) :
    Supplied p (utf8 s) := by
  intro b hb
  unfold utf8
  obtain ⟨i, e, he, hs⟩ := id h
  cases hs
  rw [if_pos (hp.texts s he.mem)]
  exact hb.intern hp (.utf8 s) h

theorem supplied_className (hp : p.Modest) {name : String}
    (h : p.Holds (.loadable (.classRef name))) : Supplied p (className name) := by
  intro b hb
  obtain ⟨n, b₁, h₁, hb₁⟩ := supplied_utf8 hp h.className b hb
  have hn := ((builds_utf8 name b n b₁ hb.valid h₁).2 _ (within_pool b₁)).2
  obtain ⟨i, b₂, h₂, hb₂⟩ := hb₁.intern hp (.classRef hn) h
  exact ⟨i, b₂, bind_ok.2 ⟨n, b₁, h₁, h₂⟩, hb₂⟩

theorem supplied_nameAndType (hp : p.Modest) {name desc : String}
    (h : p.Holds (.nameAndType name desc)) : Supplied p (nameAndType name desc) := by
  intro b hb
  obtain ⟨n, b₁, h₁, hb₁⟩ := supplied_utf8 hp h.nameAndType.1 b hb
  obtain ⟨d, b₂, h₂, hb₂⟩ := supplied_utf8 hp h.nameAndType.2 b₁ hb₁
  obtain ⟨hw, hd⟩ := (builds_utf8 desc b₁ d b₂ hb₁.valid h₂).2 _ (within_pool b₂)
  have hn := ((builds_utf8 name b n b₁ hb.valid h₁).2 _ hw).2
  obtain ⟨i, b₃, h₃, hb₃⟩ := hb₂.intern hp (.nameAndType hn hd) h
  exact ⟨i, b₃, bind_ok.2 ⟨n, b₁, h₁, bind_ok.2 ⟨d, b₂, h₂, h₃⟩⟩, hb₃⟩

/-- The owner and the name of a member, and then an entry for both. -/
theorem supplied_member (hp : p.Modest) {m : MemberRef} {c : Content}
    {entry : UInt16 → UInt16 → Entry} (hc : p.Holds c)
    (howner : p.Holds (.loadable (.classRef m.owner)))
    (hname : p.Holds (.nameAndType m.name m.desc))
    (hs : ∀ {q : Pool} {i j : UInt16}, q.Leads i (.loadable (.classRef m.owner)) →
      q.Leads j (.nameAndType m.name m.desc) → q.Stands (entry i j) c) :
    Supplied p (do
      let owner ← className m.owner
      let nt ← nameAndType m.name m.desc
      PoolBuilder.intern (entry owner nt)) := by
  intro b hb
  obtain ⟨o, b₁, h₁, hb₁⟩ := supplied_className hp howner b hb
  obtain ⟨n, b₂, h₂, hb₂⟩ := supplied_nameAndType hp hname b₁ hb₁
  obtain ⟨hw, hn⟩ := (builds_nameAndType _ _ b₁ n b₂ hb₁.valid h₂).2 _ (within_pool b₂)
  have ho := ((builds_className _ b o b₁ hb.valid h₁).2 _ hw).2.2
  obtain ⟨i, b₃, h₃, hb₃⟩ := hb₂.intern hp
    (hs (Pool.leads_of_className ho) (Pool.leads_of_nameAndType hn)) hc
  exact ⟨i, b₃, bind_ok.2 ⟨o, b₁, h₁, bind_ok.2 ⟨n, b₂, h₂, h₃⟩⟩, hb₃⟩

theorem supplied_field (hp : p.Modest) {m : MemberRef} (h : p.Holds (.field m)) :
    Supplied p (field m) := by
  obtain ⟨hf, howner, hname⟩ := h.field
  refine supplied_member hp h howner hname ?_
  rintro q i j ⟨a, ha, ho⟩ ⟨b, hb, hn⟩
  exact .fieldRef hf ha ho hb hn

theorem supplied_method (hp : p.Modest) {m : MemberRef} (h : p.Holds (.method m)) :
    Supplied p (method m) := by
  obtain ⟨howner, hname⟩ := h.method
  refine supplied_member hp h howner hname ?_
  rintro q i j ⟨a, ha, ho⟩ ⟨b, hb, hn⟩
  cases hf : m.interface with
  | false => exact .methodRef hf ha ho hb hn
  | true => exact .interfaceMethodRef hf ha ho hb hn

theorem supplied_constant (hp : p.Modest) {v : Constant} (h : p.Holds (.loadable v)) :
    Supplied p (constant v) := by
  intro b hb
  cases v with
  | int v => exact hb.intern hp (.int v) h
  | float bits => exact hb.intern hp (.float bits) h
  | long v => exact hb.intern hp (.long v) h
  | double bits => exact hb.intern hp (.double bits) h
  | string s =>
    obtain ⟨n, b₁, h₁, hb₁⟩ := supplied_utf8 hp h.string b hb
    have hn := ((builds_utf8 s b n b₁ hb.valid h₁).2 _ (within_pool b₁)).2
    obtain ⟨i, b₂, h₂, hb₂⟩ := hb₁.intern hp (.string hn) h
    exact ⟨i, b₂, bind_ok.2 ⟨n, b₁, h₁, h₂⟩, hb₂⟩
  | classRef name => exact supplied_className hp h b hb

end ClassPatch.PoolBuilder
