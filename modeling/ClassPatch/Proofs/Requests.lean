-- What a pool is asked for while a class is written. Every request gets an
-- index, the same one for the same request, and in the pool that is read from
-- the bytes each index answers the request that it was given for.
import ClassPatch.Proofs.Interning

namespace ClassPatch

/-! ## Lookups and contents -/

namespace Pool

variable {p q : Pool} {i : UInt16}

theorem utf8_eq_ok {s : String} : p.utf8 i = .ok s ↔ p.Leads i (.utf8 s) := by
  refine ⟨leads_of_utf8, ?_⟩
  rintro ⟨_, hi, hs⟩
  cases hs
  exact utf8_of_has hi

theorem className_eq_ok {name : String} :
    p.className i = .ok name ↔ p.Leads i (.loadable (.classRef name)) := by
  refine ⟨leads_of_className, ?_⟩
  rintro ⟨_, hi, hs⟩
  cases hs with
  | classRef hn => exact className_of_has hi hn

theorem nameAndType_eq_ok {name desc : String} :
    p.nameAndType i = .ok (name, desc) ↔ p.Leads i (.nameAndType name desc) := by
  refine ⟨leads_of_nameAndType, ?_⟩
  rintro ⟨_, hi, hs⟩
  cases hs with
  | nameAndType hn hd =>
    unfold nameAndType
    rw [entry_of_has hi]
    refine bind_eq_ok.2 ⟨_, rfl, bind_eq_ok.2 ⟨name, utf8_of_has hn, ?_⟩⟩
    exact bind_eq_ok.2 ⟨desc, utf8_of_has hd, rfl⟩

theorem member_of_leads {owner nt : UInt16} {m : MemberRef} {interface : Bool}
    (hf : m.interface = interface) (ho : p.Leads owner (.loadable (.classRef m.owner)))
    (hn : p.Leads nt (.nameAndType m.name m.desc)) : p.member owner nt interface = .ok m := by
  subst hf
  exact member_of_ok (className_eq_ok.2 ho) (nameAndType_eq_ok.2 hn) m.interface

theorem field_eq_ok {m : MemberRef} : p.field i = .ok m ↔ p.Leads i (.field m) := by
  refine ⟨leads_of_field, ?_⟩
  rintro ⟨_, hi, hs⟩
  cases hs with
  | fieldRef hf ha ho hb hn =>
    unfold field
    rw [entry_of_has hi]
    exact member_of_leads hf ⟨_, ha, ho⟩ ⟨_, hb, hn⟩

theorem method_eq_ok {m : MemberRef} : p.method i = .ok m ↔ p.Leads i (.method m) := by
  refine ⟨leads_of_method, ?_⟩
  rintro ⟨_, hi, hs⟩
  cases hs with
  | methodRef hf ha ho hb hn =>
    unfold method
    rw [entry_of_has hi]
    exact member_of_leads hf ⟨_, ha, ho⟩ ⟨_, hb, hn⟩
  | interfaceMethodRef hf ha ho hb hn =>
    unfold method
    rw [entry_of_has hi]
    exact member_of_leads hf ⟨_, ha, ho⟩ ⟨_, hb, hn⟩

theorem constant_eq_ok {v : Constant} : p.constant i = .ok v ↔ p.Leads i (.loadable v) := by
  refine ⟨leads_of_constant, ?_⟩
  rintro ⟨_, hi, hs⟩
  unfold constant
  rw [entry_of_has hi]
  cases hs with
  | classRef hn => exact bind_eq_ok.2 ⟨_, rfl, bind_eq_ok.2 ⟨_, utf8_of_has hn, rfl⟩⟩
  | string hn => exact bind_eq_ok.2 ⟨_, rfl, bind_eq_ok.2 ⟨_, utf8_of_has hn, rfl⟩⟩
  | _ => rfl

theorem Leads.mono {c : Content} (hpq : ∀ i e, p.Has i e → q.Has i e) (h : p.Leads i c) :
    q.Leads i c := by
  obtain ⟨e, hi, hs⟩ := h
  exact ⟨e, hpq i e hi, hs.mono hpq⟩

/-- Without repeated entries there is one index for a content. -/
theorem Leads.index_unique {j : UInt16} {c : Content} (hp : p.entries.toList.Nodup)
    (h : p.Leads i c) (h' : p.Leads j c) : i = j := by
  obtain ⟨e, hi, hs⟩ := h
  obtain ⟨e', hj, hs'⟩ := h'
  cases hs.entry_unique hp hs'
  exact hi.index_unique hp hj

end Pool

/-! ## Requests -/

/-- What the pool under construction is asked for. -/
inductive Request where
  | utf8 (text : String)
  | className (name : String)
  | field (member : MemberRef)
  | method (member : MemberRef)
  | constant (value : Constant)

namespace Request

inductive Kind where
  | utf8 | className | field | method | constant
deriving DecidableEq

def kind : Request → Kind
  | utf8 _ => .utf8
  | className _ => .className
  | field _ => .field
  | method _ => .method
  | constant _ => .constant

/-- A request for a field is one without the mark of an interface. -/
def plain : Request → Request
  | field m => field { m with interface := false }
  | r => r

def ask : Request → Builder UInt16
  | utf8 s => PoolBuilder.utf8 s
  | className name => PoolBuilder.className name
  | field m => PoolBuilder.field m
  | method m => PoolBuilder.method m
  | constant v => PoolBuilder.constant v

/-- What the pool has under an index, looked up as something of a kind. -/
def answer (p : Pool) (i : UInt16) : Kind → Except Fault Request
  | .utf8 => do return utf8 (← p.utf8 i)
  | .className => do return className (← p.className i)
  | .field => do return field (← p.field i)
  | .method => do return method (← p.method i)
  | .constant => do return constant (← p.constant i)

def content : Request → Content
  | utf8 s => .utf8 s
  | className name => .loadable (.classRef name)
  | field m => .field m
  | method m => .method m
  | constant v => .loadable v

/-- A lookup finds a request exactly if the index leads to its content. -/
theorem answer_eq_ok {p : Pool} {i : UInt16} {k : Kind} {r : Request} :
    answer p i k = .ok r ↔ r.kind = k ∧ p.Leads i r.content := by
  constructor
  · intro h
    cases k <;> obtain ⟨_, ha, h⟩ := bind_eq_ok.1 h <;> cases h
    · exact ⟨rfl, Pool.utf8_eq_ok.1 ha⟩
    · exact ⟨rfl, Pool.className_eq_ok.1 ha⟩
    · exact ⟨rfl, Pool.field_eq_ok.1 ha⟩
    · exact ⟨rfl, Pool.method_eq_ok.1 ha⟩
    · exact ⟨rfl, Pool.constant_eq_ok.1 ha⟩
  · rintro ⟨rfl, h⟩
    cases r with
    | utf8 s => exact bind_eq_ok.2 ⟨s, Pool.utf8_eq_ok.2 h, rfl⟩
    | className name => exact bind_eq_ok.2 ⟨name, Pool.className_eq_ok.2 h, rfl⟩
    | field m => exact bind_eq_ok.2 ⟨m, Pool.field_eq_ok.2 h, rfl⟩
    | method m => exact bind_eq_ok.2 ⟨m, Pool.method_eq_ok.2 h, rfl⟩
    | constant v => exact bind_eq_ok.2 ⟨v, Pool.constant_eq_ok.2 h, rfl⟩

open PoolBuilder

/-- The index that a request gets answers it in every pool with the entries made so far. -/
theorem builds_ask (r : Request) : Builds r.ask fun p i => answer p i r.kind = .ok r.plain := by
  cases r with
  | utf8 s =>
    refine (builds_utf8 s).imp fun p i hi => ?_
    exact bind_eq_ok.2 ⟨s, Pool.utf8_of_has hi, rfl⟩
  | className name =>
    refine (builds_className name).imp fun p i hi => ?_
    exact bind_eq_ok.2 ⟨name, hi.2, rfl⟩
  | field m =>
    refine (builds_field m).imp fun p i hi => ?_
    exact bind_eq_ok.2 ⟨_, hi, rfl⟩
  | method m =>
    refine (builds_method m).imp fun p i hi => ?_
    exact bind_eq_ok.2 ⟨m, hi, rfl⟩
  | constant v =>
    refine (builds_constant v).imp fun p i hi => ?_
    exact bind_eq_ok.2 ⟨v, hi, rfl⟩

end Request

/-! ## Each entry once -/

namespace PoolBuilder

/-- The computation leaves each entry standing once. -/
def Completes {α : Type} (x : Builder α) : Prop :=
  ∀ b a b', b.Complete → x b = .ok (a, b') → b'.Complete

variable {α β : Type}

theorem completes_pure (a : α) : Completes (pure a) := by
  rintro b _ _ hb ⟨⟩
  exact hb

theorem completes_bind {x : Builder α} {f : α → Builder β} (hx : Completes x)
    (hf : ∀ a, Completes (f a)) : Completes (x >>= f) := by
  intro b c b' hb h
  obtain ⟨a, b₁, hxb, h⟩ := bind_ok.1 h
  exact hf a b₁ c b' (hx b a b₁ hb hxb) h

theorem completes_mapM {f : α → Builder β} (h : ∀ a, Completes (f a)) (as : List α) :
    Completes (as.mapM f) := by
  induction as with
  | nil => exact completes_pure _
  | cons a as ih =>
    rw [List.mapM_cons]
    exact completes_bind (h a) fun _ => completes_bind ih fun _ => completes_pure _

theorem completes_intern (e : Entry) : Completes (intern e) := by
  intro b i b' hb h
  rcases intern_ok.1 h with ⟨_, rfl⟩ | ⟨hi, _, _, rfl⟩
  · exact hb
  · exact hb.add (hb.not_mem hi)

theorem completes_utf8 (s : String) : Completes (utf8 s) := by
  unfold utf8
  split
  · exact completes_intern _
  · rintro b _ _ _ ⟨⟩

theorem completes_className (name : String) : Completes (className name) :=
  completes_bind (completes_utf8 name) fun _ => completes_intern _

theorem completes_nameAndType (name desc : String) : Completes (nameAndType name desc) :=
  completes_bind (completes_utf8 name) fun _ => completes_bind (completes_utf8 desc) fun _ =>
    completes_intern _

theorem completes_ask (r : Request) : Completes r.ask := by
  have member : ∀ (m : MemberRef) (entry : UInt16 → UInt16 → Entry), Completes (do
      let owner ← className m.owner
      let nt ← nameAndType m.name m.desc
      intern (entry owner nt)) := fun m entry =>
    completes_bind (completes_className m.owner) fun _ =>
      completes_bind (completes_nameAndType m.name m.desc) fun _ => completes_intern _
  cases r with
  | utf8 s => exact completes_utf8 s
  | className name => exact completes_className name
  | field m => exact member m _
  | method m => exact member m fun owner nt =>
      if m.interface then .interfaceMethodRef owner nt else .methodRef owner nt
  | constant v =>
    cases v with
    | string s => exact completes_bind (completes_utf8 s) fun _ => completes_intern _
    | classRef name => exact completes_className name
    | _ => exact completes_intern _

end PoolBuilder

/-! ## A run of requests -/

open Reader

/-- What holds of the indices that requests got, and of the pool that they left. -/
structure Answered (requests : List Request) (indices : List UInt16) (b : PoolBuilder) : Prop where
  distinct : b.entries.toList.Nodup
  few : b.entries.size ≤ 65534
  steady : ∀ before after, requests = before ++ after → ∃ earlier : PoolBuilder,
    before.mapM Request.ask {} = .ok (indices.take before.length, earlier) ∧
      ∀ (i : UInt16) (k : Request.Kind) (r : Request),
        Request.answer earlier.pool i k = .ok r → Request.answer b.pool i k = .ok r
  same : ∀ (j k : Nat) (r r' : Request) (i i' : UInt16), requests[j]? = some r →
    requests[k]? = some r' → indices[j]? = some i → indices[k]? = some i' →
      r.kind = r'.kind → (i = i' ↔ r.plain = r'.plain)
  reads : ∃ p : Pool, Reads Pool.read b.bytes p ∧
    List.Forall₂ (fun r i => Request.answer p i r.kind = .ok r.plain) requests indices

namespace Request
open PoolBuilder

variable {rs : List Request} {is : List UInt16} {b : PoolBuilder}

/-- An answer found once is found in every pool that goes on from there. -/
theorem answer_mono {p q : Pool} {i : UInt16} {k : Kind} {r : Request}
    (hpq : ∀ i e, p.Has i e → q.Has i e) (h : answer p i k = .ok r) : answer q i k = .ok r := by
  obtain ⟨hk, hr⟩ := answer_eq_ok.1 h
  exact answer_eq_ok.2 ⟨hk, hr.mono hpq⟩

/-- The indices of a run answer its requests, in every pool with the entries made so far. -/
theorem builds_asks (rs : List Request) : Builds (rs.mapM ask) fun p is =>
    List.Forall₂ (fun r i => answer p i r.kind = .ok r.plain) rs is :=
  builds_mapM fun r _ => builds_ask r

theorem completes_asks (rs : List Request) : Completes (rs.mapM ask) :=
  completes_mapM completes_ask rs

/-- A run that begins with another run goes on from the pool that it left. -/
theorem asks_append {before after : List Request}
    (h : (before ++ after).mapM ask {} = .ok (is, b)) : ∃ earlier,
      before.mapM ask {} = .ok (is.take before.length, earlier) ∧
        ∀ i e, earlier.pool.Has i e → b.pool.Has i e := by
  rw [List.mapM_append] at h
  obtain ⟨is₁, earlier, h₁, h⟩ := bind_ok.1 h
  obtain ⟨is₂, b', h₂, h⟩ := bind_ok.1 h
  obtain ⟨rfl, rfl⟩ := pure_ok.1 h
  obtain ⟨hv, hfirst⟩ := builds_asks before {} is₁ earlier valid_empty h₁
  have hwithin := ((builds_asks after earlier is₂ b hv h₂).2 _ (within_pool b)).1
  have hlen := (hfirst _ (within_pool earlier)).2.length_eq
  refine ⟨earlier, ?_, fun i e he => ⟨he.1, hwithin _ e he.2⟩⟩
  rw [hlen, List.take_left]
  exact h₁

/-- Requests of one kind share an index exactly if they ask for the same. -/
theorem same_index {p : Pool} {i i' : UInt16} {r r' : Request} (hp : p.entries.toList.Nodup)
    (h : answer p i r.kind = .ok r.plain) (h' : answer p i' r'.kind = .ok r'.plain)
    (hk : r.kind = r'.kind) : i = i' ↔ r.plain = r'.plain := by
  obtain ⟨_, hr⟩ := answer_eq_ok.1 h
  obtain ⟨_, hr'⟩ := answer_eq_ok.1 h'
  constructor
  · rintro rfl
    rw [hk, h'] at h
    exact (Except.ok.inj h).symm
  · intro hplain
    rw [← hplain] at hr'
    exact hr.index_unique hp hr'

/-- Whatever a new pool is asked for, the indices that it gives mean what was
asked for, then and in the pool that is read from its bytes. -/
theorem answered (h : rs.mapM ask {} = .ok (is, b)) : Answered rs is b := by
  obtain ⟨hvalid, hreads⟩ := builds_asks rs {} is b valid_empty h
  have hanswers := (hreads _ (within_pool b)).2
  have hcomplete := completes_asks rs {} is b complete_empty h
  refine ⟨hcomplete.distinct, hvalid.count, ?_, ?_, b.pool, Pool.reads_read hvalid, hanswers⟩
  · rintro before after rfl
    obtain ⟨earlier, hearlier, hhas⟩ := asks_append h
    exact ⟨earlier, hearlier, fun i k r hr => answer_mono hhas hr⟩
  · intro j k r r' i i' hr hr' hi hi' hkind
    have answerAt : ∀ {j : Nat} {r : Request} {i : UInt16}, rs[j]? = some r → is[j]? = some i →
        answer b.pool i r.kind = .ok r.plain := fun {j r i} hr hi => by
      obtain ⟨hj, rfl⟩ := List.getElem?_eq_some_iff.1 hr
      obtain ⟨hj', rfl⟩ := List.getElem?_eq_some_iff.1 hi
      exact hanswers.get hj hj'
    exact same_index hcomplete.distinct (answerAt hr hi) (answerAt hr' hi') hkind

/-- A field that is asked for twice, and once as a method. -/
def clock : List Request :=
  [field ⟨"A", "f", "I", true⟩, constant (.double 0), method ⟨"A", "f", "I", true⟩,
    field ⟨"A", "f", "I", false⟩, constant (.classRef "A")]

theorem asks_clock : (clock.mapM ask {}).map Prod.fst = .ok [6, 7, 8, 6, 2] := by
  have hsizes : "A".utf8ByteSize = 1 ∧ "f".utf8ByteSize = 1 ∧ "I".utf8ByteSize = 1 :=
    ⟨rfl, rfl, rfl⟩
  simp [clock, ask, PoolBuilder.field, PoolBuilder.method, PoolBuilder.constant,
    PoolBuilder.className, PoolBuilder.nameAndType, PoolBuilder.utf8, hsizes, intern, maxEntries,
    Std.HashMap.getElem_insert, bind, StateT.bind, Except.bind, pure, PoolBuilder.pure_eq,
    Except.map]

theorem clock_is_answered : ∃ b, clock.mapM ask {} = .ok ([6, 7, 8, 6, 2], b) ∧
    Answered clock [6, 7, 8, 6, 2] b := by
  have h := asks_clock
  cases hrun : clock.mapM ask {} with
  | error f =>
    rw [hrun] at h
    cases h
  | ok r =>
    rw [hrun] at h
    obtain ⟨is, b⟩ := r
    cases Except.ok.inj h
    exact ⟨b, rfl, answered hrun⟩

end Request

end ClassPatch
