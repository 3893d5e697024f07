-- What the entries of a pool stand for. An entry may lead to others, and so
-- two pools can hold the same content under different indices. An entry has
-- one content, and a pool without repeated entries has one entry for it.
import ClassPatch.Container.Pool
import Mathlib.Combinatorics.Enumerative.DoubleCounting

namespace ClassPatch

/-- What an entry stands for once the indices in it are followed. -/
inductive Content where
  | utf8 (text : String)
  | loadable (value : Constant)
  | nameAndType (name desc : String)
  | field (member : MemberRef)
  | method (member : MemberRef)

/-- What an instruction names in the pool. -/
def Insn.content? {α : Type} : Insn α → Option Content
  | .ldc v => some (.loadable v)
  | .field _ m => some (.field m)
  | .method _ m => some (.method m)
  | .type _ name => some (.loadable (.classRef name))
  | _ => none

namespace Pool

/-! ## Entries and contents -/

/-- The index leads to the entry. -/
def Has (p : Pool) (i : UInt16) (e : Entry) : Prop :=
  i ≠ 0 ∧ p.entries[i.toNat - 1]? = some e

/-- The entry has the content, with its indices as the pool has them. -/
inductive Stands (p : Pool) : Entry → Content → Prop
  | utf8 (s : String) : p.Stands (.utf8 s) (.utf8 s)
  | int (v : Int32) : p.Stands (.int v) (.loadable (.int v))
  | float (bits : UInt32) : p.Stands (.float bits) (.loadable (.float bits))
  | long (v : Int64) : p.Stands (.long v) (.loadable (.long v))
  | double (bits : UInt64) : p.Stands (.double bits) (.loadable (.double bits))
  | classRef {i : UInt16} {s : String} (h : p.Has i (.utf8 s)) :
    p.Stands (.classRef i) (.loadable (.classRef s))
  | string {i : UInt16} {s : String} (h : p.Has i (.utf8 s)) :
    p.Stands (.string i) (.loadable (.string s))
  | nameAndType {i j : UInt16} {name desc : String} (hn : p.Has i (.utf8 name))
    (hd : p.Has j (.utf8 desc)) : p.Stands (.nameAndType i j) (.nameAndType name desc)
  | fieldRef {i j : UInt16} {a b : Entry} {m : MemberRef} (hf : m.interface = false)
    (ha : p.Has i a) (ho : p.Stands a (.loadable (.classRef m.owner)))
    (hb : p.Has j b) (hn : p.Stands b (.nameAndType m.name m.desc)) :
    p.Stands (.fieldRef i j) (.field m)
  | methodRef {i j : UInt16} {a b : Entry} {m : MemberRef} (hf : m.interface = false)
    (ha : p.Has i a) (ho : p.Stands a (.loadable (.classRef m.owner)))
    (hb : p.Has j b) (hn : p.Stands b (.nameAndType m.name m.desc)) :
    p.Stands (.methodRef i j) (.method m)
  | interfaceMethodRef {i j : UInt16} {a b : Entry} {m : MemberRef} (hf : m.interface = true)
    (ha : p.Has i a) (ho : p.Stands a (.loadable (.classRef m.owner)))
    (hb : p.Has j b) (hn : p.Stands b (.nameAndType m.name m.desc)) :
    p.Stands (.interfaceMethodRef i j) (.method m)

/-- The index leads to an entry with the content. -/
def Leads (p : Pool) (i : UInt16) (c : Content) : Prop := ∃ e, p.Has i e ∧ p.Stands e c

/-- Some entry has the content. -/
def Holds (p : Pool) (c : Content) : Prop := ∃ i, p.Leads i c

variable {p q : Pool} {i j : UInt16} {e e' : Entry} {c c' : Content}

theorem Has.unique (h : p.Has i e) (h' : p.Has i e') : e = e' :=
  Option.some_inj.1 (h.2.symm.trans h'.2)

/-- Without repeated entries an entry has one index. -/
theorem Has.index_unique (hp : p.entries.toList.Nodup) (h : p.Has i e) (h' : p.Has j e) :
    i = j := by
  obtain ⟨hi, he⟩ := h
  obtain ⟨hj, he'⟩ := h'
  rw [← Array.getElem?_toList] at he he'
  have hlt := (List.getElem?_eq_some_iff.1 he).1
  have hij := (List.getElem?_inj hlt hp).1 (he.trans he'.symm)
  have hi₀ : i.toNat ≠ 0 := fun h => hi (UInt16.toNat_inj.1 h)
  have hj₀ : j.toNat ≠ 0 := fun h => hj (UInt16.toNat_inj.1 h)
  exact UInt16.toNat_inj.1 (by omega)

theorem Has.mem (h : p.Has i e) : e ∈ p.entries :=
  Array.mem_toList_iff.1 (List.mem_of_getElem? ((Array.getElem?_toList ..).trans h.2))

theorem Stands.mono (hpq : ∀ i e, p.Has i e → q.Has i e) (h : p.Stands e c) : q.Stands e c := by
  induction h with
  | utf8 s => exact .utf8 s
  | int v => exact .int v
  | float bits => exact .float bits
  | long v => exact .long v
  | double bits => exact .double bits
  | classRef h => exact .classRef (hpq _ _ h)
  | string h => exact .string (hpq _ _ h)
  | nameAndType hn hd => exact .nameAndType (hpq _ _ hn) (hpq _ _ hd)
  | fieldRef hf ha _ hb _ ho hn => exact .fieldRef hf (hpq _ _ ha) ho (hpq _ _ hb) hn
  | methodRef hf ha _ hb _ ho hn => exact .methodRef hf (hpq _ _ ha) ho (hpq _ _ hb) hn
  | interfaceMethodRef hf ha _ hb _ ho hn =>
    exact .interfaceMethodRef hf (hpq _ _ ha) ho (hpq _ _ hb) hn

/-- An entry has one content. -/
theorem Stands.content_unique (h : p.Stands e c) (h' : p.Stands e c') : c = c' := by
  have text : ∀ {i s t}, p.Has i (.utf8 s) → p.Has i (.utf8 t) → s = t := fun hs ht =>
    Entry.utf8.inj (hs.unique ht)
  have member : ∀ {m n : MemberRef}, m.interface = n.interface →
      Content.loadable (.classRef m.owner) = .loadable (.classRef n.owner) →
        Content.nameAndType m.name m.desc = .nameAndType n.name n.desc → m = n := by
    rintro ⟨_, _, _, _⟩ ⟨_, _, _, _⟩ rfl ⟨⟩ ⟨⟩
    rfl
  induction h generalizing c' with
  | utf8 | int | float | long | double =>
    cases h'
    rfl
  | classRef h =>
    cases h' with
    | classRef h' => rw [text h h']
  | string h =>
    cases h' with
    | string h' => rw [text h h']
  | nameAndType hn hd =>
    cases h' with
    | nameAndType hn' hd' => rw [text hn hn', text hd hd']
  | fieldRef hf ha _ hb _ iho ihn =>
    cases h' with
    | fieldRef hf' ha' ho' hb' hn' =>
      cases ha.unique ha'
      cases hb.unique hb'
      rw [member (hf.trans hf'.symm) (iho ho') (ihn hn')]
  | methodRef hf ha _ hb _ iho ihn =>
    cases h' with
    | methodRef hf' ha' ho' hb' hn' =>
      cases ha.unique ha'
      cases hb.unique hb'
      rw [member (hf.trans hf'.symm) (iho ho') (ihn hn')]
  | interfaceMethodRef hf ha _ hb _ iho ihn =>
    cases h' with
    | interfaceMethodRef hf' ha' ho' hb' hn' =>
      cases ha.unique ha'
      cases hb.unique hb'
      rw [member (hf.trans hf'.symm) (iho ho') (ihn hn')]

/-- Without repeated entries no two of them have the same content. -/
theorem Stands.entry_unique (hp : p.entries.toList.Nodup) (h : p.Stands e c)
    (h' : p.Stands e' c) : e = e' := by
  induction h generalizing e' with
  | utf8 | int | float | long | double =>
    cases h'
    rfl
  | classRef h =>
    cases h' with
    | classRef h' => rw [h.index_unique hp h']
  | string h =>
    cases h' with
    | string h' => rw [h.index_unique hp h']
  | nameAndType hn hd =>
    cases h' with
    | nameAndType hn' hd' => rw [hn.index_unique hp hn', hd.index_unique hp hd']
  | fieldRef _ ha _ hb _ iho ihn =>
    cases h' with
    | fieldRef _ ha' ho' hb' hn' =>
      cases iho ho'
      cases ihn hn'
      rw [ha.index_unique hp ha', hb.index_unique hp hb']
  | methodRef hf ha _ hb _ iho ihn =>
    cases h' with
    | methodRef _ ha' ho' hb' hn' =>
      cases iho ho'
      cases ihn hn'
      rw [ha.index_unique hp ha', hb.index_unique hp hb']
    | interfaceMethodRef hf' => exact absurd (hf.symm.trans hf') Bool.false_ne_true
  | interfaceMethodRef hf ha _ hb _ iho ihn =>
    cases h' with
    | methodRef hf' => exact absurd (hf'.symm.trans hf) Bool.false_ne_true
    | interfaceMethodRef _ ha' ho' hb' hn' =>
      cases iho ho'
      cases ihn hn'
      rw [ha.index_unique hp ha', hb.index_unique hp hb']

/-! ## Looking up -/

theorem has_of_entry (h : p.entry i = .ok e) : p.Has i e := by
  unfold entry at h
  split at h
  · cases h
  · rename_i hi
    split at h
    · rename_i he
      cases h
      exact ⟨hi, he⟩
    · cases h

theorem has_of_utf8 {s : String} (h : p.utf8 i = .ok s) : p.Has i (.utf8 s) := by
  obtain ⟨e, he, h⟩ := bind_eq_ok.1 h
  split at h
  · cases h
    exact has_of_entry he
  · cases h

theorem leads_of_utf8 {s : String} (h : p.utf8 i = .ok s) : p.Leads i (.utf8 s) :=
  ⟨_, has_of_utf8 h, .utf8 s⟩

theorem leads_of_className {s : String} (h : p.className i = .ok s) :
    p.Leads i (.loadable (.classRef s)) := by
  obtain ⟨e, he, h⟩ := bind_eq_ok.1 h
  split at h
  · exact ⟨_, has_of_entry he, .classRef (has_of_utf8 h)⟩
  · cases h

theorem leads_of_className? {s : String} (h : p.className? i = .ok (some s)) :
    p.Leads i (.loadable (.classRef s)) := by
  unfold className? at h
  split at h
  · cases h
  · cases hs : p.className i with
    | error f =>
      rw [hs] at h
      cases h
    | ok t =>
      rw [hs] at h
      cases h
      exact leads_of_className hs

theorem leads_of_nameAndType {r : String × String} (h : p.nameAndType i = .ok r) :
    p.Leads i (.nameAndType r.1 r.2) := by
  obtain ⟨e, he, h⟩ := bind_eq_ok.1 h
  split at h
  · obtain ⟨name, hn, h⟩ := bind_eq_ok.1 h
    obtain ⟨desc, hd, h⟩ := bind_eq_ok.1 h
    cases h
    exact ⟨_, has_of_entry he, .nameAndType (has_of_utf8 hn) (has_of_utf8 hd)⟩
  · cases h

theorem leads_of_member {f : Bool} {m : MemberRef} (h : p.member i j f = .ok m) :
    m.interface = f ∧ p.Leads i (.loadable (.classRef m.owner)) ∧
      p.Leads j (.nameAndType m.name m.desc) := by
  obtain ⟨r, hr, h⟩ := bind_eq_ok.1 h
  obtain ⟨owner, ho, h⟩ := bind_eq_ok.1 h
  cases h
  exact ⟨rfl, leads_of_className ho, leads_of_nameAndType hr⟩

theorem leads_of_field {m : MemberRef} (h : p.field i = .ok m) : p.Leads i (.field m) := by
  obtain ⟨e, he, h⟩ := bind_eq_ok.1 h
  split at h
  · obtain ⟨hf, ⟨a, ha, ho⟩, b, hb, hn⟩ := leads_of_member h
    exact ⟨_, has_of_entry he, .fieldRef hf ha ho hb hn⟩
  · cases h

theorem leads_of_method {m : MemberRef} (h : p.method i = .ok m) : p.Leads i (.method m) := by
  obtain ⟨e, he, h⟩ := bind_eq_ok.1 h
  split at h
  · obtain ⟨hf, ⟨a, ha, ho⟩, b, hb, hn⟩ := leads_of_member h
    exact ⟨_, has_of_entry he, .methodRef hf ha ho hb hn⟩
  · obtain ⟨hf, ⟨a, ha, ho⟩, b, hb, hn⟩ := leads_of_member h
    exact ⟨_, has_of_entry he, .interfaceMethodRef hf ha ho hb hn⟩
  · cases h

theorem leads_of_constant {v : Constant} (h : p.constant i = .ok v) :
    p.Leads i (.loadable v) := by
  obtain ⟨e, he, h⟩ := bind_eq_ok.1 h
  refine ⟨e, has_of_entry he, ?_⟩
  cases e with
  | int | float | long | double =>
    cases h
    constructor
  | string | classRef =>
    obtain ⟨s, hs, h⟩ := bind_eq_ok.1 h
    cases h
    constructor
    exact has_of_utf8 hs
  | _ => cases h

/-! ## Parts -/

/-- A pool that holds a class holds its name. -/
theorem Holds.className {s : String} (h : p.Holds (.loadable (.classRef s))) :
    p.Holds (.utf8 s) := by
  obtain ⟨_, _, _, hs⟩ := h
  cases hs with
  | classRef h => exact ⟨_, _, h, .utf8 s⟩

theorem Holds.string {s : String} (h : p.Holds (.loadable (.string s))) : p.Holds (.utf8 s) := by
  obtain ⟨_, _, _, hs⟩ := h
  cases hs with
  | string h => exact ⟨_, _, h, .utf8 s⟩

theorem Holds.nameAndType {name desc : String} (h : p.Holds (.nameAndType name desc)) :
    p.Holds (.utf8 name) ∧ p.Holds (.utf8 desc) := by
  obtain ⟨_, _, _, hs⟩ := h
  cases hs with
  | nameAndType hn hd => exact ⟨⟨_, _, hn, .utf8 name⟩, ⟨_, _, hd, .utf8 desc⟩⟩

theorem Holds.field {m : MemberRef} (h : p.Holds (.field m)) : m.interface = false ∧
    p.Holds (.loadable (.classRef m.owner)) ∧ p.Holds (.nameAndType m.name m.desc) := by
  obtain ⟨_, _, _, hs⟩ := h
  cases hs with
  | fieldRef hf ha ho hb hn => exact ⟨hf, ⟨_, _, ha, ho⟩, ⟨_, _, hb, hn⟩⟩

theorem Holds.method {m : MemberRef} (h : p.Holds (.method m)) :
    p.Holds (.loadable (.classRef m.owner)) ∧ p.Holds (.nameAndType m.name m.desc) := by
  obtain ⟨_, _, _, hs⟩ := h
  cases hs with
  | methodRef _ ha ho hb hn => exact ⟨⟨_, _, ha, ho⟩, ⟨_, _, hb, hn⟩⟩
  | interfaceMethodRef _ ha ho hb hn => exact ⟨⟨_, _, ha, ho⟩, ⟨_, _, hb, hn⟩⟩

/-! ## Counting -/

/-- What a pool is like that was read: its count and the lengths of its
texts had two bytes each. -/
structure Modest (p : Pool) : Prop where
  count : p.entries.size ≤ 65534
  texts : ∀ s, .utf8 s ∈ p.entries → s.utf8ByteSize ≤ 65535

/-- Entries without repetition, each with a content that the other pool
holds, are not more than the other pool has. -/
theorem length_le_of_holds {es : List Entry} (hp : p.entries.toList.Nodup) (hes : es.Nodup)
    (h : ∀ e ∈ es, ∃ c, p.Stands e c ∧ q.Holds c) : es.length ≤ q.entries.size := by
  classical
  have hcard := Finset.card_le_card_of_forall_subsingleton
    (fun a b => ∃ c, p.Stands a c ∧ q.Stands b c) (s := es.toFinset)
    (t := q.entries.toList.toFinset) ?_ ?_
  · rw [List.toFinset_card_of_nodup hes] at hcard
    have hlen := q.entries.toList.toFinset_card_le
    rw [Array.length_toList] at hlen
    exact hcard.trans hlen
  · intro a ha
    obtain ⟨c, hc, i, b, hb, hbc⟩ := h a (List.mem_toFinset.1 ha)
    exact ⟨b, List.mem_toFinset.2 (Array.mem_toList_iff.2 hb.mem), c, hc, hbc⟩
  · rintro b - a ⟨_, c, hc, hbc⟩ a' ⟨_, c', hc', hbc'⟩
    cases hbc.content_unique hbc'
    exact hc.entry_unique hp hc'

end Pool

end ClassPatch
