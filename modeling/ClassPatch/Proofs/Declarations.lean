-- A mapping table goes by what was declared last. Every entry that comes in
-- rebuilds the index, so the index leads to the last entry about a member and
-- never past the entries, in whatever order classes and members are declared.
import ClassPatch.Mapping
import ClassPatch.Proofs.ClassNames
import Mathlib.Data.List.Induction

namespace ClassPatch.MappingTable

/-! ## The last of its kind -/

section Last
variable {α : Type} {p : α → Prop} {xs : List α} {x y : α}

/-- Of the items with the property, this one stands last. -/
def Last (p : α → Prop) (xs : List α) (x : α) : Prop :=
  p x ∧ ∃ before after, xs = before ++ x :: after ∧ ∀ y ∈ after, ¬ p y

theorem not_last_nil : ¬ Last p [] x := by
  rintro ⟨_, before, after, h, _⟩
  simp at h

/-- A new item is the last one of its kind. -/
theorem last_concat : Last p (xs ++ [y]) x ↔ p y ∧ x = y ∨ ¬ p y ∧ Last p xs x := by
  constructor
  · rintro ⟨hx, before, after, hsplit, hafter⟩
    rcases List.eq_nil_or_concat after with rfl | ⟨after, z, rfl⟩
    · cases List.append_inj_right' hsplit rfl
      exact .inl ⟨hx, rfl⟩
    · rw [List.concat_eq_append] at hsplit hafter
      have hsplit : xs ++ [y] = (before ++ x :: after) ++ [z] := by simpa using hsplit
      obtain ⟨rfl, hyz⟩ := List.append_inj' hsplit rfl
      cases hyz
      exact .inr ⟨hafter y (by simp), hx, before, after, rfl, fun w hw => hafter w (by simp [hw])⟩
  · rintro (⟨hy, rfl⟩ | ⟨hy, hx, before, after, rfl, hafter⟩)
    · exact ⟨hy, xs, [], rfl, by simp⟩
    · refine ⟨hx, before, after ++ [y], by simp, fun w hw => ?_⟩
      rcases List.mem_append.1 hw with hw | hw
      · exact hafter w hw
      · exact List.mem_singleton.1 hw ▸ hy

theorem exists_last (h : y ∈ xs) (hy : p y) : ∃ x, Last p xs x := by
  induction xs using List.reverseRecOn with
  | nil => cases h
  | append_singleton xs z ih =>
    by_cases hz : p z
    · exact ⟨z, last_concat.2 (.inl ⟨hz, rfl⟩)⟩
    · rcases List.mem_append.1 h with h | h
      · obtain ⟨x, hx⟩ := ih h
        exact ⟨x, last_concat.2 (.inr ⟨hz, hx⟩)⟩
      · exact absurd (List.mem_singleton.1 h ▸ hy) hz

end Last

/-! ## Declarations -/

inductive Declaration where
  | className (symbolic runtime : String)
  | member (m : MemberMapping)

namespace Declaration

/-- It declares a name for this class. -/
def Names (symbolic : String) (d : Declaration) : Prop := ∃ runtime, d = className symbolic runtime

/-- It is an entry about this member. -/
def About (k : MemberKey) (d : Declaration) : Prop := ∃ m, d = member m ∧ m.key = k

/-- What a document with these lists declares. -/
def ofLists (classes : List (String × String)) (members : List MemberMapping) :
    List Declaration :=
  classes.map (fun c => className c.1 c.2) ++ members.map member

end Declaration

def declare (t : MappingTable) : Declaration → MappingTable
  | .className symbolic runtime => t.withClass symbolic runtime
  | .member m => t.withMember m

/-- Tables that are read, or declared piece by piece, with all that was declared. -/
inductive Built : List Declaration → MappingTable → Prop
  | empty : Built [] .empty
  | read {json : String} {v : JsonValue} {classes : List (String × String)}
      {members : List MemberMapping} {t : MappingTable} :
      parse? json = some t → JsonReader.parse json = some v →
      listed? v = some (classes, members) → Built (Declaration.ofLists classes members) t
  | declare {ds : List Declaration} {t : MappingTable} (d : Declaration) :
      Built ds t → Built (ds ++ [d]) (t.declare d)

/-- A document that can be read lists classes and members, so its table is among these. -/
theorem exists_built_of_parse {json : String} {t : MappingTable} (h : parse? json = some t) :
    ∃ ds, Built ds t := by
  obtain ⟨v, hjson, hv⟩ := Option.bind_eq_some_iff.1 h
  obtain ⟨⟨classes, members⟩, hlisted, -⟩ := Option.map_eq_some_iff.1 hv
  exact ⟨_, .read h hjson hlisted⟩

/-! ## The index -/

theorem places_concat (ms : List MemberMapping) (m : MemberMapping) :
    places (ms ++ [m]) = (places ms).insert m.key ms.length := by
  simp [places, List.zipIdx_append]

theorem lt_of_places {ms : List MemberMapping} {k : MemberKey} {n : Nat}
    (h : (places ms)[k]? = some n) : n < ms.length := by
  induction ms using List.reverseRecOn with
  | nil => simp [places] at h
  | append_singleton ms m ih =>
    rw [places_concat, Std.HashMap.getElem?_insert] at h
    rw [List.length_append, List.length_singleton]
    split at h
    · cases h
      exact Nat.lt_succ_self _
    · exact Nat.lt_succ_of_lt (ih h)

/-- The entry to which the index leads under a key. -/
def entryUnder (t : MappingTable) (k : MemberKey) : Option MemberMapping :=
  t.index[k]?.bind (t.members[·]?)

/-- A new entry is found under its key, and all others where they were. -/
theorem entryUnder_withMember {t : MappingTable} (h : t.index = places t.members)
    (m : MemberMapping) (k : MemberKey) :
    (t.withMember m).entryUnder k = if m.key = k then some m else t.entryUnder k := by
  unfold entryUnder withMember reindex
  dsimp only
  rw [places_concat, Std.HashMap.getElem?_insert, h]
  by_cases hk : m.key = k
  · simp [hk]
  · rw [if_neg (by simpa using hk), if_neg hk]
    cases hn : (places t.members)[k]? with
    | none => rfl
    | some n => exact List.getElem?_append_left (lt_of_places hn)

/-! ## Tables in step with what was declared -/

structure InStep (ds : List Declaration) (t : MappingTable) : Prop where
  index : t.index = places t.members
  classes : ∀ symbolic runtime, t.classes.get? symbolic = some runtime ↔
    Last (Declaration.Names symbolic) ds (.className symbolic runtime)
  entries : ∀ k m, t.entryUnder k = some m ↔ Last (Declaration.About k) ds (.member m)

theorem inStep_empty : InStep [] empty := by
  refine ⟨rfl, fun symbolic runtime => ?_, fun k m => ?_⟩
  · simp [empty, Dict.get?, not_last_nil]
  · simp [empty, entryUnder, not_last_nil]

theorem InStep.declare {ds : List Declaration} {t : MappingTable} (h : InStep ds t)
    (d : Declaration) : InStep (ds ++ [d]) (t.declare d) := by
  cases d with
  | className s r =>
    refine ⟨h.index, fun symbolic runtime => ?_, fun k m => ?_⟩
    · rw [last_concat, ← h.classes]
      change (t.classes.insert s r).get? symbolic = some runtime ↔ _
      by_cases hs : symbolic = s
      · subst hs
        rw [Dict.get?_insert_self]
        simp [Declaration.Names, eq_comm]
      · rw [Dict.get?_insert_of_ne hs]
        simp [Declaration.Names, Ne.symm hs]
    · rw [last_concat, ← h.entries]
      have habout : ¬ Declaration.About k (.className s r) := by simp [Declaration.About]
      exact ⟨fun hm => .inr ⟨habout, hm⟩, fun hm => (hm.resolve_left fun hd => habout hd.1).2⟩
  | member m' =>
    refine ⟨rfl, fun symbolic runtime => ?_, fun k m => ?_⟩
    · rw [last_concat, ← h.classes]
      have hnames : ¬ Declaration.Names symbolic (.member m') := by simp [Declaration.Names]
      exact ⟨fun hr => .inr ⟨hnames, hr⟩, fun hr => (hr.resolve_left fun hd => hnames hd.1).2⟩
    · rw [last_concat, ← h.entries]
      change (t.withMember m').entryUnder k = some m ↔ _
      rw [entryUnder_withMember h.index]
      by_cases hk : m'.key = k
      · simp [Declaration.About, hk, eq_comm]
      · simp [Declaration.About, hk]

theorem InStep.declareAll {ds : List Declaration} {t : MappingTable} (h : InStep ds t)
    (more : List Declaration) : InStep (ds ++ more) (more.foldl MappingTable.declare t) := by
  induction more generalizing ds t with
  | nil => rwa [List.append_nil]
  | cons d more ih =>
    rw [List.append_cons, List.foldl_cons]
    exact ih (h.declare d)

/-- To read a table is to declare what the document lists. -/
theorem ofLists_eq (classes : List (String × String)) (members : List MemberMapping) :
    ofLists classes members =
      (Declaration.ofLists classes members).foldl MappingTable.declare empty := by
  have hclasses : ∀ t : MappingTable, (classes.map fun c => Declaration.className c.1 c.2).foldl
      MappingTable.declare t =
        { t with classes := classes.foldl (fun d c => d.insert c.1 c.2) t.classes } := by
    induction classes with
    | nil => exact fun _ => rfl
    | cons c classes ih => exact fun t => ih (t.withClass c.1 c.2)
  have hmembers : ∀ t : MappingTable, t.index = places t.members →
      (members.map Declaration.member).foldl MappingTable.declare t =
        reindex { t with members := t.members ++ members } := by
    induction members with
    | nil =>
      intro t ht
      rw [List.append_nil, reindex, ← ht]
      rfl
    | cons m members ih =>
      intro t _
      rw [List.append_cons]
      exact ih (t.withMember m) rfl
  rw [Declaration.ofLists, List.foldl_append, hclasses, hmembers _ rfl]
  rfl

theorem inStep_of_built {ds : List Declaration} {t : MappingTable} (h : Built ds t) :
    InStep ds t := by
  induction h with
  | empty => exact inStep_empty
  | @read json v classes members t hparse hjson hlisted =>
    have ht : parse? json = some (ofLists classes members) := by
      rw [parse?, hjson, Option.bind_eq_bind, Option.bind_some, ofJson?, hlisted, Option.map_some]
    cases hparse.symm.trans ht
    rw [ofLists_eq]
    exact inStep_empty.declareAll _
  | declare d _ ih => exact ih.declare d

/-! ## Resolving -/

/-- The second identifier is the first one as these declarations have it: under the last name
of its class, the last name that an entry has for it, and with its descriptor's classes under
their last names. Without a declaration a name stays. -/
structure Resolved (ds : List Declaration) (i r : Identifier) : Prop where
  owner : Last (Declaration.Names i.owner) ds (.className i.owner r.owner) ∨
    (∀ d ∈ ds, ¬ Declaration.Names i.owner d) ∧ r.owner = i.owner
  member : (∃ m, Last (Declaration.About (keyOf i)) ds (.member m) ∧ r.member = m.mapped) ∨
    (∀ d ∈ ds, ¬ Declaration.About (keyOf i) d) ∧ r.member = i.member
  signature : ∃ f : String → Option String,
    (∀ name runtime, f name = some runtime ↔
      Last (Declaration.Names name) ds (.className name runtime)) ∧
    r.signature = Descriptor.mapClasses f i.signature
  kind : r.isMethod = i.isMethod

theorem InStep.owner {ds : List Declaration} {t : MappingTable} (h : InStep ds t) (name : String) :
    Last (Declaration.Names name) ds (.className name (t.className name)) ∨
      (∀ d ∈ ds, ¬ Declaration.Names name d) ∧ t.className name = name := by
  unfold className
  cases hget : t.classes.get? name with
  | some runtime => exact .inl ((h.classes name runtime).1 hget)
  | none =>
    refine .inr ⟨fun d hd hnames => ?_, rfl⟩
    obtain ⟨x, hlast⟩ := exists_last hd hnames
    obtain ⟨runtime, rfl⟩ := hlast.1
    cases hget.symm.trans ((h.classes name runtime).2 hlast)

theorem InStep.member {ds : List Declaration} {t : MappingTable} (h : InStep ds t)
    (i : Identifier) :
    (∃ m, Last (Declaration.About (keyOf i)) ds (.member m) ∧ (t.resolve i).member = m.mapped) ∨
      (∀ d ∈ ds, ¬ Declaration.About (keyOf i) d) ∧ (t.resolve i).member = i.member := by
  unfold resolve
  have hentry : t.entryFor? i = t.entryUnder (keyOf i) := rfl
  cases hget : t.entryFor? i with
  | some m => exact .inl ⟨m, (h.entries _ m).1 (hentry.symm.trans hget), rfl⟩
  | none =>
    refine .inr ⟨fun d hd habout => ?_, rfl⟩
    obtain ⟨x, hlast⟩ := exists_last hd habout
    obtain ⟨m, rfl, hm⟩ := hlast.1
    cases hget.symm.trans (hentry.trans ((h.entries _ m).2 hlast))

/-- However a table came about, by reading a document or by declarations in any order, it
resolves each identifier by what was declared last, and its index never leads past its entries. -/
theorem built_table_resolves {ds : List Declaration} {t : MappingTable} (h : Built ds t) :
    (∀ (k : MemberKey) (n : Nat), t.index[k]? = some n → n < t.members.length) ∧
      ∀ i, Resolved ds i (t.resolve i) := by
  have hstep := inStep_of_built h
  refine ⟨fun k n hn => lt_of_places (hstep.index ▸ hn), fun i => ?_⟩
  exact
    { owner := hstep.owner i.owner
      member := hstep.member i
      signature := ⟨t.classes.get?, hstep.classes, rfl⟩
      kind := Descriptor.isMethod_mapClasses i.signature }

/-- The class and its field are declared twice. -/
def renamedTwice : List Declaration :=
  [.className "net/World" "x", .member ⟨"net/World", "pos", "Lnet/World;", "s"⟩,
    .className "net/World" "a", .member ⟨"net/World", "pos", "Lnet/World;", "t"⟩]

theorem renamedTwice_resolves :
    Built renamedTwice (renamedTwice.foldl declare empty) ∧
    (renamedTwice.foldl declare empty).resolve ⟨"net/World", "pos", "Lnet/World;"⟩ =
      ⟨"a", "t", "La;"⟩ ∧
    Resolved renamedTwice ⟨"net/World", "pos", "Lnet/World;"⟩ ⟨"a", "t", "La;"⟩ := by
  have hbuilt : Built renamedTwice (renamedTwice.foldl declare empty) :=
    .declare _ (.declare _ (.declare _ (.declare _ .empty)))
  have hclass : (renamedTwice.foldl declare empty).classes.get? "net/World" = some "a" := by decide
  have hentry : (renamedTwice.foldl declare empty).entryFor? ⟨"net/World", "pos", "Lnet/World;"⟩ =
      some ⟨"net/World", "pos", "Lnet/World;", "t"⟩ := entryUnder_withMember rfl _ _
  have hresolve : (renamedTwice.foldl declare empty).resolve ⟨"net/World", "pos", "Lnet/World;"⟩ =
      ⟨"a", "t", "La;"⟩ := by
    have hchars : "Lnet/World;".toList = 'L' :: ("net/World".toList ++ ';' :: []) := rfl
    rw [resolve, className, hclass, hentry, Descriptor.mapClasses_eq, hchars,
      Descriptor.renamed_name (by simp), Descriptor.renamed_nil, String.ofList_toList, hclass]
    rfl
  exact ⟨hbuilt, hresolve, hresolve ▸ (built_table_resolves hbuilt).2 _⟩

end ClassPatch.MappingTable
