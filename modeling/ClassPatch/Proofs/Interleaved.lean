-- Edits on different methods do not meet. An edit that puts code among code
-- reads and writes the one method it names, the locals that are packed before
-- depend on the set of methods and not on the order of the edits, and the
-- writer sees nothing else. So only the order on each method can be seen.
import ClassPatch.Proofs.Landing
import Mathlib.Data.String.Basic

namespace ClassPatch

/-! ## Programs that succeed -/

namespace Patching
variable {α β : Type}

/-- The program succeeds on the first class and leaves the second. -/
def Leads (x : Patching α) (c c' : Class) : Prop := ∃ a, x.run.run c = (.ok a, c')

theorem leads_pure {a : α} {c c' : Class} : Leads (pure a) c c' ↔ c' = c :=
  ⟨by rintro ⟨_, ⟨⟩⟩; rfl, by rintro rfl; exact ⟨a, rfl⟩⟩

/-- Two programs, if the second leaves the same class whatever the first gives. -/
theorem leads_bind {x : Patching α} {f : α → Patching β} {r : Class → Class → Prop}
    (hf : ∀ a c c', Leads (f a) c c' ↔ r c c') {c c' : Class} :
    Leads (x >>= f) c c' ↔ ∃ d, Leads x c d ∧ r d c' := by
  unfold Leads
  rw [run_bind]
  rcases hx : x.run.run c with ⟨e | a, d⟩
  · constructor
    · rintro ⟨_, ⟨⟩⟩
    · rintro ⟨_, ⟨_, ⟨⟩⟩, _⟩
  · constructor
    · intro h
      exact ⟨d, ⟨a, rfl⟩, (hf a d c').1 h⟩
    · rintro ⟨_, ⟨_, ⟨⟩⟩, h⟩
      exact (hf a d c').2 h

/-- A last step that only makes the result. -/
theorem leads_map {x : Patching α} {f : α → β} {c c' : Class} :
    Leads (x >>= fun a => pure (f a)) c c' ↔ Leads x c c' := by
  rw [leads_bind fun a d d' => leads_pure]
  exact ⟨fun ⟨d, hd, h⟩ => h ▸ hd, fun h => ⟨c', h, rfl⟩⟩

theorem leads_mapM_cons {f : α → Patching β} {x : α} {xs : List α} {c c' : Class} :
    Leads ((x :: xs).mapM f) c c' ↔ ∃ d, Leads (f x) c d ∧ Leads (xs.mapM f) d c' := by
  rw [List.mapM_cons]
  exact leads_bind fun a d d' => leads_map

end Patching

open Patching

/-! ## Edits one after the other -/

/-- The class once each method has met the edits that name it, and no others. -/
def Class.revised (es : List Edit) (c : Class) : Class :=
  { c with methods := c.methods.mapIdx fun i m =>
      (es.filter fun e => c.spot? e.key = some i).foldl (fun m e => e.revise m) m }

namespace Edit

/-- A change of one method needs this method and leaves the others. -/
theorem leads_onMethod {target : Identifier} {f : Method → Nat × Method} {c c' : Class} :
    Leads (onMethod target f) c c' ↔
      ∃ i, c.spot? (target.member, target.signature) = some i ∧
        c' = c.modifyMethod i fun m => (f m).2 := by
  unfold Leads
  cases hi : c.spot? (target.member, target.signature) with
  | none =>
    rw [run_onMethod_missing hi]
    constructor
    · rintro ⟨_, ⟨⟩⟩
    · rintro ⟨_, ⟨⟩, _⟩
  | some i =>
    obtain ⟨m, hm⟩ := Class.exists_of_spot? hi
    rw [run_onMethod_found hi hm]
    constructor
    · rintro ⟨_, ⟨⟩⟩
      exact ⟨i, rfl, rfl⟩
    · rintro ⟨_, ⟨⟩, rfl⟩
      exact ⟨_, rfl⟩

/-- An edit that puts code among code does so in the one method that it names. -/
theorem leads_applyEdit {e : Edit} (he : e.splices) {c c' : Class} :
    Leads (Patch.applyEdit e) c c' ↔
      ∃ i, c.spot? e.key = some i ∧ c' = c.modifyMethod i e.revise := by
  unfold Patch.applyEdit
  rw [leads_map]
  cases e with
  | inject target needle code before => exact leads_onMethod (f := injectInto needle code before)
  | replace target needle code => exact leads_onMethod (f := replaceIn needle code)
  | write => cases he
  | addField => cases he

theorem revised_cons {e : Edit} {c : Class} {i : Nat} (hi : c.spot? e.key = some i)
    (es : List Edit) : (c.modifyMethod i e.revise).revised es = c.revised (e :: es) := by
  have hspot := c.spot?_modifyMethod i e.key_revise
  unfold Class.revised
  simp only [hspot]
  refine congrArg (fun methods => { c with methods }) (List.ext_getElem? fun j => ?_)
  rw [List.getElem?_mapIdx, List.getElem?_mapIdx]
  change (Option.map _ (c.methods.modify i e.revise)[j]?) = _
  rw [List.getElem?_modify]
  cases c.methods[j]? with
  | none => rfl
  | some m =>
    by_cases hj : i = j
    · subst hj
      simp [hi]
    · simp [hi, hj]

/-- All edits find their methods exactly if they are there from the start, and
each method then has met its own edits in their order. -/
theorem leads_mapM_applyEdit {es : List Edit} (hes : ∀ e ∈ es, e.splices) {c c' : Class} :
    Leads (es.mapM Patch.applyEdit) c c' ↔
      (∀ e ∈ es, (c.spot? e.key).isSome) ∧ c' = c.revised es := by
  induction es generalizing c with
  | nil =>
    have hsame : c.revised [] = c := by
      have hmap : c.methods.mapIdx (fun _ m => m) = c.methods :=
        List.ext_getElem? fun j => by rw [List.getElem?_mapIdx, Option.map_id']
      unfold Class.revised
      simp only [List.filter_nil, List.foldl_nil, hmap]
    rw [List.mapM_nil, leads_pure, hsame]
    simp
  | cons e es ih =>
    rw [leads_mapM_cons, List.forall_mem_cons]
    constructor
    · rintro ⟨d, hd, hrest⟩
      obtain ⟨i, hi, rfl⟩ := (leads_applyEdit (hes e (List.mem_cons_self ..))).1 hd
      obtain ⟨hall, rfl⟩ := (ih fun e' he' => hes e' (List.mem_cons_of_mem _ he')).1 hrest
      refine ⟨⟨by rw [hi]; rfl, fun e' he' => ?_⟩, revised_cons hi es⟩
      rw [← c.spot?_modifyMethod i e.key_revise]
      exact hall e' he'
    · rintro ⟨⟨hi, hall⟩, rfl⟩
      obtain ⟨i, hi⟩ := Option.isSome_iff_exists.1 hi
      have hstep := (leads_applyEdit (hes e (List.mem_cons_self ..))).2 ⟨i, hi, rfl⟩
      refine ⟨c.modifyMethod i e.revise, hstep, ?_⟩
      refine (ih fun e' he' => hes e' (List.mem_cons_of_mem _ he')).2
        ⟨fun e' he' => ?_, (revised_cons hi es).symm⟩
      rw [c.spot?_modifyMethod i e.key_revise]
      exact hall e' he'

end Edit

/-- Lists with the same edits on each method, in the same order, make the same
class. -/
theorem Class.revised_congr {es es' : List Edit}
    (h : ∀ k, es.filter (·.key = k) = es'.filter (·.key = k)) (c : Class) :
    c.revised es = c.revised es' := by
  -- The edits that lead to the spot of a method all name this method.
  have hspot : ∀ (es : List Edit) i m, c.methods[i]? = some m →
      es.filter (fun e => c.spot? e.key = some i) =
        (es.filter (·.key = m.key)).filter fun e => c.spot? e.key = some i := by
    intro es i m hm
    rw [List.filter_filter]
    refine List.filter_congr fun e _ => ?_
    by_cases he : c.spot? e.key = some i
    · simp [he, key_of_spot? he hm]
    · simp [he]
  refine congrArg (fun methods => { c with methods }) (List.ext_getElem? fun i => ?_)
  rw [List.getElem?_mapIdx, List.getElem?_mapIdx]
  cases hm : c.methods[i]? with
  | none => rfl
  | some m => rw [Option.map_some, Option.map_some, hspot es i m hm, hspot es' i m hm, h]

/-! ## Methods to be packed -/

namespace Patch

/-- The order of keys: by name, then by descriptor. -/
def Key.Before (k k' : Key) : Prop := k.1 < k'.1 ∨ k.1 = k'.1 ∧ k.2 < k'.2

theorem Key.Before.trans {a b c : Key} (h : Before a b) (h' : Before b c) : Before a c := by
  rcases h with h | ⟨he, h⟩ <;> rcases h' with h' | ⟨he', h'⟩
  · exact .inl (lt_trans h h')
  · exact .inl (he' ▸ h)
  · exact .inl (he ▸ h')
  · exact .inr ⟨he.trans he', lt_trans h h'⟩

theorem Key.not_before_self (k : Key) : ¬ Before k k := by
  rintro (h | ⟨_, h⟩) <;> exact lt_irrefl _ h

theorem Key.before_or (a b : Key) : a = b ∨ Before a b ∨ Before b a := by
  rcases lt_trichotomy a.1 b.1 with h | h | h
  · exact .inr (.inl (.inl h))
  · rcases lt_trichotomy a.2 b.2 with h' | h' | h'
    · exact .inr (.inl (.inr ⟨h, h'⟩))
    · exact .inl (Prod.ext h h')
    · exact .inr (.inr (.inr ⟨h.symm, h'⟩))
  · exact .inr (.inr (.inl h))

theorem mem_insertKey {x k : Key} {ks : List Key} : x ∈ insertKey k ks ↔ x = k ∨ x ∈ ks := by
  induction ks with
  | nil => simp [insertKey]
  | cons k' ks ih =>
    rw [insertKey]
    split
    · rename_i h
      simp [h]
    · split
      · simp
      · rw [List.mem_cons, ih, List.mem_cons]
        tauto

theorem pairwise_insertKey {ks : List Key} (h : ks.Pairwise Key.Before) (k : Key) :
    (insertKey k ks).Pairwise Key.Before := by
  induction ks with
  | nil => exact List.pairwise_singleton _ _
  | cons k' ks ih =>
    obtain ⟨hk', hks⟩ := List.pairwise_cons.1 h
    rw [insertKey]
    split
    · exact h
    · rename_i hne
      split
      · rename_i hlt
        refine List.pairwise_cons.2 ⟨fun x hx => ?_, h⟩
        rcases List.mem_cons.1 hx with rfl | hx
        · exact hlt
        · exact Key.Before.trans hlt (hk' x hx)
      · rename_i hge
        refine List.pairwise_cons.2 ⟨fun x hx => ?_, ih hks⟩
        rcases mem_insertKey.1 hx with rfl | hx
        · exact ((Key.before_or x k').resolve_left hne).resolve_left hge
        · exact hk' x hx

/-- The methods to be packed stand in order, each once. -/
theorem pairwise_spliced (p : Patch) : p.spliced.Pairwise Key.Before :=
  List.foldlRecOn (motive := fun ks : List Key => ks.Pairwise Key.Before) _ _ List.Pairwise.nil
    fun _ h _ _ => pairwise_insertKey h _

theorem mem_spliced {p : Patch} {k : Key} :
    k ∈ p.spliced ↔ ∃ e ∈ p.edits, e.splices ∧ e.key = k := by
  have hfold : ∀ (es : List Edit) (ks : List Key),
      k ∈ es.foldl (fun ks e => insertKey (e.target.member, e.target.signature) ks) ks ↔
        k ∈ ks ∨ ∃ e ∈ es, e.key = k := by
    intro es
    induction es with
    | nil => simp
    | cons e es ih =>
      intro ks
      rw [List.foldl_cons, ih, mem_insertKey, List.exists_mem_cons_iff]
      change (k = e.key ∨ k ∈ ks) ∨ _ ↔ _
      rw [or_comm (a := k = e.key), or_assoc, eq_comm (a := k)]
  unfold spliced
  rw [hfold]
  simp [and_assoc]

/-- Which methods are packed, and in which order, depends on the methods only. -/
theorem spliced_congr {p p' : Patch}
    (h : ∀ k, (∃ e ∈ p.edits, e.splices ∧ e.key = k) ↔ ∃ e ∈ p'.edits, e.splices ∧ e.key = k) :
    p.spliced = p'.spliced := by
  have hnodup : ∀ q : Patch, q.spliced.Nodup := by
    intro q
    refine q.pairwise_spliced.imp ?_
    rintro a _ hab rfl
    exact Key.not_before_self a hab
  have hperm : p.spliced.Perm p'.spliced :=
    (List.perm_ext_iff_of_nodup (hnodup p) (hnodup p')).2 fun k => by
      rw [mem_spliced, mem_spliced, h]
  refine hperm.eq_of_pairwise (fun a b _ _ hab hba => ?_) p.pairwise_spliced p'.pairwise_spliced
  exact (Key.not_before_self a (hab.trans hba)).elim

/-- Patches of one class with the same edits on each method, in the same order,
end in the same class. -/
theorem leads_apply_congr {name : String} {es es' : List Edit} (hes : ∀ e ∈ es, e.splices)
    (hes' : ∀ e ∈ es', e.splices) (h : ∀ k, es.filter (·.key = k) = es'.filter (·.key = k))
    {c c' : Class} (hl : Leads (Patch.mk name es).apply c c') :
    Leads (Patch.mk name es').apply c c' := by
  have hmem : ∀ e, e ∈ es ↔ e ∈ es' := by
    intro e
    have := congrArg (e ∈ ·) (h e.key)
    simpa using this
  have hspliced : (Patch.mk name es).spliced = (Patch.mk name es').spliced :=
    spliced_congr fun k => by simp only [hmem]
  have happly : ∀ es : List Edit, (∀ e ∈ es, e.splices) → (Leads (Patch.mk name es).apply c c' ↔
      ∃ d, Leads ((Patch.mk name es).spliced.mapM (pack ⟨name, es⟩)) c d ∧
        (∀ e ∈ es, (d.spot? e.key).isSome) ∧ c' = d.revised es) := by
    intro es hes
    unfold apply
    refine leads_bind (r := fun d d' => (∀ e ∈ es, (d.spot? e.key).isSome) ∧
      d' = d.revised es) fun _ d d' => ?_
    rw [leads_map]
    exact Edit.leads_mapM_applyEdit hes
  obtain ⟨d, hd, hall, hc⟩ := (happly es hes).1 hl
  rw [hspliced] at hd
  refine (happly es' hes').2 ⟨d, hd, fun e he => hall e ((hmem e).2 he), ?_⟩
  rw [hc, d.revised_congr h]

end Patch

/-! ## Registries -/

/-- The edits of a class, whose name has dots, in their order. -/
def Edit.ofClass (name : String) (es : List Edit) : List Edit :=
  es.filter (·.target.dottedOwner = name)

/-- The edit goes to this member of this class, whose name has dots. -/
def Edit.goesTo (className member signature : String) (e : Edit) : Bool :=
  e.target.dottedOwner == className && e.target.member == member &&
    e.target.signature == signature

namespace Registry

/-- A registry with edits that came one after the other. -/
def ofEdits (config : Config) (es : List Edit) : Registry := es.foldl register { config }

theorem get?_register (r : Registry) (e : Edit) (name : String) :
    (r.register e).patches.get? name =
      if e.target.dottedOwner = name then
        some (((r.patches.get? name).getD { className := name }).add e)
      else r.patches.get? name := by
  unfold register
  dsimp only
  split
  · rename_i h
    subst h
    exact Dict.get?_insert_self ..
  · rename_i h
    exact Dict.get?_insert_of_ne (Ne.symm h) ..

/-- A class has a patch if any edit is for it, and the patch has all of these in
their order. -/
theorem get?_ofEdits (config : Config) (es : List Edit) (name : String) :
    (ofEdits config es).patches.get? name =
      if Edit.ofClass name es = [] then none else some ⟨name, Edit.ofClass name es⟩ := by
  unfold ofEdits Edit.ofClass
  induction es using List.reverseRecOn with
  | nil => rfl
  | append_singleton es e ih =>
    rw [List.foldl_concat, get?_register, ih, List.filter_append]
    by_cases he : e.target.dottedOwner = name
    · by_cases hes : es.filter (·.target.dottedOwner = name) = [] <;> simp [he, hes, Patch.add]
    · simp [he]

theorem transform_ne_none {r : Registry} {name : String} {bytes : List UInt8} :
    (r.transform name (some bytes)).result ≠ .ok none := by
  unfold transform
  dsimp only
  cases (r.transformWithReport name bytes).result <;> rintro ⟨⟩

/-- The same edits on each method, in the same order, whatever stands between them. -/
def SameOrder (es es' : List Edit) : Prop := ∀ className member signature,
  es.filter (Edit.goesTo className member signature) =
    es'.filter (Edit.goesTo className member signature)

theorem SameOrder.mem_iff {es es' : List Edit} (h : SameOrder es es') (e : Edit) :
    e ∈ es ↔ e ∈ es' := by
  have := congrArg (e ∈ ·) (h e.target.dottedOwner e.target.member e.target.signature)
  simpa [Edit.goesTo] using this

/-- Within one class the methods are told apart by name and descriptor. -/
theorem SameOrder.filter_key {es es' : List Edit} (h : SameOrder es es') (name : String)
    (k : Patch.Key) :
    (Edit.ofClass name es).filter (·.key = k) = (Edit.ofClass name es').filter (·.key = k) := by
  have hgoes : ∀ es : List Edit, (Edit.ofClass name es).filter (·.key = k) =
      es.filter (Edit.goesTo name k.1 k.2) := by
    intro es
    unfold Edit.ofClass
    rw [List.filter_filter]
    refine List.filter_congr fun e _ => ?_
    rw [Bool.eq_iff_iff]
    simp only [Edit.goesTo, Edit.key, Prod.ext_iff, Bool.and_eq_true, decide_eq_true_eq, beq_iff_eq]
    tauto
  rw [hgoes, hgoes, h]

theorem SameOrder.transform {es es' : List Edit} (h : SameOrder es es')
    (hes : ∀ e ∈ es, e.splices) (hes' : ∀ e ∈ es', e.splices) {config config' : Config}
    {name : String} {bytes out : Option (List UInt8)}
    (ht : ((ofEdits config es).transform name bytes).result = .ok out) :
    ((ofEdits config' es').transform name bytes).result = .ok out := by
  cases bytes with
  | none => exact ht
  | some bytes =>
    have hpatch := get?_ofEdits config es (Identifier.dotted name)
    have hpatch' := get?_ofEdits config' es' (Identifier.dotted name)
    have hnil : Edit.ofClass (Identifier.dotted name) es = [] ↔
        Edit.ofClass (Identifier.dotted name) es' = [] := by
      simp only [Edit.ofClass, List.filter_eq_nil_iff, h.mem_iff]
    by_cases hempty : Edit.ofClass (Identifier.dotted name) es = []
    · rw [if_pos hempty] at hpatch
      rw [if_pos (hnil.1 hempty)] at hpatch'
      unfold Registry.transform transformWithReport patch? at ht ⊢
      rw [hpatch] at ht
      rw [hpatch']
      exact ht
    · rw [if_neg hempty] at hpatch
      rw [if_neg (hempty ∘ hnil.2)] at hpatch'
      cases out with
      | none => exact (transform_ne_none ht).elim
      | some out =>
        obtain ⟨c, report, c', hc, hr, he⟩ := (transform_ok hpatch).1 ht
        obtain ⟨report', hr'⟩ := Patch.leads_apply_congr
          (fun e he => hes e (List.mem_of_mem_filter he))
          (fun e he => hes' e (List.mem_of_mem_filter he)) (h.filter_key _) ⟨report, hr⟩
        exact (transform_ok hpatch').2 ⟨c, report', c', hc, hr', he⟩

/-- Of the edits that put code among code only the order on each method can be
seen: two registries with the same edits on each, in the same order, hand out the
same bytes for the same classes. -/
theorem only_order_per_method_matters {es es' : List Edit} (hes : ∀ e ∈ es, e.splices)
    (hes' : ∀ e ∈ es', e.splices) (h : SameOrder es es') (config config' : Config)
    (name : String) (bytes out : Option (List UInt8)) :
    ((ofEdits config es).transform name bytes).result = .ok out ↔
      ((ofEdits config' es').transform name bytes).result = .ok out :=
  ⟨fun ht => h.transform hes hes' ht,
    fun ht => SameOrder.transform (fun c m s => (h c m s).symm) hes' hes ht⟩

/-- Puts a do-nothing at the start of a method of a class "A". -/
def pause (member : String) : Edit :=
  .inject ⟨"A", member, "()V"⟩ none (Code.empty.push (.simple .NOP)) true

/-- Replaces every do-nothing in a method of a class "A" by two of them. -/
def doublePause (member : String) : Edit :=
  .replace ⟨"A", member, "()V"⟩ (Code.empty.push (.simple .NOP))
    (Code.empty.pushAll [.simple .NOP, .simple .NOP])

theorem pauses_of_two_methods_interleave :
    SameOrder [pause "f", doublePause "f", pause "g"] [pause "g", pause "f", doublePause "f"] ∧
    ∀ bytes out, ((ofEdits {} [pause "f", doublePause "f", pause "g"]).transform "A" bytes).result =
        .ok out ↔
      ((ofEdits {} [pause "g", pause "f", doublePause "f"]).transform "A" bytes).result = .ok out := by
  have hsame : SameOrder [pause "f", doublePause "f", pause "g"]
      [pause "g", pause "f", doublePause "f"] := by
    intro className member signature
    by_cases hf : member = "f"
    · simp [List.filter_cons, Edit.goesTo, pause, doublePause, Edit.target, hf]
    · simp [List.filter_cons, Edit.goesTo, pause, doublePause, Edit.target, Ne.symm hf]
  refine ⟨hsame, fun bytes out => ?_⟩
  exact only_order_per_method_matters (by decide) (by decide) hsame {} {} "A" bytes out

end Registry

end ClassPatch
