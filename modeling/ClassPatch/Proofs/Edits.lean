-- Edits keep classes linked. Each place that an edit changes gets a copy
-- that fits it, so what was marked before an edit is marked after it.
import ClassPatch.Proofs.Attempts
import ClassPatch.Proofs.Captures
import ClassPatch.Proofs.Fragments

namespace ClassPatch

/-- Every method of the class is linked. -/
def Class.Linked (c : Class) : Prop := ∀ m ∈ c.methods, m.Linked

/-! ## Whole methods -/

namespace Method

/-- What one method marks the other one marks too. -/
def MarkedIn (m m' : Method) : Prop :=
  ∀ l ∈ markers m.code.toList, l ∈ markers m'.code.toList

theorem linked_clearBody (m : Method) : m.clearBody.2.Linked := by
  unfold clearBody
  dsimp only
  split <;> exact linked_of_empty rfl rfl

theorem linked_create (access : UInt16) (name desc : String) (exceptions : List String) :
    Linked { create access name desc with exceptions } := linked_of_empty rfl rfl

theorem keepsLabels_move (p : Packing) : Code.KeepsLabels p.move := Code.keepsLabels_mapLocal _

theorem noTemp_move (p : Packing) {i : Node} (hi : i.NoTemp) : (p.move i).NoTemp := by
  intro t w hc
  rw [Packing.move, Code.access?_mapLocal, Option.map_eq_some_iff] at hc
  obtain ⟨⟨x, w'⟩, hx, he⟩ := hc
  simp only [Prod.mk.injEq] at he
  cases x with
  | slot s => exact Local.noConfusion he.1
  | temp t' => exact hi t' w' hx

/-- All that renumbering does where it succeeds. -/
theorem renumber_ok {m m' : Method} (hr : m.renumber = .ok m') :
    ∃ n, m.paramSlots = .ok n ∧
      let p := packing (saturate n) m.uses
      m' = { m with
        code := m.code.mapNodes p.move
        locals := m.locals.map fun v => { v with slot := p.slot (v.slot, v.width) }
        maxLocals := p.next } := by
  unfold renumber at hr
  obtain ⟨n, hn, hr⟩ := bind_eq_ok.1 hr
  cases hr
  exact ⟨n, hn, rfl⟩

/-- New numbers for the slots leave every label where it is. -/
theorem linked_renumber {m m' : Method} (h : m.Linked) (hr : m.renumber = .ok m') : m'.Linked := by
  obtain ⟨n, _, rfl⟩ := renumber_ok hr
  have hk := keepsLabels_move (packing (saturate n) m.uses)
  refine ⟨Code.linked_mapNodes hk (fun _ => noTemp_move _) h.code, fun v hv => ?_⟩
  obtain ⟨u, hu, rfl⟩ := List.mem_map.1 hv
  have := h.locals u hu
  exact ⟨(Code.mem_markers_mapNodes hk).2 this.1, (Code.mem_markers_mapNodes hk).2 this.2⟩

end Method

namespace Edit

/-! ## Places that a needle has -/

/-- The needle's names give the host's labels, and all that a closed fragment needs. -/
theorem fits_bindingAt {needle code host : Code} {r : Region} {nodes : List Node} {pulled : Bool}
    (hr : Code.Captured needle.toList nodes r) (hc : code.Closed (some needle))
    (hm : ∀ l ∈ nodes.flatMap Insn.labels, l ∈ markers host.toList) :
    (code.copy.bind pulled (needle.bindingAt r)).Fits host := by
  refine Code.fits_bind ?_ ?_
  · intro e he
    obtain ⟨n, _, hn⟩ := List.mem_filterMap.1 he
    obtain ⟨h, hh, rfl⟩ := Option.map_eq_some_iff.1 hn
    exact hm h (hr.places n.2 h hh)
  · intro l hl
    refine (hc l hl).imp_right ?_
    rintro ⟨n, hn, name, k, hname, hk, hmem⟩
    cases hn
    obtain ⟨h, hh⟩ := hr.known k hmem
    refine ⟨(name, h), List.mem_filterMap.2 ⟨(name, k), Dict.mem_of_get? hk, ?_⟩, hname⟩
    rw [hh]
    rfl

/-- Linked code marks whatever its nodes mention. -/
theorem marked_of_mentioned {c : Code} (h : c.Linked) {l : Label}
    (hl : l ∈ c.toList.flatMap Insn.labels) : l ∈ markers c.toList := by
  obtain ⟨i, hi, hl⟩ := List.mem_flatMap.1 hl
  cases i with
  | label k =>
    cases List.mem_singleton.1 hl
    exact mem_markers.2 hi
  | _ => exact h.branches _ hi l hl

/-- Places that are edited one after the other, each by a step that keeps
the method linked and its markers in place. -/
theorem linked_atEach {needle : Code} {step : Progress → Region → Progress} {m : Method}
    (h : m.Linked)
    (hstep : ∀ p r, p.method.Linked → m.MarkedIn p.method →
      Code.Captured needle.toList m.code.toList r →
      (step p r).method.Linked ∧ p.method.MarkedIn (step p r).method) :
    (atEach needle step m).2.Linked := by
  refine (List.foldlRecOn (motive := fun p : Progress => p.method.Linked ∧ m.MarkedIn p.method)
    (m.code.findAll needle) step ⟨h, fun _ hl => hl⟩ ?_).1
  rintro p ⟨hp, hm⟩ r hr
  obtain ⟨hl, hm'⟩ := hstep p r hp hm (Code.captured_findAll hr)
  exact ⟨hl, fun l hl => hm' l (hm l hl)⟩

theorem linked_injectInto {needle : Option Code} {code : Code} (hc : code.Closed needle)
    (before : Bool) {m : Method} (h : m.Linked) : (injectInto needle code before m).2.Linked := by
  unfold injectInto
  cases needle with
  | some needle =>
    refine linked_atEach h fun p r hp hm hr => ?_
    have hf : (code.copy.mergeLabels (needle.bindingAt (r.shifted p.shift))).Fits p.method.code :=
      fits_bindingAt (r := r.shifted p.shift) ⟨hr.known, hr.places⟩ hc
        fun l hl => hm l (marked_of_mentioned h.code hl)
    unfold injectAt
    dsimp only
    cases before <;> exact Method.linked_splice hp hf _ _
  | none =>
    have hf := Code.fits_copy hc m.code
    cases before <;> exact (Method.linked_splice h hf _ _).1

theorem linked_replaceIn {needle code : Code} (hc : code.Closed (some needle)) {m : Method}
    (h : m.Linked) : (replaceIn needle code m).2.Linked := by
  refine linked_atEach h fun p r hp hm hr => ?_
  have hf : (code.copy.pullLabels (needle.bindingAt (r.shifted p.shift))).Fits p.method.code :=
    fits_bindingAt (r := r.shifted p.shift) ⟨hr.known, hr.places⟩ hc
      fun l hl => hm l (marked_of_mentioned h.code hl)
  exact Method.linked_splice hp hf _ _

end Edit

/-! ## Changes of a class -/

namespace Patching
variable {α β : Type} {inv : Class → Prop}

/-- Whatever comes out, the class keeps the invariant; a result is one of those that `q` allows. -/
def Ensures (inv : Class → Prop) (x : Patching α) (q : α → Prop) : Prop :=
  ∀ c : Class, inv c → inv (x.run.run c).2 ∧ ∀ a, (x.run.run c).1 = .ok a → q a

theorem Ensures.pure {a : α} {q : α → Prop} (h : q a) : Ensures inv (pure a) q := by
  intro c hc
  refine ⟨hc, ?_⟩
  rintro _ ⟨⟩
  exact h

theorem Ensures.throw {e : PatchError} {q : α → Prop} : Ensures inv (throw e) q :=
  fun _ hc => ⟨hc, fun _ h => nomatch h⟩

theorem Ensures.get : Ensures inv get inv := by
  intro c hc
  refine ⟨hc, ?_⟩
  rintro _ ⟨⟩
  exact hc

theorem Ensures.set {c : Class} (h : inv c) : Ensures inv (set c) fun _ => True :=
  fun _ _ => ⟨h, fun _ _ => trivial⟩

theorem Ensures.bind {x : Patching α} {f : α → Patching β} {q : α → Prop} {r : β → Prop}
    (hx : Ensures inv x q) (hf : ∀ a, q a → Ensures inv (f a) r) : Ensures inv (x >>= f) r := by
  intro c hc
  obtain ⟨hl, hq⟩ := hx c hc
  rw [run_bind]
  rcases hxc : x.run.run c with ⟨a | a, c'⟩
  · rw [hxc] at hl
    exact ⟨hl, fun _ h => nomatch h⟩
  · rw [hxc] at hl hq
    exact hf a (hq a rfl) c' hl

theorem Ensures.mapM {f : α → Patching β} {xs : List α}
    (h : ∀ x ∈ xs, Ensures inv (f x) fun _ => True) : Ensures inv (xs.mapM f) fun _ => True := by
  induction xs with
  | nil => exact .pure trivial
  | cons x xs ih =>
    rw [List.mapM_cons]
    refine (h x (List.mem_cons_self ..)).bind fun _ _ => ?_
    exact (ih fun y hy => h y (List.mem_cons_of_mem _ hy)).bind fun _ _ => Ensures.pure trivial

end Patching

/-! ## Classes member by member -/

/-- The class has the version, and every member what its kind has to have. -/
structure Class.Each (major : UInt16) (q : Field → Prop) (p : Method → Prop) (c : Class) :
    Prop where
  major : c.major = major
  fields : ∀ f ∈ c.fields, q f
  methods : ∀ m ∈ c.methods, p m

section Each
variable {major : UInt16} {q : Field → Prop} {p : Method → Prop}

theorem Class.Each.modifyMethod {c : Class} (h : c.Each major q p) (i : Nat) {f : Method → Method}
    (hf : ∀ m ∈ c.methods, p m → p (f m)) : (c.modifyMethod i f).Each major q p := by
  refine ⟨h.major, h.fields, ?_⟩
  intro m hm
  obtain ⟨j, hj⟩ := List.getElem?_of_mem hm
  rw [Class.modifyMethod, List.getElem?_modify] at hj
  obtain ⟨m', hm', rfl⟩ := Option.map_eq_some_iff.1 hj
  have hmem := List.mem_of_getElem? hm'
  split
  · exact hf m' hmem (h.methods m' hmem)
  · exact h.methods m' hmem

theorem Class.Each.addField {c : Class} (h : c.Each major q p) {f : Field} (hf : q f) :
    Class.Each major q p { c with fields := c.fields ++ [f] } :=
  ⟨h.major, List.forall_mem_append.2 ⟨h.fields, List.forall_mem_singleton.2 hf⟩, h.methods⟩

theorem Class.Each.addMethod {c : Class} (h : c.Each major q p) {m : Method} (hm : p m) :
    Class.Each major q p { c with methods := c.methods ++ [m] } :=
  ⟨h.major, h.fields, List.forall_mem_append.2 ⟨h.methods, List.forall_mem_singleton.2 hm⟩⟩

/-! ## Edits -/

namespace Edit
open Patching

/-- What the edit does to one member, old or new, gives one that has what its
kind has to have. -/
def Keeps (q : Field → Prop) (p : Method → Prop) : Edit → Prop
  | .write access target exceptions body =>
    (∀ m, p m → p ({ m with access } : Method).clearBody.2) ∧
      p { Method.create access target.member target.signature with exceptions } ∧
        ∀ code, body = some code → ∀ m, p m → p (m.prepend code.copy).2
  | .inject _ needle code before => ∀ m, p m → p (injectInto needle code before m).2
  | .replace _ needle code => ∀ m, p m → p (replaceIn needle code m).2
  | .addField access target value =>
    ∀ w, fieldWidth target.signature = .ok w → q ⟨access, target.member, target.signature, value⟩

theorem Keeps.revise {e : Edit} (h : e.Keeps q p) (he : e.splices) {m : Method} (hm : p m) :
    p (e.revise m) := by
  cases e with
  | inject => exact h m hm
  | replace => exact h m hm
  | write => cases he
  | addField => cases he

section
variable {access : UInt16} {target : Identifier} {exceptions : List String} {body : Option Code}
  {m : Method}

theorem Keeps.filled (h : (Edit.write access target exceptions body).Keeps q p) (hm : p m) :
    p (m.filled body) := by
  cases body with
  | none => exact hm
  | some code => exact h.2.2 code rfl m hm

theorem Keeps.cleared (h : (Edit.write access target exceptions body).Keeps q p) (hm : p m)
    (hd : (Descriptor.methodShape? m.desc).isSome) : p (m.cleared access) := by
  obtain ⟨shape, hd⟩ := Option.isSome_iff_exists.1 hd
  have := h.1 m hm
  rwa [Method.clearBody_eq, hd] at this

theorem Keeps.stripped (h : (Edit.write access target exceptions body).Keeps q p) (hm : p m)
    (hd : Descriptor.methodShape? m.desc = none) : p (m.stripped access) := by
  have := h.1 m hm
  rwa [Method.clearBody_eq, hd] at this

end

/-- However the edit ends, what it keeps of each member it keeps of the class. -/
theorem Exit.each {e : Edit} {c c' : Class} {outcome : Except PatchError Nat}
    (h : Exit c e outcome c') (hk : e.Keeps q p) (hc : c.Each major q p) : c'.Each major q p := by
  cases h with
  | spliced he hi sites => exact hc.modifyMethod _ fun _ _ hm => hk.revise he hm
  | missing => exact hc
  | fieldIsMethod => exact hc
  | fieldInvalid => exact hc
  | fieldAdded hd =>
    obtain ⟨w, hw⟩ := fieldWidth_ok.2 hd
    exact hc.addField (hk w hw)
  | notAdmitted => exact hc
  | created => exact hc.addMethod (hk.filled hk.2.1)
  | rewritten ha hi hm hd =>
    have hm := hc.methods _ (List.mem_of_getElem? hm)
    exact hc.modifyMethod _ fun _ _ _ => hk.filled (hk.cleared hm hd)
  | stripped ha hi hm hd =>
    have hm := hc.methods _ (List.mem_of_getElem? hm)
    exact hc.modifyMethod _ fun _ _ _ => hk.stripped hm hd

/-- An edit keeps what it keeps of each member, whatever comes out. -/
theorem ensures_apply {e : Edit} (h : e.Keeps q p) :
    Ensures (Class.Each major q p) e.apply fun _ => True :=
  fun c hc => ⟨(e.exit_run c).each h hc, fun _ _ => trivial⟩

end Edit

/-! ## Patches -/

namespace Patch
open Patching

theorem ensures_pack (hr : ∀ m m' : Method, p m → m.renumber = .ok m' → p m') (patch : Patch)
    (k : Key) : Ensures (Class.Each major q p) (patch.pack k) fun _ => True := by
  unfold pack
  refine Ensures.get.bind fun c hc => ?_
  split
  · exact .pure trivial
  · split
    · exact .pure trivial
    · rename_i i _ m hm
      split
      · exact .pure trivial
      · split
        · rename_i m' h
          have hl := hr m m' (hc.methods m (List.mem_of_getElem? hm)) h
          exact (Ensures.set (hc.modifyMethod _ fun _ _ _ => hl)).bind fun _ _ =>
            Ensures.pure trivial
        · exact .throw

/-- A patch keeps what new slot numbers and all of its edits keep of each
member, whatever comes out. -/
theorem each_run (hr : ∀ m m' : Method, p m → m.renumber = .ok m' → p m') {patch : Patch}
    (h : ∀ e ∈ patch.edits, e.Keeps q p) {c : Class} (hc : c.Each major q p) :
    (patch.run c).2.Each major q p := by
  have hall : Ensures (Class.Each major q p) patch.apply fun _ => True := by
    refine (Ensures.mapM fun k _ => ensures_pack hr patch k).bind fun _ _ => ?_
    refine (Ensures.mapM fun e he => ?_).bind fun _ _ => Ensures.pure trivial
    exact (Edit.ensures_apply (h e he)).bind fun _ _ => Ensures.pure trivial
  exact (hall c hc).1

end Patch

end Each

/-! ## Linked classes -/

namespace Edit

/-- The code that an edit brings is closed. -/
def Closed : Edit → Prop
  | .write _ _ _ body => ∀ code, body = some code → code.Closed none
  | .inject _ needle code _ => code.Closed needle
  | .replace _ needle code => code.Closed (some needle)
  | .addField .. => True

/-- An edit with closed code keeps methods linked. -/
theorem Closed.keeps {e : Edit} (h : e.Closed) : e.Keeps (fun _ => True) Method.Linked := by
  cases e with
  | write access target exceptions body =>
    refine ⟨fun m _ => Method.linked_clearBody _, Method.linked_create .., fun code hb m hm => ?_⟩
    exact (Method.linked_splice hm (Code.fits_copy (h code hb) m.code) _ _).1
  | inject target needle code before => exact fun m hm => linked_injectInto h before hm
  | replace target needle code => exact fun m hm => linked_replaceIn h hm
  | addField => exact fun _ _ => trivial

end Edit

/-- A patch whose code is closed keeps its class linked, whatever comes out. -/
theorem Patch.linked_run {p : Patch} (hp : ∀ e ∈ p.edits, e.Closed) {c : Class} (hc : c.Linked) :
    (p.run c).2.Linked := by
  have h : c.Each c.major (fun _ => True) Method.Linked := ⟨rfl, fun _ _ => trivial, hc⟩
  exact (Patch.each_run (fun _ _ hm hr => Method.linked_renumber hm hr)
    (fun e he => (hp e he).keeps) h).methods

end ClassPatch
