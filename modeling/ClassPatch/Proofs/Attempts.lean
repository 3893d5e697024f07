-- What an edit can do to a class, exit by exit. What is said of edits that
-- fail, and of edits that follow one another, is a case analysis over these.
import ClassPatch.Patch
import Mathlib.Data.List.Basic

namespace ClassPatch

/-! ## Members by name and descriptor -/

/-- The name and the descriptor of a method. -/
def Method.key (m : Method) : Patch.Key := (m.name, m.desc)

/-- The method that an edit names in its class. -/
def Edit.key (e : Edit) : Patch.Key := (e.target.member, e.target.signature)

/-- Where the first method of a name and descriptor stands. -/
def Class.spot? (c : Class) (k : Patch.Key) : Option Nat := c.methodIndex? k.1 k.2

namespace Class

theorem spot?_eq (c : Class) (k : Patch.Key) :
    c.spot? k = (c.methods.map Method.key).findIdx? (· == k) := by
  rw [List.findIdx?_map]
  rfl

/-- Only methods of that name and descriptor are found. -/
theorem key_of_spot? {c : Class} {k : Patch.Key} {i : Nat} {m : Method} (h : c.spot? k = some i)
    (hm : c.methods[i]? = some m) : m.key = k := by
  rw [spot?_eq, List.findIdx?_eq_some_iff_getElem] at h
  obtain ⟨hi, hk, _⟩ := h
  rw [List.getElem_map] at hk
  obtain ⟨_, rfl⟩ := List.getElem?_eq_some_iff.1 hm
  exact eq_of_beq hk

/-- A method that is spotted is there. -/
theorem exists_of_spot? {c : Class} {k : Patch.Key} {i : Nat} (h : c.spot? k = some i) :
    ∃ m, c.methods[i]? = some m := by
  obtain ⟨hlt, _⟩ := List.findIdx?_eq_some_iff_getElem.1 h
  exact ⟨_, List.getElem?_eq_getElem hlt⟩

theorem modifyMethod_const {c : Class} {i : Nat} {m : Method} (f : Method → Method)
    (hm : c.methods[i]? = some m) : (c.modifyMethod i fun _ => f m) = c.modifyMethod i f := by
  unfold modifyMethod
  rw [List.modify_eq_set_getElem?, List.modify_eq_set_getElem?, hm]
  rfl

/-- A change of one item does not show where it leaves the item alone. -/
theorem map_modify_of_eq {α β : Type} (g : α → β) {f : α → α} {xs : List α} {i : Nat}
    (h : ∀ x, xs[i]? = some x → g (f x) = g x) : (xs.modify i f).map g = xs.map g := by
  apply List.ext_getElem?
  intro j
  rw [List.getElem?_map, List.getElem?_modify, List.getElem?_map]
  cases hj : xs[j]? with
  | none => rfl
  | some x =>
    by_cases hij : i = j
    · subst hij
      simp [h x hj]
    · simp [hij]

/-- A change that leaves names and descriptors alone moves no method. -/
theorem spot?_modifyMethod (c : Class) (i : Nat) {f : Method → Method}
    (hf : ∀ m, (f m).key = m.key) (k : Patch.Key) : (c.modifyMethod i f).spot? k = c.spot? k := by
  rw [spot?_eq, spot?_eq, modifyMethod, map_modify_of_eq Method.key fun m _ => hf m]

end Class

namespace Edit

/-- What an edit that puts code among code makes of its method. -/
def revise : Edit → Method → Method
  | .inject _ needle code before, m => (injectInto needle code before m).2
  | .replace _ needle code, m => (replaceIn needle code m).2
  | _, m => m

theorem key_atEach (step : Progress → Region → Progress)
    (hstep : ∀ p r, (step p r).method.key = p.method.key) (needle : Code) (m : Method) :
    (atEach needle step m).2.key = m.key :=
  List.foldlRecOn (motive := fun p : Progress => p.method.key = m.key) (m.code.findAll needle)
    step rfl fun p hp r _ => (hstep p r).trans hp

/-- No edit renames a method. -/
theorem key_revise (e : Edit) (m : Method) : (e.revise m).key = m.key := by
  cases e with
  | inject target needle code before =>
    cases needle with
    | some needle =>
      refine key_atEach _ (fun p r => ?_) needle m
      cases before <;> rfl
    | none => cases before <;> rfl
  | replace target needle code =>
    exact key_atEach (replaceAt needle code) (fun _ _ => rfl) needle m
  | _ => rfl

end Edit

/-! ## Methods that lose their body -/

namespace Method

/-- The method without its body and with another access. Its limit of locals stays. -/
def stripped (access : UInt16) (m : Method) : Method :=
  { m with access, code := .empty, locals := [], maxStack := 0 }

/-- The stripped method with its limit set to its parameters. -/
def cleared (access : UInt16) (m : Method) : Method :=
  { m.stripped access with maxLocals := (m.stripped access).knownParams }

/-- The method with a copy of a body, if there is one to be put in. -/
def filled (body : Option Code) (m : Method) : Method :=
  match body with
  | some code => (m.prepend code.copy).2
  | none => m

theorem key_filled (body : Option Code) (m : Method) : (m.filled body).key = m.key := by
  cases body <;> rfl

/-- A method is stripped first, and then its descriptor is read. -/
theorem clearBody_eq (access : UInt16) (m : Method) : { m with access }.clearBody =
    match Descriptor.methodShape? m.desc with
    | some _ => (.ok (), m.cleared access)
    | none => (.error (.invalidDescriptor m.desc), m.stripped access) := by
  have hstripped : ({ m with access, code := .empty, locals := [], maxStack := 0 } : Method) =
      m.stripped access := rfl
  have hslots : (m.stripped access).paramSlots =
      (methodShape m.desc).map fun shape =>
        shape.argSlots + if (m.stripped access).isStatic then 0 else 1 := rfl
  unfold clearBody cleared knownParams
  dsimp only
  rw [hstripped, hslots, methodShape]
  cases Descriptor.methodShape? m.desc <;> rfl

end Method

namespace Patching
variable {α β : Type}

theorem run_bind (x : Patching α) (f : α → Patching β) (c : Class) :
    (x >>= f).run.run c = match x.run.run c with
      | (.ok a, c') => (f a).run.run c'
      | (.error e, c') => (.error e, c') := by
  simp only [ExceptT.run_bind, StateT.run_bind]
  rcases x.run.run c with ⟨a | a, c'⟩ <;> rfl

theorem run_get_bind (f : Class → Patching β) (c : Class) :
    (get >>= f).run.run c = (f c).run.run c := rfl

end Patching

/-! ## The exits of an edit -/

namespace Edit
open Patching

/-- The checks of a write that come before anything else. -/
def Admits (access : UInt16) (target : Identifier) (body : Option Code) : Prop :=
  target.isMethod ∧ ¬ (access &&& 0x0500 ≠ 0 ∧ body.isSome)

instance {access : UInt16} {target : Identifier} {body : Option Code} :
    Decidable (Admits access target body) :=
  inferInstanceAs (Decidable (_ ∧ _))

/-- The method that a write adds. -/
def newMethod (access : UInt16) (target : Identifier) (exceptions : List String)
    (body : Option Code) : Method :=
  { Method.create access target.member target.signature with exceptions }.filled body

/-- The edit can end so: with this outcome, and with this class after it. -/
inductive Exit (c : Class) : Edit → Except PatchError Nat → Class → Prop
  | spliced {e i} (he : splices e) (hi : c.spot? e.key = some i) (sites : Nat) :
      Exit c e (.ok sites) (c.modifyMethod i e.revise)
  | missing {e} (he : splices e) (hi : c.spot? e.key = none) :
      Exit c e (.error (.memberNotFound e.target)) c
  | fieldIsMethod {access target value} (h : Identifier.isMethod target) :
      Exit c (.addField access target value) (.error (.editFailure target .fieldIsMethod)) c
  | fieldInvalid {access target value} (hd : Descriptor.fieldWidth? target.signature = none) :
      Exit c (.addField access target value)
        (.error (.editFailure target (.invalid (.invalidDescriptor target.signature)))) c
  | fieldAdded {access target value} (hd : (Descriptor.fieldWidth? target.signature).isSome) :
      Exit c (.addField access target value) (.ok 1)
        { c with fields := c.fields ++ [⟨access, target.member, target.signature, value⟩] }
  | notAdmitted {access target exceptions body reason} (h : ¬ Admits access target body)
      (hr : reason = if target.isMethod then Refusal.bodyWithoutPlace else .notAMethod) :
      Exit c (.write access target exceptions body) (.error (.editFailure target reason)) c
  | created {access target exceptions body} (ha : Admits access target body)
      (hi : c.spot? (target.member, target.signature) = none) :
      Exit c (.write access target exceptions body) (.ok 1)
        { c with methods := c.methods ++ [newMethod access target exceptions body] }
  | rewritten {access target exceptions body i m} (ha : Admits access target body)
      (hi : c.spot? (target.member, target.signature) = some i) (hm : c.methods[i]? = some m)
      (hd : (Descriptor.methodShape? m.desc).isSome) :
      Exit c (.write access target exceptions body) (.ok 1)
        (c.modifyMethod i fun _ => (m.cleared access).filled body)
  | stripped {access target exceptions body i m} (ha : Admits access target body)
      (hi : c.spot? (target.member, target.signature) = some i) (hm : c.methods[i]? = some m)
      (hd : Descriptor.methodShape? m.desc = none) :
      Exit c (.write access target exceptions body)
        (.error (.editFailure target (.invalid (.invalidDescriptor m.desc))))
        (c.modifyMethod i fun _ => m.stripped access)

section
variable {target : Identifier} {f : Method → Nat × Method} {c : Class}

theorem run_onMethod_missing (hi : c.spot? (target.member, target.signature) = none) :
    (onMethod target f).run.run c = (.error (.memberNotFound target), c) := by
  have hi : c.methodIndex? target.member target.signature = none := hi
  unfold onMethod
  rw [run_get_bind, hi]
  rfl

theorem run_onMethod_found {i : Nat} {m : Method}
    (hi : c.spot? (target.member, target.signature) = some i) (hm : c.methods[i]? = some m) :
    (onMethod target f).run.run c = (.ok (f m).1, c.modifyMethod i fun m => (f m).2) := by
  have hi : c.methodIndex? target.member target.signature = some i := hi
  unfold onMethod
  rw [run_get_bind, hi]
  dsimp only
  rw [hm, ← Class.modifyMethod_const (fun m => (f m).2) hm]
  rfl

end

theorem exit_onMethod {e : Edit} (he : e.splices) {f : Method → Nat × Method}
    (hf : ∀ m, (f m).2 = e.revise m) (c : Class) :
    let r := (onMethod e.target f).run.run c
    Exit c e r.1 r.2 := by
  dsimp only
  cases hi : c.spot? e.key with
  | none =>
    rw [run_onMethod_missing hi]
    exact .missing he hi
  | some i =>
    obtain ⟨m, hm⟩ := Class.exists_of_spot? hi
    rw [run_onMethod_found hi hm, funext hf]
    exact .spliced he hi _

theorem exit_applyAddField (access : UInt16) (target : Identifier) (value : Option Constant)
    (c : Class) : let r := (applyAddField access target value).run.run c
    Exit c (.addField access target value) r.1 r.2 := by
  unfold applyAddField
  by_cases h : target.isMethod
  · rw [if_pos h]
    exact .fieldIsMethod h
  rw [if_neg h]
  cases hd : Descriptor.fieldWidth? target.signature with
  | none =>
    have hw : fieldWidth target.signature = .error (.invalidDescriptor target.signature) := by
      rw [fieldWidth, hd]
    rw [hw]
    exact .fieldInvalid hd
  | some w =>
    rw [fieldWidth_eq_ok.2 hd]
    exact .fieldAdded (hd ▸ rfl)

section
variable {access : UInt16} {target : Identifier} {exceptions : List String} {c : Class}

theorem run_blankMethod_new (hi : c.spot? (target.member, target.signature) = none) :
    (blankMethod access target exceptions).run.run c = (.ok c.methods.length,
      { c with methods := c.methods ++ [newMethod access target exceptions none] }) := by
  have hi : c.methodIndex? target.member target.signature = none := hi
  unfold blankMethod
  rw [run_get_bind, hi]
  rfl

theorem run_blankMethod_old {i : Nat} {m : Method}
    (hi : c.spot? (target.member, target.signature) = some i) (hm : c.methods[i]? = some m) :
    (blankMethod access target exceptions).run.run c =
      match Descriptor.methodShape? m.desc with
      | some _ => (.ok i, c.modifyMethod i fun _ => m.cleared access)
      | none => (.error (.editFailure target (.invalid (.invalidDescriptor m.desc))),
          c.modifyMethod i fun _ => m.stripped access) := by
  have hi : c.methodIndex? target.member target.signature = some i := hi
  unfold blankMethod
  rw [run_get_bind, hi]
  dsimp only
  rw [hm]
  dsimp only
  rw [Method.clearBody_eq]
  cases Descriptor.methodShape? m.desc <;> rfl

theorem modify_concat {α : Type} (f : α → α) (xs : List α) (x : α) :
    (xs ++ [x]).modify xs.length f = xs ++ [f x] := by
  simp [List.modify_eq_set_getElem?]

/-- The body goes into the method that was left without one. -/
theorem run_applyWrite {body : Option Code} (ha : Admits access target body) :
    (applyWrite access target exceptions body).run.run c =
      match (blankMethod access target exceptions).run.run c with
      | (.ok i, c') => (.ok 1, c'.modifyMethod i (Method.filled body))
      | (.error e, c') => (.error e, c') := by
  obtain ⟨hmethod, hplace⟩ := ha
  unfold applyWrite
  rw [if_neg (by simp [hmethod]), if_neg (by simpa using hplace)]
  dsimp only
  rw [run_bind]
  rcases (blankMethod access target exceptions).run.run c with ⟨e | i, c'⟩
  · rfl
  cases body with
  | some code => rfl
  | none =>
    have hsame : c'.modifyMethod i (Method.filled none) = c' := by
      have hid : Method.filled none = id := rfl
      rw [Class.modifyMethod, hid, List.modify_id]
    dsimp only
    rw [hsame]
    rfl

/-- A method that is there loses its body even if its descriptor does not parse. -/
theorem run_write_of_invalid {body : Option Code} {i : Nat} {m : Method}
    (ha : Admits access target body) (hi : c.spot? (target.member, target.signature) = some i)
    (hm : c.methods[i]? = some m) (hd : Descriptor.methodShape? m.desc = none) :
    (Edit.write access target exceptions body).run c =
      (.error (.editFailure target (.invalid (.invalidDescriptor m.desc))),
        c.modifyMethod i fun _ => m.stripped access) := by
  change (applyWrite access target exceptions body).run.run c = _
  rw [run_applyWrite ha, run_blankMethod_old hi hm, hd]

end

theorem exit_applyWrite (access : UInt16) (target : Identifier) (exceptions : List String)
    (body : Option Code) (c : Class) :
    let r := (applyWrite access target exceptions body).run.run c
    Exit c (.write access target exceptions body) r.1 r.2 := by
  dsimp only
  by_cases ha : Admits access target body
  · rw [run_applyWrite ha]
    cases hi : c.spot? (target.member, target.signature) with
    | none =>
      rw [run_blankMethod_new hi]
      dsimp only [Class.modifyMethod]
      rw [modify_concat]
      exact .created ha hi
    | some i =>
      obtain ⟨m, hm⟩ := Class.exists_of_spot? hi
      rw [run_blankMethod_old hi hm]
      cases hd : Descriptor.methodShape? m.desc with
      | none => exact .stripped ha hi hm hd
      | some shape =>
        dsimp only [Class.modifyMethod]
        rw [List.modify_modify_eq]
        exact .rewritten ha hi hm (hd ▸ rfl)
  · unfold applyWrite
    by_cases hmethod : target.isMethod
    · have hplace : access &&& 0x0500 != 0 && body.isSome := by
        simpa [Admits, hmethod, Option.isSome_iff_ne_none] using ha
      rw [if_neg (by simp [hmethod]), if_pos hplace]
      exact .notAdmitted ha (if_pos hmethod).symm
    · rw [if_pos (by simp [hmethod])]
      exact .notAdmitted ha (if_neg hmethod).symm

/-- Every edit ends in one of these ways. -/
theorem exit_run (e : Edit) (c : Class) : Exit c e (e.run c).1 (e.run c).2 := by
  cases e with
  | write access target exceptions body => exact exit_applyWrite ..
  | inject target needle code before =>
    exact exit_onMethod (e := .inject target needle code before) rfl (fun _ => rfl) c
  | replace target needle code =>
    exact exit_onMethod (e := .replace target needle code) rfl (fun _ => rfl) c
  | addField access target value => exact exit_applyAddField ..

/-! ## Edits that fail -/

/-- The write finds a method whose descriptor does not parse, and strips it of
something before it stops there. -/
inductive Strips (c : Class) : Edit → Class → Prop
  | write {access target exceptions body i m} (ha : Admits access target body)
      (hi : c.spot? (target.member, target.signature) = some i) (hm : c.methods[i]? = some m)
      (hd : Descriptor.methodShape? m.desc = none) (hne : m.stripped access ≠ m) :
      Strips c (.write access target exceptions body)
        (c.modifyMethod i fun _ => m.stripped access)

theorem modifyMethod_eq_self_iff {c : Class} {i : Nat} {m m' : Method} (hm : c.methods[i]? = some m) :
    (c.modifyMethod i fun _ => m') = c ↔ m' = m := by
  constructor
  · intro h
    have hget := congrArg (fun c : Class => c.methods[i]?) h
    simpa [Class.modifyMethod, List.getElem?_modify, hm] using hget
  · rintro rfl
    have hsame : (c.methods.modify i fun _ => m') = c.methods := by
      have := Class.map_modify_of_eq id fun x hx => Option.some.inj (hm.symm.trans hx)
      rwa [List.map_id, List.map_id] at this
    rw [Class.modifyMethod, hsame]

theorem not_strips_of_not_admits {c d : Class} {access : UInt16} {target : Identifier}
    {exceptions : List String} {body : Option Code} (h : ¬ Admits access target body) :
    ¬ Strips c (.write access target exceptions body) d := by
  rintro ⟨ha, -⟩
  exact h ha

/-- An edit that fails has changed nothing, unless it is a write that strips. -/
theorem Exit.failed {e : Edit} {c c' : Class} {err : PatchError} (h : Exit c e (.error err) c') :
    (c' = c ∧ ∀ d, ¬ e.Strips c d) ∨ (c' ≠ c ∧ ∀ d, e.Strips c d ↔ d = c') := by
  cases h with
  | missing he hi =>
    refine .inl ⟨rfl, ?_⟩
    rintro _ ⟨⟩
    cases he
  | fieldIsMethod => exact .inl ⟨rfl, nofun⟩
  | fieldInvalid => exact .inl ⟨rfl, nofun⟩
  | notAdmitted h => exact .inl ⟨rfl, fun d => not_strips_of_not_admits h⟩
  | @stripped access target exceptions body i m ha hi hm hd =>
    have honly : ∀ d, Strips c (.write access target exceptions body) d ↔
        m.stripped access ≠ m ∧ d = c.modifyMethod i fun _ => m.stripped access := by
      intro d
      constructor
      · rintro ⟨-, hi', hm', -, hne⟩
        cases hi.symm.trans hi'
        cases hm.symm.trans hm'
        exact ⟨hne, rfl⟩
      · rintro ⟨hne, rfl⟩
        exact .write ha hi hm hd hne
    rw [ne_eq, modifyMethod_eq_self_iff hm]
    by_cases hsame : m.stripped access = m
    · exact .inl ⟨hsame, fun d hd => ((honly d).1 hd).1 hsame⟩
    · exact .inr ⟨hsame, fun d => (honly d).trans (and_iff_right hsame)⟩

/-- An edit that fails leaves the class as it was, unless it is a write that
strips a method first. -/
theorem failed_edit_is_undone_iff {e : Edit} {c c' : Class} {err : PatchError}
    (h : e.run c = (.error err, c')) :
    (c' = c ↔ ¬ ∃ d, e.Strips c d) ∧ ∀ d, e.Strips c d → c' = d := by
  have hexit := e.exit_run c
  rw [h] at hexit
  rcases hexit.failed with ⟨hsame, hno⟩ | ⟨hne, hstrips⟩
  · exact ⟨iff_of_true hsame fun ⟨d, hd⟩ => hno d hd, fun d hd => (hno d hd).elim⟩
  · have hex : ∃ d, e.Strips c d := ⟨c', (hstrips c').2 rfl⟩
    exact ⟨iff_of_false hne (not_not_intro hex), fun d hd => ((hstrips d).1 hd).symm⟩

/-- A method whose descriptor does not parse. -/
def halfMethod : Identifier := ⟨"A", "m", "(X"⟩

def writeHalf (access : UInt16) (nodes : List Node) : Edit :=
  .write access halfMethod [] (some (Code.empty.pushAll nodes))

def withHalf : Class :=
  { name := "A", methods := [newMethod 9 halfMethod [] (some (Code.empty.pushAll [.simple .RETURN]))] }

theorem failed_edit_is_undone_missing :
    let e : Edit := .inject halfMethod none .empty true
    e.run { name := "A" } = (.error (.memberNotFound halfMethod), { name := "A" }) ∧
      ¬ ∃ d, e.Strips { name := "A" } d := by
  have hrun : (Edit.inject halfMethod none .empty true).run { name := "A" } =
      (.error (.memberNotFound halfMethod), { name := "A" }) := rfl
  exact ⟨hrun, (failed_edit_is_undone_iff hrun).1.1 rfl⟩

/-- The second write fails, and takes the body and the access of the first. -/
theorem failed_write_strips :
    (writeHalf 9 [.simple .RETURN]).run { name := "A" } = (.ok 1, withHalf) ∧
      ∃ c', (writeHalf 1 [.simple .NOP, .simple .RETURN]).run withHalf =
        (.error (.editFailure halfMethod (.invalid (.invalidDescriptor "(X"))), c') ∧
          c' ≠ withHalf := by
  let m := newMethod 9 halfMethod [] (some (Code.empty.pushAll [.simple .RETURN]))
  have ha : Admits 1 halfMethod (some (Code.empty.pushAll [.simple .NOP, .simple .RETURN])) := by
    decide +kernel
  have hi : withHalf.spot? (halfMethod.member, halfMethod.signature) = some 0 := by
    decide +kernel
  have hm : withHalf.methods[0]? = some m := rfl
  have hd : Descriptor.methodShape? m.desc = none := by
    have hdesc : m.desc = "(X" := rfl
    rw [hdesc]
    decide +kernel
  have hne : m.stripped 1 ≠ m := by
    intro h
    have haccess : (1 : UInt16) = 9 := congrArg Method.access h
    exact absurd haccess (by decide)
  refine ⟨rfl, _, run_write_of_invalid ha hi hm hd, fun h => ?_⟩
  exact hne ((modifyMethod_eq_self_iff hm).1 h)

end Edit

end ClassPatch
