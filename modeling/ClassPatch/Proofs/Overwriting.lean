-- Writes. A write makes its method anew and keeps of an old one only the
-- exceptions, so it does the same whatever the method was before, and again
-- what it did once. Nothing else in the class changes.
import ClassPatch.Proofs.Attempts

namespace ClassPatch

/-! ## The method that is written -/

namespace Method

/-- A method that loses its body is as if it were made anew, but for its exceptions. -/
theorem cleared_eq (access : UInt16) (m : Method) :
    m.cleared access = { create access m.name m.desc with exceptions := m.exceptions } := rfl

theorem exceptions_filled (body : Option Code) (m : Method) :
    (m.filled body).exceptions = m.exceptions := by
  cases body <;> rfl

end Method

namespace Edit

section
variable {access : UInt16} {target : Identifier} {exceptions : List String} {body : Option Code}

theorem key_newMethod (access : UInt16) (target : Identifier) (exceptions : List String)
    (body : Option Code) :
    (newMethod access target exceptions body).key = (target.member, target.signature) :=
  Method.key_filled body _

theorem exceptions_newMethod (access : UInt16) (target : Identifier) (exceptions : List String)
    (body : Option Code) : (newMethod access target exceptions body).exceptions = exceptions :=
  Method.exceptions_filled body _

/-- A method of the target's name and descriptor is filled again as a new one is. -/
theorem filled_cleared {m : Method} (hm : m.key = (target.member, target.signature)) :
    (m.cleared access).filled body = newMethod access target m.exceptions body := by
  obtain ⟨hname, hdesc⟩ := Prod.mk.inj hm
  rw [Method.cleared_eq, hname, hdesc]
  rfl

/-- The class after a write. -/
def written (access : UInt16) (target : Identifier) (exceptions : List String)
    (body : Option Code) (c : Class) : Class :=
  match c.spot? (target.member, target.signature) with
  | some i => c.modifyMethod i fun m => newMethod access target m.exceptions body
  | none => { c with methods := c.methods ++ [newMethod access target exceptions body] }

theorem run_write (exceptions : List String)
    (hd : (Descriptor.methodShape? target.signature).isSome) (ha : Admits access target body)
    (c : Class) :
    (Edit.write access target exceptions body).run c =
      (.ok 1, written access target exceptions body c) := by
  have hexit := (Edit.write access target exceptions body).exit_run c
  rcases hrun : (Edit.write access target exceptions body).run c with ⟨outcome, c'⟩
  rw [hrun] at hexit
  cases hexit with
  | spliced he => cases he
  | missing he => cases he
  | notAdmitted h => exact absurd ha h
  | created _ hi =>
    unfold written
    rw [hi]
  | @rewritten _ _ _ _ i m _ hi hm _ =>
    have hkey := Class.key_of_spot? hi hm
    unfold written
    rw [hi]
    dsimp only
    rw [filled_cleared hkey, ← Class.modifyMethod_const _ hm]
    rfl
  | @stripped _ _ _ _ i m _ hi hm hnone =>
    have hdesc : m.desc = target.signature := congrArg Prod.snd (Class.key_of_spot? hi hm)
    rw [hdesc] at hnone
    rw [hnone] at hd
    cases hd

/-- A write that succeeds was admitted. -/
theorem admits_of_run {c c' : Class} {sites : Nat}
    (h : (Edit.write access target exceptions body).run c = (.ok sites, c')) :
    Admits access target body := by
  have hexit := (Edit.write access target exceptions body).exit_run c
  rw [h] at hexit
  cases hexit with
  | spliced he => cases he
  | created ha => exact ha
  | rewritten ha => exact ha

/-! ## Written again -/

/-- A write finds the method that it has written. -/
theorem spot?_written (c : Class) : (written access target exceptions body c).spot?
    (target.member, target.signature) =
      some ((c.spot? (target.member, target.signature)).getD c.methods.length) := by
  unfold written
  cases hi : c.spot? (target.member, target.signature) with
  | some i =>
    have hkeys : (c.methods.modify i fun m => newMethod access target m.exceptions body).map
        Method.key = c.methods.map Method.key := by
      refine Class.map_modify_of_eq _ fun m hm => ?_
      rw [key_newMethod, Class.key_of_spot? hi hm]
    have hspot : (c.modifyMethod i fun m => newMethod access target m.exceptions body).spot?
        (target.member, target.signature) = c.spot? (target.member, target.signature) := by
      rw [Class.spot?_eq, Class.spot?_eq, ← hkeys]
      rfl
    exact hspot.trans hi
  | none =>
    have hkey := key_newMethod access target exceptions body
    rw [Class.spot?_eq] at hi ⊢
    rw [List.map_append, List.findIdx?_append, hi, List.map_singleton, hkey]
    simp

theorem written_written (c : Class) : written access target exceptions body
    (written access target exceptions body c) = written access target exceptions body c := by
  conv_lhs => rw [written, spot?_written]
  unfold written
  cases c.spot? (target.member, target.signature) with
  | some i =>
    simp only [Option.getD_some, Class.modifyMethod, List.modify_modify_eq, exceptions_newMethod,
      Function.comp_def]
  | none =>
    simp only [Option.getD_none, Class.modifyMethod, modify_concat, exceptions_newMethod]

/-! ## What a write does not see, and what it does not touch -/

/-- A change of what a write makes anew does not show after it. -/
theorem written_modifyMethod (access : UInt16) (exceptions : List String) (body : Option Code)
    {c : Class} {i : Nat}
    (hi : c.spot? (target.member, target.signature) = some i) {g : Method → Method}
    (hkey : ∀ m, (g m).key = m.key) (hexceptions : ∀ m, (g m).exceptions = m.exceptions) :
    written access target exceptions body (c.modifyMethod i g) =
      written access target exceptions body c := by
  have hspot : (c.modifyMethod i g).spot? (target.member, target.signature) = some i :=
    (c.spot?_modifyMethod i hkey _).trans hi
  unfold written
  rw [hspot, hi]
  simp only [Class.modifyMethod, List.modify_modify_eq, Function.comp_def, hexceptions]

end

end Edit

/-- The second class is the first one, but for the access, the code, the debug table and
the limits of the first method of a name and descriptor. -/
def Class.AlikeBut (k : Patch.Key) (c d : Class) : Prop :=
  ∃ i access code locals maxStack maxLocals, c.spot? k = some i ∧
    d = c.modifyMethod i fun m => { m with access, code, locals, maxStack, maxLocals }

/-- All that may differ is the first method of a name and descriptor, which is new at
the end if there was none. -/
structure Class.ChangedAt (k : Patch.Key) (c c' : Class) : Prop where
  around : { c' with methods := c.methods } = c
  others : ∀ j < c.methods.length, c.spot? k ≠ some j → c'.methods[j]? = c.methods[j]?
  length : c'.methods.length = c.methods.length + if (c.spot? k).isSome then 0 else 1

namespace Edit

section
variable {access : UInt16} {target : Identifier} {exceptions : List String} {body : Option Code}

theorem changedAt_written (c : Class) : Class.ChangedAt (target.member, target.signature) c
    (written access target exceptions body c) := by
  unfold written
  cases hi : c.spot? (target.member, target.signature) with
  | some i =>
    refine ⟨rfl, fun j hj hne => ?_, ?_⟩
    · have hij : i ≠ j := fun h => hne (hi.trans (congrArg some h))
      simp [Class.modifyMethod, hij]
    · simp [Class.modifyMethod, hi]
  | none =>
    refine ⟨rfl, fun j hj hne => List.getElem?_append_left hj, ?_⟩
    simp [hi]

/-- A write of a method whose descriptor parses does nothing more when it is made again.
It makes the same of classes that are alike but for what is written over, and changes
nothing but the method that it writes. -/
theorem write_forgets {c c' : Class} {sites : Nat}
    (hd : (Descriptor.methodShape? target.signature).isSome)
    (h : (Edit.write access target exceptions body).run c = (.ok sites, c')) :
    (Edit.write access target exceptions body).run c' = (.ok sites, c') ∧
    (∀ d, Class.AlikeBut (target.member, target.signature) c d →
      (Edit.write access target exceptions body).run d = (.ok sites, c')) ∧
    Class.ChangedAt (target.member, target.signature) c c' := by
  have hrun := run_write exceptions hd (admits_of_run h)
  obtain ⟨rfl, rfl⟩ : 1 = sites ∧ written access target exceptions body c = c' := by
    rw [hrun] at h
    simpa using h
  refine ⟨?_, ?_, changedAt_written c⟩
  · rw [hrun, written_written]
  · rintro d ⟨i, access', code, locals, maxStack, maxLocals, hi, rfl⟩
    have hsame := written_modifyMethod access exceptions body hi
      (g := fun m => { m with access := access', code, locals, maxStack, maxLocals })
      (fun _ => rfl) fun _ => rfl
    rw [hrun, hsame]

end

/-- A class with a method that stores a wide number and declares an exception. -/
def withStore : Class where
  name := "A"
  methods := [{ Method.create 9 "m" "()V" with
    exceptions := ["E"]
    code := Code.empty.pushAll [.simple .LCONST_0, .var .LSTORE (.slot 3), .simple .RETURN]
    maxLocals := 5 }]

/-- A loop in the place of that method, which is no longer static. -/
def writeLoop : Edit :=
  .write 1 ⟨"A", "m", "()V"⟩ [] (some ((Code.empty.mark "loop").push (.jump .GOTO 0)))

/-- The method with the loop keeps the exception. -/
def withLoop : Class where
  name := "A"
  methods := [{ Method.create 1 "m" "()V" with
    exceptions := ["E"]
    code := (Code.withLabels 1).pushAll [.label 0, .jump .GOTO 0] }]

theorem writeLoop_forgets :
    (Descriptor.methodShape? "()V").isSome ∧ writeLoop.run withStore = (.ok 1, withLoop) ∧
      writeLoop.run withLoop = (.ok 1, withLoop) ∧
      (∀ d, Class.AlikeBut ("m", "()V") withStore d → writeLoop.run d = (.ok 1, withLoop)) ∧
      Class.ChangedAt ("m", "()V") withStore withLoop := by
  have hd : (Descriptor.methodShape? "()V").isSome := by decide +kernel
  have hrun : writeLoop.run withStore = (.ok 1, withLoop) := by decide +kernel
  obtain ⟨hagain, halike, hchanged⟩ := write_forgets hd hrun
  exact ⟨hd, hrun, hagain, halike, hchanged⟩

end Edit

end ClassPatch
