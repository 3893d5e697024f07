-- Descriptors of members under edits. An edit that succeeds brings a
-- descriptor that parses, but for a write that adds a method: it takes the
-- signature of its target as it is.
import ClassPatch.Proofs.Blame
import ClassPatch.Proofs.Interleaved

namespace ClassPatch

/-! ## Classes whose descriptors parse -/

@[mk_iff]
structure Class.Described (c : Class) : Prop where
  fields : ∀ f ∈ c.fields, (Descriptor.fieldWidth? f.desc).isSome
  methods : ∀ m ∈ c.methods, (Descriptor.methodShape? m.desc).isSome

/-- A member of the class has this descriptor, and it does not parse. -/
def Class.Misdescribed (c : Class) (desc : String) : Prop :=
  (∃ f ∈ c.fields, f.desc = desc ∧ Descriptor.fieldWidth? desc = none) ∨
    ∃ m ∈ c.methods, m.desc = desc ∧ Descriptor.methodShape? desc = none

/-- The signature of a write parses. -/
def Edit.Described : Edit → Prop
  | .write _ target _ _ => (Descriptor.methodShape? target.signature).isSome
  | _ => True

namespace Class

/-- Which descriptors the methods have is all that counts of them. -/
theorem described_congr {c : Class} {ms : List Method}
    (h : ms.map (·.desc) = c.methods.map (·.desc)) :
    Described { c with methods := ms } ↔ c.Described := by
  have hall := List.forall_mem_map (f := Method.desc) (l := ms)
    (P := fun d => (Descriptor.methodShape? d).isSome)
  rw [h, List.forall_mem_map] at hall
  rw [described_iff, described_iff, hall]

/-- What was written is refused for a descriptor only if it is that of a member
and does not parse. -/
theorem misdescribed_of_decode {c : Class} {bytes : List UInt8} {desc : String}
    (he : c.encode = .ok bytes) (hd : decode bytes = .error (.invalidDescriptor desc)) :
    c.Misdescribed desc := by
  have hyields : Yields (fun f => ∀ d, f = .invalidDescriptor d → c.Misdescribed d)
      (decode bytes) fun _ => True := by
    apply fault_of_decode _ _ _ he
    · intro f hf d hd
      exact (hf d hd).elim
    · intro f hf
      apply yields_fieldWidth
      rintro hw d ⟨⟩
      exact .inl ⟨f, hf, rfl, hw⟩
    · intro m hm
      apply yields_methodShape
      rintro hs d ⟨⟩
      exact .inr ⟨m, hm, rfl, hs⟩
  exact hyields.fault hd desc rfl

end Class

/-! ## Edits -/

namespace Edit
open Patching

theorem described_of_splices {e : Edit} (h : e.splices) : e.Described := by
  cases e with
  | write => cases h
  | _ => trivial

theorem desc_revise (e : Edit) (m : Method) : (e.revise m).desc = m.desc :=
  congrArg Prod.snd (e.key_revise m)

theorem desc_filled (body : Option Code) (m : Method) : (m.filled body).desc = m.desc :=
  congrArg Prod.snd (m.key_filled body)

/-- The descriptors after an edit that succeeds. A write that finds its method
has read the descriptor, and one that adds it has not. -/
theorem Exit.described_iff {e : Edit} {c c' : Class} {sites : Nat} (h : Exit c e (.ok sites) c') :
    c'.Described ↔ c.Described ∧ e.Described := by
  cases h with
  | spliced he hi =>
    rw [and_iff_left (described_of_splices he)]
    exact Class.described_congr (Class.map_modify_of_eq _ fun m _ => e.desc_revise m)
  | @fieldAdded access target value hd =>
    have hdescribed : (Edit.addField access target value).Described := trivial
    rw [and_iff_left hdescribed, Class.described_iff, Class.described_iff, List.forall_mem_append,
      List.forall_mem_singleton, and_iff_left hd]
  | @created access target exceptions body ha hi =>
    have hdesc : (newMethod access target exceptions body).desc = target.signature :=
      desc_filled body _
    rw [Class.described_iff, Class.described_iff, List.forall_mem_append,
      List.forall_mem_singleton, hdesc, and_assoc]
    rfl
  | @rewritten access target exceptions body i m ha hi hm hd =>
    have hdesc : m.desc = target.signature := congrArg Prod.snd (Class.key_of_spot? hi hm)
    have hdescribed : (Edit.write access target exceptions body).Described := by
      change (Descriptor.methodShape? target.signature).isSome
      rwa [← hdesc]
    rw [and_iff_left hdescribed]
    refine Class.described_congr (Class.map_modify_of_eq _ fun x hx => ?_)
    cases hm.symm.trans hx
    exact desc_filled body _

/-- The descriptors after edits that all succeed. -/
theorem described_run_iff {es : List Edit} {c c' : Class} (h : Leads (es.mapM apply) c c') :
    c'.Described ↔ c.Described ∧ ∀ e ∈ es, e.Described := by
  induction es generalizing c with
  | nil =>
    obtain rfl := leads_pure.1 h
    simp
  | cons e es ih =>
    obtain ⟨d, ⟨sites, he⟩, hrest⟩ := leads_mapM_cons.1 h
    have hrun : e.run c = (.ok sites, d) := he
    have hexit := e.exit_run c
    rw [hrun] at hexit
    rw [ih hrest, hexit.described_iff, List.forall_mem_cons, and_assoc]

/-- After edits that all succeed every descriptor parses exactly if it did
before and each write names a signature that does. The class is then not
refused for the descriptor of a member when it is read again. -/
theorem descriptors_after_edits {es : List Edit} {c c' : Class} {sites : List Nat}
    (h : (es.mapM apply).run.run c = (.ok sites, c')) :
    (c'.Described ↔ c.Described ∧ ∀ e ∈ es, e.Described) ∧
      ∀ bytes desc, c'.encode = .ok bytes → Class.decode bytes = .error (.invalidDescriptor desc) →
        c'.Misdescribed desc :=
  ⟨described_run_iff ⟨sites, h⟩, fun _ _ => Class.misdescribed_of_decode⟩

def plainMethod : Identifier := ⟨"A", "m", "()V"⟩

theorem descriptors_after_adding :
    ([Edit.write 9 plainMethod [] none].mapM apply).run.run { name := "A" } =
        (.ok [1], { name := "A", methods := [newMethod 9 plainMethod [] none] }) ∧
      Class.Described { name := "A", methods := [newMethod 9 plainMethod [] none] } := by
  have hrun : ([Edit.write 9 plainMethod [] none].mapM apply).run.run { name := "A" } =
      (.ok [1], { name := "A", methods := [newMethod 9 plainMethod [] none] }) := rfl
  have hedit : (Descriptor.methodShape? plainMethod.signature).isSome := by decide +kernel
  have hedits : ∀ e ∈ [Edit.write 9 plainMethod [] none], e.Described :=
    List.forall_mem_singleton.2 hedit
  exact ⟨hrun, (descriptors_after_edits hrun).1.2 ⟨⟨nofun, nofun⟩, hedits⟩⟩

end Edit

/-! ## A descriptor that is not read -/

namespace Class

def halfDeclared : Class := { name := "A", methods := [Edit.newMethod 9 Edit.halfMethod [] none] }

def halfDeclaredBytes : List UInt8 :=
  [0x47, 0x52, 0x46, 0x54, 0, 1, 0, 0, 0, 5, 1, 0, 1, 65, 7, 0, 1, 1, 0, 1, 109, 1, 0, 2, 40, 88,
   0, 1, 0, 2, 0, 0, 0, 0, 0, 0, 0, 1, 0, 9, 0, 3, 0, 4, 0, 0, 0]

/-- The pool holds the names of the class and of the method, and its descriptor. -/
theorem encodeBody_halfDeclared :
    ∃ pool, halfDeclared.encodeBody.run {} = .ok (halfDeclaredBytes.drop 26, pool) ∧
      pool.entries = #[.utf8 "A", .classRef 1, .utf8 "m", .utf8 "(X"] := by
  have hsizes : "A".utf8ByteSize = 1 ∧ "m".utf8ByteSize = 1 ∧ "(X".utf8ByteSize = 2 :=
    ⟨rfl, rfl, rfl⟩
  have hcode : ({} : Code).isEmpty := rfl
  simp [halfDeclared, Edit.newMethod, Edit.halfMethod, Method.filled, Method.create, encodeBody,
    Method.encode, hcode, hsizes, PoolBuilder.className, PoolBuilder.className?, PoolBuilder.utf8,
    PoolBuilder.intern, PoolBuilder.maxEntries, countBytes, bind, Except.bind, pure, Except.pure,
    StateT.bind, StateT.run, PoolBuilder.pure_eq, liftM, monadLift, MonadLift.monadLift, StateT.lift,
    wordBytes, bytesOf, halfDeclaredBytes]

theorem encode_halfDeclared : halfDeclared.encode = .ok halfDeclaredBytes := by
  obtain ⟨pool, hbody, hentries⟩ := encodeBody_halfDeclared
  have hpool : pool.bytes = (halfDeclaredBytes.drop 8).take 18 := by
    unfold PoolBuilder.bytes
    rw [hentries]
    decide +kernel
  have hunique : checkUnique (halfDeclared.methods.map fun m => (m.name, m.desc)) = .ok () := by
    simp [checkUnique, halfDeclared, bind, Except.bind, pure, Except.pure]
  refine encode_ok.2 ⟨rfl, hunique, _, pool, hbody, ?_⟩
  rw [hpool]
  rfl

end Class

/-- A write declares a method with a descriptor that does not parse, and the
class is refused for it when it is read again. -/
theorem Edit.write_declares_half :
    ({ name := "A" } : Class).Described ∧
      ([Edit.write 9 halfMethod [] none].mapM apply).run.run { name := "A" } =
        (.ok [1], Class.halfDeclared) ∧
      ¬ Class.halfDeclared.Described ∧
      Class.halfDeclared.encode = .ok Class.halfDeclaredBytes ∧
      Class.decode Class.halfDeclaredBytes = .error (.invalidDescriptor "(X") := by
  have hdesc : ¬ (Descriptor.methodShape? halfMethod.signature).isSome := by decide +kernel
  have hnot : ¬ Class.halfDeclared.Described := by
    intro h
    exact hdesc (h.methods _ (List.mem_singleton_self _))
  refine ⟨⟨nofun, nofun⟩, rfl, hnot, Class.encode_halfDeclared, ?_⟩
  decide +kernel

end ClassPatch
