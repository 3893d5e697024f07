-- What a class that was read can be refused for when it is written again.
-- The pool that it came from has room for everything that it names, its
-- tables are as short as they were, and its labels are marked; what is left
-- lies in the class itself.
import ClassPatch.Proofs.Interning
import ClassPatch.Proofs.Normal

namespace ClassPatch

/-! ## Supply from the pool that was read -/

theorem PoolBuilder.Supplied.yields {α : Type} {p : Pool} {q : Fault → Prop} {x : Builder α}
    (h : Supplied p x) : Builder.Yields (Backed p) q x fun _ => True := by
  intro b hb
  obtain ⟨a, b', hx, hb'⟩ := h b hb
  rw [hx]
  exact ⟨hb', trivial⟩

open PoolBuilder in
/-- A pool that was read supplies all that it holds, and every count that two
bytes could say. -/
theorem Pool.Modest.supply {p : Pool} {q : Fault → Prop} (hp : p.Modest)
    (hq : ∀ f : Fault, f.isInherent → q f) : Supply (Backed p) q p.Holds (· ≤ 65535) := by
  refine ⟨fun _ h => (supplied_utf8 hp h).yields, fun _ h => (supplied_constant hp h).yields,
    fun _ h => (supplied_field hp h).yields, fun _ h => (supplied_method hp h).yields, ?_, hq⟩
  intro n k what hn hk
  unfold countBytes
  rw [if_pos (Nat.le_trans hk hn)]
  trivial

/-! ## Refusals -/

/-- The faults that a class may be refused for after it was read. Besides
those that lie in the class itself, an interface call may have a descriptor
that is not one or more argument slots than it can repeat. -/
def Class.Refused (c : Class) : Fault → Prop
  | .duplicateMember .. | .branchOutOfRange .. | .codeTooLarge .. => True
  | .invalidDescriptor desc => ∃ m ∈ c.methods, ∃ r, .method .INVOKEINTERFACE r ∈ m.code.toList ∧
    Descriptor.methodShape? desc = none ∧ desc = r.desc
  | .operandOutOfRange what => ∃ m ∈ c.methods, ∃ r, .method .INVOKEINTERFACE r ∈ m.code.toList ∧
    255 < Instruction.callSlots r ∧ what = Instruction.detail (.method .INVOKEINTERFACE r)
  | _ => False

theorem Class.refused_of_inherent {c : Class} {f : Fault} (h : f.isInherent) : c.Refused f := by
  cases f <;> trivial

/-- Only interface calls are blamed for their operands. -/
theorem Class.yields_check {c : Class} {m : Method} {i : Node} (hm : m ∈ c.methods)
    (hi : i ∈ m.code.toList)
    (hf : Instruction.encodable i = true ∨ ∃ r, i = .method .INVOKEINTERFACE r) :
    Yields c.Refused (Instruction.check i) fun _ => True := by
  unfold Instruction.check
  dsimp only
  split
  · rename_i r
    apply Yields.bind (yields_methodShape fun hs => ⟨m, hm, r, hi, hs, rfl⟩)
    intro _ _
    split
    · trivial
    · rename_i he
      have hslots : ¬Instruction.callSlots r ≤ 255 := fun h => he (decide_eq_true h)
      exact ⟨m, hm, r, hi, Nat.not_le.1 hslots, rfl⟩
  · rename_i hcall
    rcases hf with he | ⟨r, rfl⟩
    · rw [if_pos he]
      trivial
    · exact absurd rfl (hcall r)

/-- Whatever a method of a class that was read names is marked once, and no
temporary is left in it. When the class is written again it is refused for
nothing but members that are the same, branches that lead too far, code that
is too long and interface calls. -/
theorem decoded_class_is_refused_for_few_faults {bytes : List UInt8} {c : Class}
    (h : Class.decode bytes = .ok c) :
    (∀ m ∈ c.methods, (∀ l ∈ m.references, (markers m.code.toList).count l = 1) ∧
      ∀ i ∈ m.code.toList, i.NoTemp) ∧
    ∀ f, c.encode = .error f → c.Refused f := by
  have hlinked := (Class.decoded_of_decode h).linked
  refine ⟨fun m hm => ⟨fun l hl => (hlinked m hm).count_references hl, (hlinked m hm).code.slots⟩,
    fun f hf => ?_⟩
  obtain ⟨pool, hp, hd⟩ := Class.drawn_of_decode h
  have hsupply := hp.supply (q := c.Refused) fun _ hf => Class.refused_of_inherent hf
  exact (Class.yields_encode hsupply (PoolBuilder.backed_empty pool) hlinked hd.asks
    fun m hm i hi => Class.yields_check hm hi (hd.fits m hm i hi)).fault hf

theorem Class.checkUnique_twice (m : String × String) :
    checkUnique [m, m] = .error (.duplicateMember m.1 m.2) := by
  unfold checkUnique
  simp only [List.foldlM_cons, Std.HashSet.contains_empty, Bool.false_eq_true, if_false, pure_bind,
    Std.HashSet.contains_insert_self, if_true]
  rfl

/-- A class "A" that has its method twice. -/
def Class.twins : Class := { hollow with methods := [.hollow, .hollow] }

/-- The bytes of a class "A" that has its method twice. -/
def twinBytes : List UInt8 := hollowHead ++ 0 :: 2 :: (hollowMethod ++ hollowMethod)

theorem twins_are_refused :
    Class.decode twinBytes = .ok .twins ∧ Class.twins.encode = .error (.duplicateMember "m" "()V") ∧
    (∀ m ∈ Class.twins.methods, (∀ l ∈ m.references, (markers m.code.toList).count l = 1) ∧
      ∀ i ∈ m.code.toList, i.NoTemp) ∧
    ∀ f, Class.twins.encode = .error f → Class.twins.Refused f := by
  have hd : Class.decode twinBytes = .ok .twins := Class.decode_hollows (n := 2) (by decide)
  have he : Class.twins.encode = .error (.duplicateMember "m" "()V") := by
    have hfields : Class.checkUnique (Class.twins.fields.map fun f => (f.name, f.desc)) = .ok () :=
      rfl
    have hmethods : Class.checkUnique (Class.twins.methods.map fun m => (m.name, m.desc)) =
        .error (.duplicateMember "m" "()V") := Class.checkUnique_twice ("m", "()V")
    unfold Class.encode
    rw [hfields, hmethods]
    rfl
  exact ⟨hd, he, decoded_class_is_refused_for_few_faults hd⟩

end ClassPatch
