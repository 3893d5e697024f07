-- Linked classes leave nothing loose: writing one may fail because something
-- is too large, but not for a label without a marker or a temporary.
import ClassPatch.Proofs.Decoded
import ClassPatch.Proofs.Edits

namespace ClassPatch

/-- A label that is not marked or a temporary that has no slot. -/
def Fault.isLoose : Fault → Bool
  | danglingLabel _ | unresolvedTemp _ => true
  | _ => false

/-- If the computation fails, then for another reason. -/
def Tight {α : Type} (x : Except Fault α) : Prop := ∀ f, x = .error f → f.isLoose = false

/-! ## Pool entries, counts and operands -/

/-- A part of a container that is written without blaming anything loose. -/
abbrev Builder.Tight {α : Type} (x : Builder α) : Prop :=
  Builder.Yields (fun _ => True) (·.isLoose = false) x fun _ => True

namespace PoolBuilder
open Builder.Yields

theorem tight_intern (e : Entry) : Builder.Tight (intern e) := by
  intro b _
  unfold intern
  split
  · exact ⟨trivial, trivial⟩
  · split
    · exact ⟨trivial, trivial⟩
    · rfl

theorem tight_utf8 (s : String) : Builder.Tight (utf8 s) := by
  unfold utf8
  split
  · exact tight_intern _
  · exact fun _ _ => rfl

theorem tight_constant (c : Constant) : Builder.Tight (constant c) := by
  cases c with
  | string s => exact bind (tight_utf8 s) fun _ _ => tight_intern _
  | classRef name => exact bind (tight_utf8 name) fun _ _ => tight_intern _
  | _ => exact tight_intern _

theorem tight_nameAndType (name desc : String) : Builder.Tight (nameAndType name desc) :=
  bind (tight_utf8 name) fun _ _ => bind (tight_utf8 desc) fun _ _ => tight_intern _

theorem tight_field (m : MemberRef) : Builder.Tight (field m) :=
  bind (tight_constant (.classRef m.owner)) fun _ _ =>
    bind (tight_nameAndType _ _) fun _ _ => tight_intern _

theorem tight_method (m : MemberRef) : Builder.Tight (method m) :=
  bind (tight_constant (.classRef m.owner)) fun _ _ =>
    bind (tight_nameAndType _ _) fun _ _ => tight_intern _

end PoolBuilder

theorem tight_countBytes (n : Nat) (what : String) :
    Yields (·.isLoose = false) (countBytes n what) fun _ => True := by
  unfold countBytes
  split
  · trivial
  · rfl

theorem Fault.not_loose_of_inherent {f : Fault} (h : f.isInherent) : f.isLoose = false := by
  cases f <;> first | rfl | cases h

open PoolBuilder in
theorem tight_supply :
    Supply (fun _ => True) (·.isLoose = false) (fun _ => True) fun _ => True :=
  ⟨fun s _ => tight_utf8 s, fun v _ => tight_constant v, fun m _ => tight_field m,
    fun m _ => tight_method m, fun _ k what _ _ => tight_countBytes k what,
    fun _ h => Fault.not_loose_of_inherent h⟩

theorem Instruction.tight_check (i : Node) :
    Yields (·.isLoose = false) (Instruction.check i) fun _ => True := by
  have last : Yields (·.isLoose = false) (if encodable i then .ok () else
      throw (Fault.operandOutOfRange (detail i)) : Except Fault Unit) fun _ => True := by
    split
    · trivial
    · rfl
  unfold check
  dsimp only
  split
  · exact Yields.bind (yields_methodShape fun _ => rfl) fun _ _ => last
  · exact last

/-! ## Classes -/

theorem Method.asks_anything (m : Method) : m.Asks (fun _ => True) fun _ => True := by
  constructor <;> intros <;> trivial

theorem Class.asks_anything (c : Class) : c.Asks (fun _ => True) fun _ => True := by
  constructor
  case fields => exact fun _ _ => ⟨trivial, trivial, fun _ _ => trivial⟩
  case methods => exact fun m _ => m.asks_anything
  all_goals intros; trivial

namespace Class

/-- A linked class is never refused for something loose. -/
theorem tight_encode {c : Class} (h : c.Linked) : Tight c.encode := by
  exact fun f hf => (yields_encode tight_supply trivial h c.asks_anything
    fun _ _ i _ => Instruction.tight_check i).fault hf

theorem Decoded.linked {c : Class} (h : c.Decoded) : c.Linked := fun m hm => (h.methods m hm).linked

end Class

/-! ## Patched classes -/

/-- The labels that instructions, handlers and debug entries name. -/
def Method.references (m : Method) : List Label :=
  m.code.toList.flatMap Insn.targets ++ m.code.handlers.toList.flatMap Handler.labels ++
    m.locals.flatMap fun v => [v.start, v.stop]

/-- What linked methods name is marked once. -/
theorem Method.Linked.count_references {m : Method} (h : m.Linked) {l : Label}
    (hl : l ∈ m.references) : (markers m.code.toList).count l = 1 := by
  have hmem : l ∈ markers m.code.toList := by
    simp only [references, List.mem_append, List.mem_flatMap] at hl
    rcases hl with (⟨i, hi, hl⟩ | ⟨r, hr, hl⟩) | ⟨v, hv, hl⟩
    · exact h.code.branches i hi l hl
    · exact h.code.ranges r hr l hl
    · have := h.locals v hv
      rcases List.mem_cons.1 hl with rfl | hl
      · exact this.1
      · exact List.mem_singleton.1 hl ▸ this.2
  rw [h.code.nodup_markers.count, if_pos hmem]

/-- A patch with closed code on a decoded class marks once whatever a method
names, leaves no temporary, and so the result is never refused for either. -/
theorem patched_class_has_nothing_loose {bytes : List UInt8} {c c' : Class} {p : Patch}
    {report : Report} (hd : Class.decode bytes = .ok c) (hp : ∀ e ∈ p.edits, e.Closed)
    (hr : p.run c = (.ok report, c')) :
    (∀ m ∈ c'.methods, (∀ l ∈ m.references, (markers m.code.toList).count l = 1) ∧
      ∀ i ∈ m.code.toList, i.NoTemp) ∧
    (∀ l, c'.encode ≠ .error (.danglingLabel l)) ∧
    ∀ t, c'.encode ≠ .error (.unresolvedTemp t) := by
  have hc' : c'.Linked := by
    have := Patch.linked_run hp (Class.decoded_of_decode hd).linked
    rwa [hr] at this
  refine ⟨fun m hm => ⟨fun l hl => (hc' m hm).count_references hl, (hc' m hm).code.slots⟩, ?_, ?_⟩
  · intro l hl
    exact Bool.noConfusion (Class.tight_encode hc' _ hl)
  · intro t ht
    exact Bool.noConfusion (Class.tight_encode hc' _ ht)

/-- The bytes of a class "A" without members. -/
def bareBytes : List UInt8 :=
  [71, 82, 70, 84, 0, 1, 0, 0, 0, 3, 1, 0, 1, 65, 7, 0, 1, 0, 1, 0, 2, 0, 0, 0, 0, 0, 0, 0, 0]

/-- Gives a class "A" a method that loops, with a temporary set on the way. -/
def spinning : Patch where
  className := "A"
  edits := [.write 9 ⟨"A", "spin", "()V"⟩ [] (some
    (((Code.empty.mark "loop").push (.var .ISTORE (.temp 0))).push (.jump .GOTO 0)))]

theorem spinning_has_nothing_loose :
    Class.decode bareBytes = .ok { name := "A" } ∧
    (∀ m ∈ (spinning.run { name := "A" }).2.methods,
      (∀ l ∈ m.references, (markers m.code.toList).count l = 1) ∧
        ∀ i ∈ m.code.toList, i.NoTemp) ∧
    (∀ l, (spinning.run { name := "A" }).2.encode ≠ .error (.danglingLabel l)) ∧
    ∀ t, (spinning.run { name := "A" }).2.encode ≠ .error (.unresolvedTemp t) := by
  have hd : Class.decode bareBytes = .ok { name := "A" } := by decide +kernel
  have hclosed : ∀ e ∈ spinning.edits, e.Closed := by
    intro e he
    cases List.mem_singleton.1 he
    rintro _ ⟨⟩ l hl
    exact .inl hl
  have hrun : spinning.run { name := "A" } =
      (.ok ⟨"A", [], [⟨.write, ⟨"A", "spin", "()V"⟩, 1⟩]⟩, (spinning.run { name := "A" }).2) := rfl
  exact ⟨hd, patched_class_has_nothing_loose hd hclosed hrun⟩

end ClassPatch
