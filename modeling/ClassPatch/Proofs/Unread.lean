-- Descriptors that decoding does not look at. Those of fields and methods
-- always parse in a decoded class; those of the members that instructions
-- name, and of debug entries, may be any text, and then their widths are the
-- ones that are put in for them.
import ClassPatch.Proofs.Described
import ClassPatch.Proofs.Normal

namespace ClassPatch

/-! ## Widths that are put in -/

namespace Insn
variable {α β : Type}

/-- The descriptor of the member that the node names, if any, parses. -/
def Typed : Insn α → Prop
  | .field _ m => (Descriptor.fieldWidth? m.desc).isSome
  | .method _ m => (Descriptor.methodShape? m.desc).isSome
  | _ => True

/-- The change of stack depth, with these sizes for descriptors that do not parse. -/
def stackDeltaOr (width : Nat) (shape : Descriptor.Shape) : Insn α → Int
  | .field op m =>
    let w : Int := (Descriptor.fieldWidth? m.desc).getD width
    match op with
    | .GETSTATIC => w
    | .PUTSTATIC => -w
    | .GETFIELD => w - 1
    | _ => -w - 1
  | .method op m =>
    let shape := (Descriptor.methodShape? m.desc).getD shape
    let receiver : Int := if op = .INVOKESTATIC then 0 else 1
    shape.returnSlots - shape.argSlots - receiver
  | i => i.stackDelta

theorem stackDelta_eq (i : Insn α) : i.stackDelta = i.stackDeltaOr 1 ⟨0, 0⟩ := by
  cases i <;> rfl

/-- No size that is put in counts just when the descriptor parses. -/
theorem typed_iff (i : Insn α) :
    i.Typed ↔ ∀ width shape, i.stackDeltaOr width shape = i.stackDelta := by
  rw [stackDelta_eq]
  cases i with
  | field op m =>
    cases hd : Descriptor.fieldWidth? m.desc with
    | some w => simp [Typed, stackDeltaOr, hd]
    | none =>
      refine iff_of_false (by simp [Typed, hd]) fun h => ?_
      have hsame := h 0 ⟨0, 0⟩
      simp only [stackDeltaOr, hd, Option.getD_none] at hsame
      split at hsame <;> omega
  | method op m =>
    cases hd : Descriptor.methodShape? m.desc with
    | some shape => simp [Typed, stackDeltaOr, hd]
    | none =>
      refine iff_of_false (by simp [Typed, hd]) fun h => ?_
      have hsame := h 1 ⟨1, 0⟩
      simp only [stackDeltaOr, hd, Option.getD_none] at hsame
      omega
  | _ => exact iff_of_true trivial fun _ _ => rfl

theorem typed_mapLabels (f : α → β) (i : Insn α) : (i.mapLabels f).Typed ↔ i.Typed := by
  cases i <;> exact Iff.rfl

theorem typed_of_pseudo {i : Insn α} (h : i.isPseudo) : i.Typed := by
  cases i <;> trivial

/-- The node with no descriptor for the member that it names. -/
def untyped : Insn α → Insn α
  | .field op m => .field op { m with desc := "" }
  | .method op m => .method op { m with desc := "" }
  | i => i

end Insn

namespace LocalVar

/-- The type of the debug entry parses. -/
def Typed (v : LocalVar) : Prop := (Descriptor.fieldWidth? v.desc).isSome

/-- The slots of a debug entry, with this width for a type that does not parse. -/
def widthOr (width : Nat) (v : LocalVar) : Nat := (Descriptor.fieldWidth? v.desc).getD width

theorem typed_iff (v : LocalVar) : v.Typed ↔ ∀ width, v.widthOr width = v.width := by
  unfold Typed widthOr LocalVar.width
  cases Descriptor.fieldWidth? v.desc with
  | some w => simp
  | none => exact iff_of_false Bool.false_ne_true fun h => absurd (h 0) Nat.zero_ne_one

end LocalVar

/-! ## Typed code -/

/-- All that the outline names by a descriptor has one that parses. -/
structure Outline.Typed (o : Outline) : Prop where
  insns : ∀ i ∈ o.insns, i.Typed
  locals : ∀ v ∈ o.locals, v.Typed

namespace Method

structure Typed (m : Method) : Prop where
  nodes : ∀ i ∈ m.code.toList, i.Typed
  locals : ∀ v ∈ m.locals, v.Typed

theorem typed_outline {m : Method} : m.outline.Typed ↔ m.Typed := by
  have hnodes : (∀ i ∈ m.outline.insns, i.Typed) ↔ ∀ i ∈ m.code.toList, i.Typed := by
    unfold outline realNodes
    rw [List.forall_mem_map]
    refine ⟨fun h i hi => ?_, fun h i hi => ?_⟩
    · by_cases hp : i.isPseudo
      · exact Insn.typed_of_pseudo hp
      · refine (Insn.typed_mapLabels _ i).1 (h i (List.mem_filter.2 ⟨hi, ?_⟩))
        simp [Insn.isReal, hp]
    · exact (Insn.typed_mapLabels _ i).2 (h i (List.mem_of_mem_filter hi))
  have hlocals : (∀ v ∈ m.outline.locals, v.Typed) ↔ ∀ v ∈ m.locals, v.Typed := List.forall_mem_map
  exact ⟨fun h => ⟨hnodes.1 h.insns, hlocals.1 h.locals⟩,
    fun h => ⟨hnodes.2 h.nodes, hlocals.2 h.locals⟩⟩

/-- What was read for a method that was written is typed as far as that was
written. -/
theorem Recovered.typed_iff {m d : Method} (h : m.Recovered d) :
    d.Typed ↔ m.code.isEmpty ∨ m.outline.settled.Typed := by
  by_cases hempty : m.code.isEmpty
  · obtain ⟨hcode, hlocals⟩ := h.bodiless hempty
    refine iff_of_true ⟨?_, ?_⟩ (.inl hempty)
    · rw [hcode]
      exact List.forall_mem_nil _
    · rw [hlocals]
      exact List.forall_mem_nil _
  · rw [or_iff_right hempty, ← h.outline hempty, typed_outline]

/-- The methods have the same instructions, but for the descriptors of the
members that these name. -/
structure Retyped (m m' : Method) : Prop where
  desc : m'.desc = m.desc
  nodes : m'.code.toList.map Insn.untyped = m.code.toList.map Insn.untyped

/-- What does not look at descriptors is the same for both. -/
theorem Retyped.map_eq {m m' : Method} (h : m.Retyped m') {β : Type} (f : Node → β)
    (hf : ∀ i : Node, f i.untyped = f i) : m'.code.toList.map f = m.code.toList.map f := by
  have hsame := congrArg (List.map f) h.nodes
  simpa only [List.map_map, Function.comp_def, hf] using hsame

theorem WellFormed.retyped {m m' : Method} (hm : m.WellFormed) (h : m.Retyped m') :
    m'.WellFormed := by
  have hproper := h.map_eq Insn.Proper fun i => by cases i <;> rfl
  have htargets := h.map_eq Insn.targets fun i => by cases i <;> rfl
  have hreal := h.map_eq Insn.isReal fun i => by cases i <;> rfl
  have hindex := realIndex_congr (h.map_eq Insn.marker? fun i => by cases i <;> rfl) hreal
  have hcount : m'.code.toList.countP Insn.isReal = m.code.toList.countP Insn.isReal := by
    have hsame := congrArg (List.countP id) hreal
    rwa [List.countP_map, List.countP_map, Function.id_comp] at hsame
  refine ⟨h.desc ▸ hm.desc, ?_, ?_⟩
  · intro i hi
    obtain ⟨j, hj, he⟩ := List.mem_map.1 (hproper ▸ List.mem_map_of_mem hi)
    exact he ▸ hm.proper j hj
  · intro i hi l hl
    obtain ⟨j, hj, he⟩ := List.mem_map.1 (htargets ▸ List.mem_map_of_mem hi)
    rw [hindex, hcount]
    exact hm.branches j hj l (he ▸ hl)

end Method

/-! ## Decoded classes -/

namespace Class

/-- The class has the fields of the other, and its methods up to descriptors
in their code, with whatever debug entries. -/
structure Retyped (c c' : Class) : Prop where
  major : c'.major = c.major
  fields : c'.fields = c.fields
  methods : List.Forall₂ Method.Retyped c.methods c'.methods

theorem WellFormed.retyped {c c' : Class} (hc : c.WellFormed) (h : c.Retyped c') :
    c'.WellFormed := by
  have hmethods : List.Forall₂ (fun _ m' : Method => m'.WellFormed) c.methods c'.methods :=
    forall₂_of_forall (h.methods.imp fun _ _ hm hw => Method.WellFormed.retyped hw hm) hc.methods
  refine ⟨h.major ▸ hc.major, h.fields ▸ hc.fields, ?_⟩
  exact Method.forall_of_forall₂ (q := Method.WellFormed) (fun _ _ hw => hw) hmethods

/-- No size that is put in for a descriptor counts in the class. -/
structure Measured (c : Class) : Prop where
  params : ∀ m ∈ c.methods, ∃ n, m.paramSlots = .ok n
  deltas : ∀ m ∈ c.methods, ∀ i ∈ m.code.toList, ∀ width shape,
    i.stackDeltaOr width shape = i.stackDelta
  widths : ∀ m ∈ c.methods, ∀ v ∈ m.locals, ∀ width, v.widthOr width = v.width

theorem measured_iff {c : Class} (h : c.Described) : c.Measured ↔ ∀ m ∈ c.methods, m.Typed := by
  constructor
  · intro hm m hin
    refine ⟨fun i hi => ?_, fun v hv => ?_⟩
    · exact i.typed_iff.2 (hm.deltas m hin i hi)
    · exact v.typed_iff.2 (hm.widths m hin v hv)
  · intro ht
    refine ⟨fun m hin => ?_, fun m hin i hi => ?_, fun m hin v hv => ?_⟩
    · obtain ⟨shape, hshape⟩ := methodShape_ok.2 (h.methods m hin)
      exact ⟨_, by rw [Method.paramSlots, hshape]; rfl⟩
    · exact i.typed_iff.1 ((ht m hin).nodes i hi)
    · exact v.typed_iff.1 ((ht m hin).locals v hv)

/-- In a decoded class the descriptors of all members parse. Sizes are put in
for others just if code or debug entries have some that do not, and decoding
takes these as they are: any class that differs from a decoded one in them
alone is read back once it was written, with all of them that are kept. -/
theorem measured_of_decode_iff {bytes : List UInt8} {c : Class} (h : decode bytes = .ok c) :
    c.Described ∧ (c.Measured ↔ ∀ m ∈ c.methods, m.Typed) ∧
    ∀ c' bytes', c.Retyped c' → c'.encode = .ok bytes' →
      ∃ ds, decode bytes' = .ok { c' with methods := ds } ∧
        List.Forall₂ (fun m d => m.Recovered d ∧
          (d.Typed ↔ m.code.isEmpty ∨ m.outline.settled.Typed)) c'.methods ds := by
  have hdecoded := decoded_of_decode h
  have hdescribed : c.Described := ⟨hdecoded.fields, fun m hm => (hdecoded.methods m hm).desc⟩
  refine ⟨hdescribed, measured_iff hdescribed, fun c' bytes' hc he => ?_⟩
  obtain ⟨ds, hd, hds⟩ := decode_of_encode (hdecoded.wellFormed.retyped hc) he
  exact ⟨ds, hd, hds.imp fun m d hm => ⟨hm, hm.typed_iff⟩⟩

end Class

/-! ## Members and a debug entry of no type -/

open Reader

def untypedMember : MemberRef := ⟨"A", "f", "X", false⟩

/-- A body that reads a field of type "X", calls a method of that type, and
has a debug entry of it. -/
def CodeBody.loose : CodeBody where
  maxStack := 1
  maxLocals := 1
  size := 7
  insns := [(0, .field .GETSTATIC untypedMember), (3, .method .INVOKESTATIC untypedMember),
    (6, .simple .RETURN)]
  ranges := []
  locals := [⟨0, 7, "f", "X", 0⟩]
  lines := []

def Class.loose : Class where
  name := "A"
  methods := [CodeBody.loose.alone]

/-- The pool of the bytes below. -/
def loosePool : Pool :=
  ⟨#[.utf8 "A", .classRef 1, .utf8 "m", .utf8 "()V", .utf8 "f", .utf8 "X", .nameAndType 5 6,
    .fieldRef 2 7, .methodRef 2 7]⟩

def looseBytes : List UInt8 :=
  [71, 82, 70, 84, 0, 1, 0, 0, 0, 10, 1, 0, 1, 65, 7, 0, 1, 1, 0, 1, 109, 1, 0, 3, 40, 41, 86,
   1, 0, 1, 102, 1, 0, 1, 88, 12, 0, 5, 0, 6, 9, 0, 2, 0, 7, 10, 0, 2, 0, 7, 0, 1, 0, 2, 0, 0,
   0, 0, 0, 0, 0, 1, 0, 9, 0, 3, 0, 4, 0, 0, 1, 0, 1, 0, 1, 0, 0, 0, 7, 178, 0, 8, 184, 0, 9, 177,
   0, 0, 0, 1, 0, 0, 0, 7, 0, 5, 0, 6, 0, 0, 0, 0]

theorem CodeBody.sound_loose : loose.Sound := by
  have hinsns : ∀ i ∈ loose.insns, Instruction.Legible i.2 ∧ i.2.targets = [] := by
    intro i hi
    simp only [loose, List.mem_cons, List.not_mem_nil, or_false] at hi
    rcases hi with rfl | rfl | rfl
    · exact ⟨⟨rfl, nofun, rfl, rfl⟩, rfl⟩
    · exact ⟨⟨rfl, nofun, rfl⟩, rfl⟩
    · exact ⟨⟨rfl, nofun, rfl⟩, rfl⟩
  refine ⟨fun i hi => (hinsns i hi).1, by decide, by decide, fun i hi t ht => ?_, nofun, ?_, nofun⟩
  · rw [(hinsns i hi).2] at ht
    cases ht
  · intro v hv
    cases List.mem_singleton.1 hv
    decide

theorem CodeBody.sweeps_loose :
    Sweeps loosePool 0 [178, 0, 8, 184, 0, 9, 177] loose.insns := by
  have hfield : loosePool.field 8 = .ok untypedMember := rfl
  have hmethod : loosePool.method 9 = .ok untypedMember := rfl
  have hget : Reads (Instruction.read loosePool 0) [178, 0, 8] (.field .GETSTATIC untypedMember) :=
    reads_head 178 (reads_map (reads_u16 8) (reads_after (reads_lift hfield) (reads_pure _)))
  have hcall : Reads (Instruction.read loosePool 3) [184, 0, 9]
      (.method .INVOKESTATIC untypedMember) :=
    reads_head 184 (reads_map (reads_u16 9) (reads_after (reads_lift hmethod) (reads_pure _)))
  have hreturn : Reads (Instruction.read loosePool 6) [177] (.simple .RETURN) :=
    reads_head 177 (reads_pure _)
  exact .cons hget (by decide) (.cons hcall (by decide) (.cons hreturn (by decide) (.nil 7)))

theorem CodeBody.reads_loose : Reads (read loosePool "m()V")
    [0, 1, 0, 1, 0, 0, 0, 7, 178, 0, 8, 184, 0, 9, 177, 0, 0, 0, 1, 0, 0, 0, 7, 0, 5, 0, 6, 0, 0, 0,
     0] loose := by
  have hname : loosePool.utf8 5 = .ok "f" := rfl
  have hdesc : loosePool.utf8 6 = .ok "X" := rfl
  have hlocal : Reads (readLocal loosePool) [0, 0, 0, 7, 0, 5, 0, 6, 0, 0] ⟨0, 7, "f", "X", 0⟩ := by
    apply Reads.congr
    · apply reads_bind (reads_u16 0)
      apply reads_bind (reads_u16 7)
      apply reads_bind (reads_u16 5)
      apply reads_after (reads_lift hname)
      apply reads_bind (reads_u16 6)
      apply reads_after (reads_lift hdesc)
      exact reads_map (reads_u16 0) (reads_pure _)
    · rfl
  apply Reads.congr
  · apply reads_bind (reads_u16 1)
    apply reads_bind (reads_u16 1)
    apply reads_bind (reads_u32 7)
    rw [if_neg (by decide)]
    apply reads_bind (reads_sweep sweeps_loose rfl)
    apply reads_bind (reads_counted (by decide) .nil)
    apply reads_bind (reads_counted (by decide) (.cons hlocal .nil))
    exact reads_map (reads_counted (by decide) .nil) (reads_pure _)
  · rfl

namespace Class

theorem decode_loose : decode looseBytes = .ok loose := by
  have hv : (⟨loosePool.entries, ∅⟩ : PoolBuilder).Valid := by
    refine ⟨by simp, by decide, ?_⟩
    intro s hs
    simp [loosePool] at hs
    rcases hs with rfl | rfl | rfl | rfl | rfl <;> decide
  have hnames : loosePool.utf8 3 = .ok "m" ∧ loosePool.utf8 4 = .ok "()V" := ⟨rfl, rfl⟩
  have hmethod := CodeBody.sound_loose.reads_alone hnames.1 hnames.2 CodeBody.reads_loose
  have hdecode := decode_named hv rfl (reads_counted (by decide) (.cons hmethod .nil))
  have hpool : (⟨loosePool.entries, ∅⟩ : PoolBuilder).bytes = (looseBytes.drop 8).take 42 := by
    decide +kernel
  rw [hpool] at hdecode
  exact hdecode

/-- Neither of the two instructions names a member of a type. -/
theorem untyped_loose : ∀ i ∈ CodeBody.loose.insns.take 2,
    ∃ n ∈ CodeBody.loose.alone.code.toList, n.opcode? = i.2.opcode? ∧ ¬n.Typed := by
  have hreal := CodeBody.realNodes_nodes CodeBody.sound_loose
  have hlist : CodeBody.loose.alone.code.toList = CodeBody.loose.nodes :=
    CodeBody.toList_resolve CodeBody.sound_loose
  have hfield : Descriptor.fieldWidth? untypedMember.desc = none := by decide
  have hmethod : Descriptor.methodShape? untypedMember.desc = none := by decide
  intro i hi
  refine ⟨i.2.mapLabels fun p => CodeBody.loose.labelTable.getD p.toNat 0, ?_, ?_⟩
  · have hin : i.2.mapLabels _ ∈ realNodes CodeBody.loose.nodes :=
      hreal ▸ List.mem_map_of_mem (List.mem_of_mem_take hi)
    exact hlist ▸ List.mem_of_mem_filter hin
  · simp only [CodeBody.loose, List.take_succ_cons, List.take_zero, List.mem_cons,
      List.not_mem_nil, or_false] at hi
    rcases hi with rfl | rfl
    · exact ⟨rfl, by simp [Insn.mapLabels, Insn.Typed, hfield]⟩
    · exact ⟨rfl, by simp [Insn.mapLabels, Insn.Typed, hmethod]⟩

theorem measured_of_decode_iff_loose :
    (decode looseBytes = .ok loose ∧ loose.Described ∧ ¬loose.Measured) ∧
    decode hollowBytes = .ok hollow ∧ hollow.Measured ∧
      ∃ bytes ds, hollow.encode = .ok bytes ∧
        decode bytes = .ok { hollow with methods := ds } := by
  obtain ⟨hdescribed, hmeasured, -⟩ := measured_of_decode_iff decode_loose
  obtain ⟨-, hhollow, hretyped⟩ := measured_of_decode_iff decode_hollow
  refine ⟨⟨decode_loose, hdescribed, fun hm => ?_⟩, decode_hollow, hhollow.2 ?_, ?_⟩
  · have htyped := hmeasured.1 hm _ (List.mem_singleton_self _)
    obtain ⟨n, hn, -, hnot⟩ := untyped_loose _ (List.mem_cons_self ..)
    exact hnot (htyped.nodes n hn)
  · intro m hm
    cases List.mem_singleton.1 hm
    refine ⟨fun i hi => Insn.typed_of_pseudo ?_, nofun⟩
    simpa [Insn.isReal] using Method.pseudo_hollow i hi
  · obtain ⟨bytes, he⟩ := encode_hollow
    obtain ⟨ds, hd, -⟩ := hretyped hollow bytes ⟨rfl, rfl, .cons ⟨rfl, rfl⟩ .nil⟩ he
    exact ⟨bytes, ds, he, hd⟩

/-- Decoding takes a field access, a call and a debug entry of no type, and
the sizes that are put in for them count. -/
theorem decode_keeps_untyped :
    decode looseBytes = .ok loose ∧ ¬loose.Measured ∧
    ∃ m ∈ loose.methods, (∃ i ∈ m.code.toList, i.opcode? = some .GETSTATIC ∧ ¬i.Typed) ∧
      (∃ i ∈ m.code.toList, i.opcode? = some .INVOKESTATIC ∧ ¬i.Typed) ∧
      ∃ v ∈ m.locals, ¬v.Typed := by
  have hget := untyped_loose _ (List.mem_cons_self ..)
  have hcall := untyped_loose _ (List.mem_cons_of_mem _ (List.mem_cons_self ..))
  have hlocals : ∃ v ∈ CodeBody.loose.alone.locals, ¬v.Typed := by
    refine ⟨_, List.mem_cons_self .., ?_⟩
    unfold LocalVar.Typed
    decide
  refine ⟨decode_loose, fun hm => ?_, _, List.mem_singleton_self _, hget, hcall, hlocals⟩
  obtain ⟨n, hn, -, hnot⟩ := hget
  exact hnot (n.typed_iff.2 (hm.deltas _ (List.mem_singleton_self _) n hn))

end Class

end ClassPatch
