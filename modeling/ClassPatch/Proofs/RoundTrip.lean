-- Decoding what was encoded gives the class back. The two halves meet at the
-- outline of each method: it is what the bytes are written for, and what they
-- resolve to once they are read.
import ClassPatch.Proofs.Rebuilt
import ClassPatch.Proofs.Tight

namespace ClassPatch

/-! ## Classes that a container can hold -/

/-- The nodes have operands of the kinds that their opcodes take. -/
def Method.Proper (m : Method) : Prop := ∀ i ∈ m.code.toList, i.Proper

/-- A proper method with a valid descriptor that branches to places before
the last instruction. -/
structure Method.WellFormed (m : Method) : Prop where
  desc : (Descriptor.methodShape? m.desc).isSome
  proper : m.Proper
  branches : ∀ i ∈ m.code.toList, ∀ l ∈ i.targets,
    realIndex m.code.toList l < m.code.toList.countP Insn.isReal

structure Class.WellFormed (c : Class) : Prop where
  major : c.major ≤ Class.formatMajor
  fields : ∀ f ∈ c.fields, (Descriptor.fieldWidth? f.desc).isSome
  methods : ∀ m ∈ c.methods, m.WellFormed

/-- What reading gives for a method that was written. A method without code
has none again; any other has the same outline, up to what is dropped, code
made from that alone, the limits that were computed, and every label marked. -/
structure Method.Recovered (m d : Method) : Prop where
  access : d.access = m.access
  name : d.name = m.name
  desc : d.desc = m.desc
  exceptions : d.exceptions = m.exceptions
  bodiless : m.code.isEmpty → d.code = {} ∧ d.locals = []
  outline : ¬m.code.isEmpty → d.outline = m.outline.settled
  body : ¬m.code.isEmpty → (d.code, d.locals) = m.outline.settled.rebuilt.resolve
  maxStack : ¬m.code.isEmpty → d.maxStack = m.code.maxStack
  maxLocals : ¬m.code.isEmpty → d.maxLocals = m.neededLocals
  linked : d.Linked

/-! ## Bodies -/

namespace Outline

theorem mem_targets_sortKeys {i : Node} {l : Label} :
    l ∈ i.sortKeys.targets ↔ l ∈ i.targets := by
  cases i with
  | lookupSwitch otherwise ps =>
    have hperm : (Instruction.sortPairs ps).Perm ps := List.mergeSort_perm ps _
    exact ((hperm.map (·.2)).cons otherwise).mem_iff
  | _ => exact Iff.rfl

theorem Bounded.settled {o : Outline} (h : o.Bounded) : o.settled.Bounded := by
  have hlen : o.settled.insns.length = o.insns.length := List.length_map ..
  refine ⟨?_, ?_, ?_, ?_, ?_, h.ordered.filter _⟩
  · refine List.forall_mem_map.2 fun i hi => ?_
    have := h.real i hi
    cases i <;> exact this
  · rw [hlen]
    exact List.forall_mem_map.2 fun i hi l hl => h.targets i hi l (mem_targets_sortKeys.1 hl)
  · intro g hg
    rw [hlen]
    exact h.ranges g (List.mem_of_mem_filter hg)
  · intro v hv
    rw [hlen]
    exact h.locals v (List.mem_of_mem_filter hv)
  · intro l hl
    rw [hlen]
    exact h.lines l (List.mem_of_mem_filter hl)

theorem noTemp_settled {o : Outline} (h : ∀ i ∈ o.insns, i.NoTemp) :
    ∀ i ∈ o.settled.insns, i.NoTemp := by
  refine List.forall_mem_map.2 fun i hi => ?_
  have := h i hi
  cases i <;> exact this

theorem Writable.settled {o : Outline} (h : o.Writable) : o.settled.Writable := by
  refine ⟨List.forall_mem_map.2 fun i hi => ?_, noTemp_settled h.slots⟩
  have := h.proper i hi
  cases i <;> exact this

theorem lands_settled {o : Outline} : o.settled.Lands ↔ o.Lands := by
  have hlen : o.settled.insns.length = o.insns.length := List.length_map ..
  unfold Lands
  rw [hlen]
  refine List.forall_mem_map.trans ?_
  simp only [mem_targets_sortKeys]

/-- The checks of a body that was written find every branch that leads nowhere. -/
theorem lands_of_check {o : Outline} {place : Nat → Nat} {maxStack maxLocals : UInt16}
    (hb : o.Bounded) (ha : o.Ascends place)
    (hc : (o.body maxStack maxLocals place).check = .ok ()) : o.Lands := by
  intro i hi l hl
  obtain ⟨k, hk⟩ := List.getElem?_of_mem hi
  have hin : (place k, i.mapLabels fun r => (place r : Int)) ∈
      (o.body maxStack maxLocals place).insns :=
    List.mem_map.2 ⟨(i, k), List.mem_zipIdx_iff_getElem?.2 hk, rfl⟩
  have ht : (place l : Int) ∈ (i.mapLabels fun r => (place r : Int)).targets := by
    rw [Insn.targets_mapLabels]
    exact List.mem_map_of_mem hl
  have := (CodeBody.check_parts hc).1 _ hin _ ht
  unfold CodeBody.checkBranch at this
  split at this
  · rename_i h
    have hstart := CodeBody.mem_starts.1 h.2
    rw [starts_body] at hstart
    obtain ⟨r, hr, heq⟩ := List.mem_map.1 hstart
    have hr := List.mem_range.1 hr
    rw [← (ha.inj (Nat.le_of_lt hr) (hb.targets i hi l hl)).1 heq]
    exact hr
  · cases this

end Outline

namespace Method
open Reader PoolBuilder

variable {m : Method}

theorem noTemp_of_checkLabels {index : Std.HashMap Label Nat} (h : m.checkLabels index = .ok ()) :
    ∀ i ∈ m.code.toList, i.NoTemp := by
  unfold checkLabels at h
  obtain ⟨_, hn, _⟩ := bind_eq_ok.1 h
  intro i hi t w hc
  have := forM_ok.1 hn i hi
  rw [checkNode, hc] at this
  cases this

theorem mem_outline {m : Method} {i : Node} (h : i ∈ m.outline.insns) :
    ∃ j ∈ m.code.toList, i = j.mapLabels (realIndex m.code.toList) := by
  obtain ⟨j, hj, rfl⟩ := List.mem_map.1 h
  exact ⟨j, List.mem_of_mem_filter hj, rfl⟩

theorem noTemp_outline (h : ∀ i ∈ m.code.toList, i.NoTemp) : ∀ i ∈ m.outline.insns, i.NoTemp := by
  intro i hi
  obtain ⟨j, hj, rfl⟩ := mem_outline hi
  exact Insn.noTemp_mapLabels.2 (h j hj)

theorem Proper.writable (h : m.Proper) (hs : ∀ i ∈ m.code.toList, i.NoTemp) :
    m.outline.Writable := by
  refine ⟨fun i hi => ?_, noTemp_outline hs⟩
  obtain ⟨j, hj, rfl⟩ := mem_outline hi
  exact Outline.proper_mapLabels.2 (h j hj)

theorem lands_outline : m.outline.Lands ↔ ∀ i ∈ m.code.toList, ∀ l ∈ i.targets,
    realIndex m.code.toList l < m.code.toList.countP Insn.isReal := by
  unfold Outline.Lands
  rw [m.length_outline]
  constructor
  · intro h i hi l hl
    have hreal : i.isReal := by cases i <;> first | rfl | cases hl
    refine h _ (List.mem_map_of_mem (List.mem_filter.2 ⟨hi, hreal⟩)) _ ?_
    rw [Insn.targets_mapLabels]
    exact List.mem_map_of_mem hl
  · intro h i hi l hl
    obtain ⟨j, hj, rfl⟩ := mem_outline hi
    rw [Insn.targets_mapLabels] at hl
    obtain ⟨k, hk, rfl⟩ := List.mem_map.1 hl
    exact h j hj k hk

/-- A body that was written reads back as one of the settled outline. -/
theorem builds_encodeBody (h : m.Proper) :
    Builds m.encodeBody fun p bytes => ∃ place, m.outline.settled.Ascends place ∧
      m.outline.settled.Writable ∧ ∀ signature, Reads (CodeBody.read p signature) bytes
        (m.outline.settled.body m.code.maxStack m.neededLocals place) := by
  intro b bytes b' hv hx
  obtain ⟨hlabels, rest, hwrites, rfl⟩ := writes_of_encodeBody hx
  have hw := (h.writable (noTemp_of_checkLabels hlabels)).settled
  have hb := m.bounded_outline
  obtain ⟨hv', hreads⟩ := (hwrites.settled hb).reads hb.settled m.outline.settled_settled hw hv
  refine ⟨hv', fun p hp => ?_⟩
  obtain ⟨hp', place, hplace, hread⟩ := hreads p hp
  refine ⟨hp', place, hplace, hw, fun signature => ?_⟩
  rw [List.append_assoc]
  exact hread _ _ _

end Method

/-! ## Methods -/

theorem countBytes_ok {n : Nat} {what : String} {bs : List UInt8} (h : countBytes n what = .ok bs) :
    n ≤ 65535 ∧ bs = bytesOf 2 n := by
  unfold countBytes at h
  split at h
  · cases h
    exact ⟨‹_›, rfl⟩
  · cases h

open Reader in
/-- Class names read back from their count and their indices. -/
theorem reads_classNames {p : Pool} {names : List String} {is : List UInt16}
    (h : List.Forall₂ (fun name i => i ≠ 0 ∧ p.className i = .ok name) names is)
    (hn : names.length ≤ 65535) :
    Reads (counted do p.className (← u16)) (bytesOf 2 names.length ++ is.flatMap wordBytes)
      names := by
  have hread : List.Forall₂ (Reads (do p.className (← u16))) (is.map wordBytes) names := by
    rw [List.forall₂_map_left_iff]
    exact h.flip.imp fun i name hi => reads_map (reads_u16 i) (reads_lift hi.2)
  have hlen : (is.map wordBytes).length = names.length := by
    rw [List.length_map, h.length_eq]
  rw [← hlen, List.flatMap_def]
  exact reads_counted (hlen ▸ hn) hread

namespace Method
open Reader PoolBuilder

variable {m : Method}

theorem wellFormed_iff_of_empty (h : m.code.isEmpty) :
    (∃ shape, methodShape m.desc = .ok shape) ∧ True ↔ m.WellFormed := by
  have hnodes : m.code.toList = [] := Code.toList_of_isEmpty h
  rw [methodShape_ok, and_true]
  refine ⟨fun hd => ⟨hd, ?_, ?_⟩, fun hm => hm.desc⟩
  · intro i hi
    rw [hnodes] at hi
    cases hi
  · intro i hi
    rw [hnodes] at hi
    cases hi

/-- What the reader asks of a method is that it is well-formed. -/
theorem wellFormed_iff_of_check {place : Nat → Nat} {maxStack maxLocals : UInt16} (hp : m.Proper)
    (hs : m.outline.settled.Writable) (ha : m.outline.settled.Ascends place) :
    (∃ shape, methodShape m.desc = .ok shape) ∧
      (∃ u, (m.outline.settled.body maxStack maxLocals place).check = .ok u) ∧ True ↔
        m.WellFormed := by
  have hb := m.bounded_outline.settled
  rw [methodShape_ok, and_true]
  constructor
  · rintro ⟨hd, u, hc⟩
    exact ⟨hd, hp, lands_outline.1 (Outline.lands_settled.1 (Outline.lands_of_check hb ha hc))⟩
  · intro hm
    have hl := Outline.lands_settled.2 (lands_outline.2 hm.branches)
    have hbody := Outline.sound_body maxStack maxLocals
      ⟨hb, m.outline.settled_settled, hs, hl⟩ ha
    exact ⟨hm.desc, (), CodeBody.check_of_sound hbody⟩

/-- What is written before the code. -/
def encodeHead (m : Method) : Builder (List UInt8) := do
  let name ← utf8 m.name
  let desc ← utf8 m.desc
  let count ← countBytes m.exceptions.length "exceptions"
  let exceptions ← m.exceptions.mapM className
  return wordBytes m.access ++ wordBytes name ++ wordBytes desc ++ count
    ++ exceptions.flatMap wordBytes

theorem encode_of_empty {m : Method} (h : m.code.isEmpty) :
    m.encode = m.encodeHead >>= fun head => pure (head ++ [0]) := by
  unfold encode encodeHead
  simp only [bind_assoc, pure_bind, if_pos h]

theorem encode_of_nonempty {m : Method} (h : ¬m.code.isEmpty) :
    m.encode = m.encodeHead >>= fun head => m.encodeBody >>= fun body =>
      pure (head ++ 1 :: body) := by
  unfold encode encodeHead
  simp only [bind_assoc, pure_bind, if_neg h]

/-- What is read of a method before its code. -/
def declared (m : Method) : Method :=
  { create m.access m.name m.desc with exceptions := m.exceptions }

/-- The reader of a method once its head was read. Whether the descriptor
parses is all of the head that may still be refused. -/
def readRest (pool : Pool) (m : Method) : Reader Method := do
  let _ ← methodShape m.desc
  if (← u8) = 0 then return m.declared else m.declared.readBody pool

theorem builds_encodeHead (m : Method) :
    Builds m.encodeHead fun p head => Reaches (Method.read p) head (m.readRest p) := by
  unfold encodeHead
  refine builds_bind (builds_utf8 m.name) fun n => builds_bind (builds_utf8 m.desc) fun d => ?_
  refine builds_bind (builds_lift fun count hc p => countBytes_ok hc) fun count => ?_
  refine builds_bind (builds_mapM fun name _ => builds_className name) fun es => ?_
  refine builds_pure fun p hes hcount hd hn => ?_
  obtain ⟨hle, rfl⟩ := hcount
  simp only [List.append_assoc]
  refine reaches_after (reads_u16 m.access) ?_
  refine reaches_after (reads_u16 n) (reaches_known (Pool.utf8_of_has hn) ?_)
  refine reaches_after (reads_u16 d) (reaches_known (Pool.utf8_of_has hd) ?_)
  exact reaches_check (reaches_last (reads_classNames hes hle) (reaches_refl _))

theorem accepts_readRest {p : Pool} {bs : List UInt8} {q : Prop} {d : Method} (flag : UInt8)
    (h : Accepts (if flag = 0 then pure m.declared else m.declared.readBody p) bs q d) :
    Accepts (m.readRest p) (flag :: bs) ((∃ shape, methodShape m.desc = .ok shape) ∧ q) d :=
  accepts_check (accepts_after (reads_u8 flag) h)

/-- A well-formed method that was written reads back; any other is refused. -/
theorem builds_encode (h : m.Proper) :
    Builds m.encode fun p bytes => ∃ d, (m.WellFormed → m.Recovered d) ∧
      Accepts (Method.read p) bytes m.WellFormed d := by
  by_cases hempty : m.code.isEmpty
  · rw [encode_of_empty hempty]
    refine builds_bind m.builds_encodeHead fun head => builds_pure fun p hhead => ?_
    have hrest := accepts_readRest (p := p) 0 (reads_pure m.declared).accepts
    refine ⟨_, fun _ => ?_, hhead.accepts (hrest.of_iff (wellFormed_iff_of_empty hempty))⟩
    exact ⟨rfl, rfl, rfl, rfl, fun _ => ⟨rfl, rfl⟩, fun hne => absurd hempty hne,
      fun hne => absurd hempty hne, fun hne => absurd hempty hne, fun hne => absurd hempty hne,
      linked_of_empty rfl rfl⟩
  · rw [encode_of_nonempty hempty]
    refine builds_bind m.builds_encodeHead fun head => ?_
    refine builds_bind (builds_encodeBody h) fun body => builds_pure fun p hbody hhead => ?_
    obtain ⟨place, hplace, hw, hread⟩ := hbody
    have hrest := accepts_readRest 1 (accepts_map (hread m.declared.signature)
      (accepts_check (reads_pure _).accepts))
    refine ⟨_, fun hm => ?_, hhead.accepts (hrest.of_iff (wellFormed_iff_of_check h hw hplace))⟩
    have hsound : m.outline.settled.Sound := ⟨m.bounded_outline.settled,
      m.outline.settled_settled, hw, Outline.lands_settled.2 (lands_outline.2 hm.branches)⟩
    have hbody := Outline.sound_body m.code.maxStack m.neededLocals hsound hplace
    have hresolve : (m.outline.settled.body m.code.maxStack m.neededLocals place).resolve =
        m.outline.settled.rebuilt.resolve := Outline.resolve_body hsound hplace
    refine ⟨rfl, rfl, rfl, rfl, fun he => absurd he hempty, fun _ => ?_, fun _ => hresolve,
      fun _ => rfl, fun _ => rfl, CodeBody.linked_resolve hbody rfl rfl⟩
    exact Outline.outline_rebuilt hsound (congrArg Prod.fst hresolve) (congrArg Prod.snd hresolve)

end Method

/-! ## Fields -/

namespace Field
open Reader PoolBuilder

/-- The reader of a field once its head was read. -/
def readValue (pool : Pool) (f : Field) : Reader Field := do
  if (← u8) = 0 then return { f with value := none }
  else return { f with value := some (← pool.constant (← u16)) }

/-- A field is read back up to the check of its descriptor. -/
theorem builds_parts (f : Field) : Builds f.encode fun p bytes => ∃ head value, bytes = head ++ value ∧
    Reaches (Field.read p) head (fieldWidth f.desc >>= fun _ => f.readValue p) ∧
      Reads (f.readValue p) value f := by
  unfold Field.encode
  refine builds_bind (builds_utf8 f.name) fun n => builds_bind (builds_utf8 f.desc) fun d => ?_
  have head : ∀ {p : Pool}, p.Has d (.utf8 f.desc) → p.Has n (.utf8 f.name) →
      Reaches (Field.read p) (wordBytes f.access ++ wordBytes n ++ wordBytes d)
        (fieldWidth f.desc >>= fun _ => f.readValue p) := by
    intro p hd hn
    rw [List.append_assoc]
    refine reaches_after (reads_u16 f.access) ?_
    refine reaches_after (reads_u16 n) (reaches_known (Pool.utf8_of_has hn) ?_)
    exact reaches_last (reads_u16 d) (reaches_known (Pool.utf8_of_has hd) (reaches_refl _))
  obtain ⟨access, name, desc, value⟩ := f
  cases value with
  | none =>
    refine builds_pure fun p hd hn => ⟨_, _, rfl, head hd hn, ?_⟩
    exact reads_head 0 (reads_pure _)
  | some v =>
    refine builds_bind (builds_constant v) fun i => builds_pure fun p hv hd hn => ?_
    refine ⟨_, _, rfl, head hd hn, reads_head 1 ?_⟩
    exact reads_map (reads_u16 i) (reads_after (reads_lift hv) (reads_pure _))

theorem builds_encode (f : Field) :
    Builds f.encode fun p bytes =>
      Accepts (Field.read p) bytes (Descriptor.fieldWidth? f.desc).isSome f := by
  refine f.builds_parts.imp fun p bytes hbytes => ?_
  obtain ⟨head, value, rfl, hhead, hvalue⟩ := hbytes
  refine (hhead.accepts (accepts_check hvalue.accepts)).of_iff ?_
  rw [fieldWidth_ok, and_true]

end Field

/-! ## Classes -/

theorem forall₂_of_forall {α β : Type} {q : α → Prop} {r : α → β → Prop} {as : List α} {bs : List β}
    (h : List.Forall₂ (fun a b => q a → r a b) as bs) (hq : ∀ a ∈ as, q a) :
    List.Forall₂ r as bs := by
  induction h with
  | nil => exact .nil
  | cons hab _ ih =>
    obtain ⟨ha, has⟩ := List.forall_mem_cons.1 hq
    exact .cons (hab ha) (ih has)

namespace Class
open Reader PoolBuilder

def Proper (c : Class) : Prop := ∀ m ∈ c.methods, m.Proper

theorem WellFormed.isProper {c : Class} (h : c.WellFormed) : c.Proper :=
  fun m hm => (h.methods m hm).proper

/-- The reader of what follows the pool. -/
def readMembers (major minor : UInt16) (pool : Pool) : Reader Class := do
  let access ← u16
  let name ← pool.className (← u16)
  let superName ← pool.className? (← u16)
  let interfaces ← counted do pool.className (← u16)
  let fields ← counted (Field.read pool)
  let methods ← counted (Method.read pool)
  return { major, minor, access, name, superName, interfaces, fields, methods }

/-- The reader of a class once everything before its fields was read. -/
def readTables (major minor : UInt16) (pool : Pool) (c : Class) : Reader Class := do
  let fields ← counted (Field.read pool)
  let methods ← counted (Method.read pool)
  return { c with major, minor, fields, methods }

/-- What is written for a class are its names, then a table of its fields and a
table of its methods, each of which holds what was written for it. -/
theorem builds_parts {c : Class} {qf : Pool → Field → List UInt8 → Prop}
    {qm : Pool → Method → List UInt8 → Prop}
    (hfields : ∀ f ∈ c.fields, Builds f.encode fun p => qf p f)
    (hmethods : ∀ m ∈ c.methods, Builds m.encode fun p => qm p m) :
    Builds c.encodeBody fun p bytes => ∃ head fs ms,
      bytes = head ++ (bytesOf 2 c.fields.length ++ fs.flatten ++
        (bytesOf 2 c.methods.length ++ ms.flatten)) ∧
      (∀ major minor, Reaches (readMembers major minor p) head (c.readTables major minor p)) ∧
      c.fields.length ≤ 65535 ∧ List.Forall₂ (qf p) c.fields fs ∧
      c.methods.length ≤ 65535 ∧ List.Forall₂ (qm p) c.methods ms := by
  unfold encodeBody
  refine builds_bind (builds_className c.name) fun name => ?_
  refine builds_bind (builds_className? c.superName) fun superName => ?_
  refine builds_bind (builds_lift fun bs hc p => countBytes_ok hc) fun interfaceCount => ?_
  refine builds_bind (builds_mapM fun i _ => builds_className i) fun interfaces => ?_
  refine builds_bind (builds_lift fun bs hc p => countBytes_ok hc) fun fieldCount => ?_
  refine builds_bind (builds_mapM hfields) fun fields => ?_
  refine builds_bind (builds_lift fun bs hc p => countBytes_ok hc) fun methodCount => ?_
  refine builds_bind (builds_mapM hmethods) fun methods => ?_
  refine builds_pure fun p hm hmc hf hfc hi hic hs hn => ?_
  obtain ⟨hicount, rfl⟩ := hic
  obtain ⟨hfcount, rfl⟩ := hfc
  obtain ⟨hmcount, rfl⟩ := hmc
  refine ⟨wordBytes c.access ++ (wordBytes name ++ (wordBytes superName ++
    (bytesOf 2 c.interfaces.length ++ interfaces.flatMap wordBytes))), fields, methods, ?_,
    fun major minor => ?_, hfcount, hf, hmcount, hm⟩
  · simp only [List.append_assoc]
  · refine reaches_after (reads_u16 c.access) ?_
    refine reaches_after (reads_u16 name) (reaches_known hn.2 ?_)
    refine reaches_after (reads_u16 superName) (reaches_known hs ?_)
    exact reaches_last (reads_classNames hi hicount) (reaches_refl _)

theorem builds_encodeBody {c : Class} (h : c.Proper) :
    Builds c.encodeBody fun p bytes => ∃ ds,
      List.Forall₂ (fun m d => m.WellFormed → m.Recovered d) c.methods ds ∧
        Accepts (readMembers c.major c.minor p) bytes
          ((∀ f ∈ c.fields, (Descriptor.fieldWidth? f.desc).isSome) ∧
            ∀ m ∈ c.methods, m.WellFormed) { c with methods := ds } := by
  have hparts := builds_parts (fun f _ => f.builds_encode) fun m hm => Method.builds_encode (h m hm)
  refine hparts.imp fun p bytes hbytes => ?_
  obtain ⟨head, fs, ms, rfl, hhead, hfcount, hf, hmcount, hm⟩ := hbytes
  obtain ⟨fields, hfs, hfields⟩ := accepts_counted hfcount (hf.imp fun f _ hb => ⟨f, rfl, hb⟩)
  obtain ⟨ds, hds, hmethods⟩ := accepts_counted hmcount hm
  obtain rfl : c.fields = fields := List.forall₂_eq_eq_eq ▸ hfs
  exact ⟨ds, hds, (hhead c.major c.minor).accepts
    (accepts_bind hfields (accepts_last hmethods (reads_pure _)))⟩

theorem accepts_readHeader (major minor : UInt16) :
    Accepts readHeader (bytesOf 4 Fault.magic ++ (wordBytes major ++ wordBytes minor))
      (major ≤ formatMajor) (major, minor) := by
  refine accepts_after (reads_u32_of_lt (by decide)) ?_
  rw [if_neg (by decide)]
  refine accepts_after (reads_u16 major) (accepts_map (reads_u16 minor) ?_)
  by_cases h : major ≤ formatMajor
  · rw [if_neg (UInt16.not_lt.2 h)]
    exact (reads_pure _).accepts.of_iff (iff_of_true trivial h)
  · rw [if_pos (UInt16.not_le.1 h)]
    exact ⟨fun hle => absurd hle h, fun _ _ _ hr => nomatch hr⟩

theorem encode_ok {c : Class} {bytes : List UInt8} :
    c.encode = .ok bytes ↔ checkUnique (c.fields.map fun f => (f.name, f.desc)) = .ok () ∧
      checkUnique (c.methods.map fun m => (m.name, m.desc)) = .ok () ∧
        ∃ body b, c.encodeBody {} = .ok (body, b) ∧ bytes =
          bytesOf 4 Fault.magic ++ wordBytes c.major ++ wordBytes c.minor ++ b.bytes ++ body := by
  unfold encode
  constructor
  · intro h
    obtain ⟨_, hfields, h⟩ := bind_eq_ok.1 h
    obtain ⟨_, hmethods, h⟩ := bind_eq_ok.1 h
    obtain ⟨r, hbody, h⟩ := bind_eq_ok.1 h
    cases h
    exact ⟨hfields, hmethods, r.1, r.2, hbody, rfl⟩
  · rintro ⟨hfields, hmethods, body, b, hbody, rfl⟩
    exact bind_eq_ok.2 ⟨_, hfields, bind_eq_ok.2 ⟨_, hmethods, bind_eq_ok.2 ⟨_, hbody, rfl⟩⟩⟩

/-- A container that was written reads back if the class is well-formed, and
is refused if it is not. -/
theorem accepts_encode {c : Class} {bytes : List UInt8} (h : c.Proper) (he : c.encode = .ok bytes) :
    ∃ ds, List.Forall₂ (fun m d => m.WellFormed → m.Recovered d) c.methods ds ∧
      Accepts read bytes c.WellFormed { c with methods := ds } := by
  obtain ⟨_, _, body, b, hbody, rfl⟩ := encode_ok.1 he
  obtain ⟨hv, hbuilt⟩ := builds_encodeBody h {} body b valid_empty hbody
  obtain ⟨_, ds, hds, hmembers⟩ := hbuilt ⟨b.entries⟩ fun k e hk => hk
  refine ⟨ds, hds, ?_⟩
  have : Accepts read (bytesOf 4 Fault.magic ++ (wordBytes c.major ++ wordBytes c.minor) ++
      (b.bytes ++ body)) _ { c with methods := ds } :=
    accepts_bind (accepts_readHeader c.major c.minor) (accepts_after (Pool.reads_read hv) hmembers)
  simp only [List.append_assoc] at this ⊢
  exact this.of_iff ⟨fun h => ⟨h.1, h.2.1, h.2.2⟩, fun h => ⟨h.major, h.fields, h.methods⟩⟩

theorem decode_of_reads {bytes : List UInt8} {d : Class} (h : Reads read bytes d) :
    decode bytes = .ok d := by
  have := h [] 0
  rw [List.append_nil] at this
  unfold decode
  rw [this]
  rfl

/-- Only well-formed classes are read back. -/
theorem wellFormed_of_decode {c d : Class} {bytes : List UInt8} (h : c.Proper)
    (he : c.encode = .ok bytes) (hd : decode bytes = .ok d) : c.WellFormed := by
  obtain ⟨ds, _, hread⟩ := accepts_encode h he
  unfold decode at hd
  obtain ⟨r, hr, _⟩ := bind_eq_ok.1 hd
  rw [← List.append_nil bytes] at hr
  exact hread.needs _ _ _ hr

/-- A well-formed class that was written reads back. -/
theorem reads_encode {c : Class} {bytes : List UInt8} (h : c.WellFormed)
    (he : c.encode = .ok bytes) :
    ∃ ds, List.Forall₂ Method.Recovered c.methods ds ∧
      Reads read bytes { c with methods := ds } := by
  obtain ⟨ds, hds, hread⟩ := accepts_encode h.isProper he
  exact ⟨ds, forall₂_of_forall hds h.methods, hread.reads h⟩

/-- Encoding and then decoding preserves the class: the header and the fields
come back as they are, and every method as far as a container keeps it. -/
theorem decode_of_encode {c : Class} {bytes : List UInt8} (h : c.WellFormed)
    (he : c.encode = .ok bytes) :
    ∃ ds, decode bytes = .ok { c with methods := ds } ∧
      List.Forall₂ Method.Recovered c.methods ds := by
  obtain ⟨ds, hds, hread⟩ := reads_encode h he
  exact ⟨ds, decode_of_reads hread, hds⟩

end Class

/-! ## A loop, written and read back -/

/-- One jump, to itself or past its end, is written without the pool. -/
theorem Outline.writes_jump {t : Label} (ht : t ≤ 1) (b : PoolBuilder) :
    ∃ rest, (⟨[.jump .GOTO t], [], [], []⟩ : Outline).Writes b b rest := by
  refine ⟨_, [⟨.jump .GOTO t, 0⟩], b, fun _ => false, rfl, .done ⟨?_, ?_⟩ ?_, ?_, rfl⟩
  · exact (by decide : Layout.stop (fun _ => false) [⟨.jump .GOTO 0, 0⟩] 1 ≤ 65535)
  · intro k item hk _
    cases k with
    | zero =>
      cases hk
      exact ⟨_, rfl⟩
    | succ k => cases hk
  · funext k
    cases k with
    | zero =>
      rcases Nat.le_one_iff_eq_zero_or_eq_one.1 ht with rfl | rfl <;> decide
    | succ k => rfl
  · intro i hi
    cases List.mem_singleton.1 hi
    rfl

/-- A method that stays in one loop. -/
def Method.spin : Method :=
  { Method.create 9 "m" "()V" with code := (Code.empty.mark "loop").push (.jump .GOTO 0) }

/-- A class "A" with a method that loops. -/
def Class.spinner : Class where
  name := "A"
  methods := [.spin]

namespace Method

theorem toList_spin : spin.code.toList = [.label 0, .jump .GOTO 0] := rfl

theorem realIndex_spin : realIndex spin.code.toList 0 = 0 := by
  simp [toList_spin, realIndex, markerIndex, Insn.marker?, realBefore]

theorem wellFormed_spin : spin.WellFormed := by
  refine ⟨by decide +kernel, fun i hi => ?_, fun i hi l hl => ?_⟩
  · rw [toList_spin] at hi
    simp only [List.mem_cons, List.not_mem_nil, or_false] at hi
    rcases hi with rfl | rfl
    · trivial
    · rfl
  · have hl : l = 0 := by
      rw [toList_spin] at hi
      simp only [List.mem_cons, List.not_mem_nil, or_false] at hi
      rcases hi with rfl | rfl
      · cases hl
      · exact List.mem_singleton.1 hl
    rw [hl, realIndex_spin]
    decide

theorem writes_spin (b : PoolBuilder) : ∃ rest, spin.outline.Writes b b rest := by
  have houtline : spin.outline = ⟨[.jump .GOTO (realIndex spin.code.toList 0)], [], [], []⟩ := rfl
  rw [houtline, realIndex_spin]
  exact Outline.writes_jump (Nat.zero_le 1) b

theorem encodeBody_spin (b : PoolBuilder) : ∃ bytes, spin.encodeBody b = .ok (bytes, b) := by
  have hlabels : spin.checkLabels (markerIndex spin.code.toList) = .ok () := by
    simp [toList_spin, checkLabels, checkNode, requireMarker, markerIndex, Insn.marker?,
      Insn.access?, Insn.targets]
    rfl
  obtain ⟨rest, hrest⟩ := writes_spin b
  exact ⟨_, encodeBody_of_writes hlabels hrest⟩

end Method

namespace Class

/-- A class with one method whose body is written without the pool. -/
theorem encode_single {m : Method} (hname : m.name = "m") (hdesc : m.desc = "()V")
    (hexceptions : m.exceptions = []) (hcode : ¬m.code.isEmpty)
    (h : ∀ b, ∃ bytes, m.encodeBody b = .ok (bytes, b)) :
    ∃ bytes, ({ name := "A", methods := [m] } : Class).encode = .ok bytes := by
  choose body hbody using h
  have hsizes : "A".utf8ByteSize = 1 ∧ "m".utf8ByteSize = 1 ∧ "()V".utf8ByteSize = 3 :=
    ⟨rfl, rfl, rfl⟩
  simp [encode, checkUnique, encodeBody, Method.encode, hcode, hname, hdesc, hexceptions,
    hbody, hsizes, PoolBuilder.className, PoolBuilder.className?, PoolBuilder.utf8,
    PoolBuilder.intern, PoolBuilder.maxEntries, countBytes, bind, Except.bind, pure, Except.pure,
    StateT.bind, StateT.run, PoolBuilder.pure_eq, liftM, monadLift, MonadLift.monadLift, StateT.lift]

theorem encode_spinner : ∃ bytes, spinner.encode = .ok bytes :=
  encode_single rfl rfl rfl Bool.false_ne_true Method.encodeBody_spin

theorem wellFormed_spinner : spinner.WellFormed := by
  refine ⟨by decide, nofun, fun m hm => ?_⟩
  cases List.mem_singleton.1 hm
  exact Method.wellFormed_spin

theorem decode_of_encode_spinner : spinner.WellFormed ∧ ∃ bytes ds, spinner.encode = .ok bytes ∧
    decode bytes = .ok { spinner with methods := ds } ∧
      List.Forall₂ Method.Recovered spinner.methods ds := by
  obtain ⟨bytes, he⟩ := encode_spinner
  obtain ⟨ds, hd⟩ := decode_of_encode wellFormed_spinner he
  exact ⟨wellFormed_spinner, bytes, ds, he, hd⟩

end Class

end ClassPatch
