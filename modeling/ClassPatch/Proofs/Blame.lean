-- Which part of a container a refusal for a descriptor is about. Instructions
-- are read inside of the bytes that the container announces for them, and
-- are never refused for a descriptor, so this is left to the members.
import ClassPatch.Proofs.Faults
import ClassPatch.Proofs.RoundTrip

namespace ClassPatch

/-- The fault is not about a descriptor. -/
def Fault.Other (f : Fault) : Prop := ∀ d, f ≠ .invalidDescriptor d

namespace Reader
variable {α β : Type}

/-! ## Readers that no descriptor stops -/

/-- Whatever the bytes are, the reader does not fail for a descriptor. -/
def Tolerates (x : Reader α) : Prop := ∀ c, Yields Fault.Other (x c) fun _ => True

theorem tolerates_pure (a : α) : Tolerates (pure a) := fun _ => trivial

theorem tolerates_throw {f : Fault} (h : f.Other) : Tolerates (throw f : Reader α) := fun _ => h

theorem tolerates_bind {x : Reader α} {f : α → Reader β} (hx : Tolerates x)
    (hf : ∀ a, Tolerates (f a)) : Tolerates (x >>= f) :=
  fun c => Yields.bind (hx c) fun r _ => hf r.1 r.2

theorem tolerates_lift {x : Except Fault α} (h : Yields Fault.Other x fun _ => True) :
    Tolerates (liftM x) :=
  fun _ => Yields.bind h fun _ _ => trivial

/-- A condition that stops, and what comes after it. -/
theorem tolerates_stop {p : Prop} [Decidable p] {f : Fault} {x : Unit → Reader β} (hf : f.Other)
    (hx : Tolerates (x ())) :
    Tolerates (if p then (throw f : Reader Unit) >>= x else x ()) := by
  split
  · exact tolerates_bind (tolerates_throw hf) fun _ => hx
  · exact hx

theorem tolerates_take (n : Nat) : Tolerates (take n) := by
  intro c
  unfold take
  dsimp only
  split
  · trivial
  · exact nofun

theorem tolerates_offset : Tolerates offset := fun _ => trivial

theorem tolerates_number (size : Nat) : Tolerates (number size) :=
  tolerates_bind (tolerates_take size) fun _ => tolerates_pure _

theorem tolerates_u8 : Tolerates u8 := tolerates_bind (tolerates_number 1) fun _ => tolerates_pure _

theorem tolerates_u16 : Tolerates u16 :=
  tolerates_bind (tolerates_number 2) fun _ => tolerates_pure _

theorem tolerates_i8 : Tolerates i8 := tolerates_bind (tolerates_number 1) fun _ => tolerates_pure _

theorem tolerates_i16 : Tolerates i16 :=
  tolerates_bind (tolerates_number 2) fun _ => tolerates_pure _

theorem tolerates_i32 : Tolerates i32 :=
  tolerates_bind (tolerates_number 4) fun _ => tolerates_pure _

theorem tolerates_timesFrom {item : Reader α} (h : Tolerates item) (read : List α) (n : Nat) :
    Tolerates (timesFrom item read n) := by
  induction n generalizing read with
  | zero => exact tolerates_pure _
  | succ n ih => exact tolerates_bind h fun a => ih (a :: read)

theorem tolerates_untilEnd {item : Reader α} (h : Tolerates item) (read : List α) (fuel : Nat) :
    Tolerates (untilEnd item read fuel) := by
  induction fuel generalizing read with
  | zero => exact tolerates_pure _
  | succ fuel ih =>
    refine tolerates_bind (fun _ => trivial) fun c => ?_
    split
    · exact tolerates_pure _
    · exact tolerates_bind h fun a => ih (a :: read)

end Reader

/-! ## Instructions -/

namespace Pool
variable (p : Pool) (i : UInt16)

theorem other_entry : Yields Fault.Other (p.entry i) fun _ => True := by
  unfold entry
  split
  · exact nofun
  · split
    · trivial
    · exact nofun

theorem other_utf8 : Yields Fault.Other (p.utf8 i) fun _ => True := by
  refine Yields.bind (p.other_entry i) fun e _ => ?_
  cases e <;> first | trivial | exact nofun

theorem other_className : Yields Fault.Other (p.className i) fun _ => True := by
  refine Yields.bind (p.other_entry i) fun e _ => ?_
  cases e <;> first | exact p.other_utf8 _ | exact nofun

theorem other_nameAndType : Yields Fault.Other (p.nameAndType i) fun _ => True := by
  refine Yields.bind (p.other_entry i) fun e _ => ?_
  cases e with
  | nameAndType name desc =>
    exact Yields.bind (p.other_utf8 name) fun _ _ =>
      Yields.bind (p.other_utf8 desc) fun _ _ => trivial
  | _ => exact nofun

theorem other_member (owner nt : UInt16) (interface : Bool) :
    Yields Fault.Other (p.member owner nt interface) fun _ => True :=
  Yields.bind (p.other_nameAndType nt) fun _ _ =>
    Yields.bind (p.other_className owner) fun _ _ => trivial

theorem other_field : Yields Fault.Other (p.field i) fun _ => True := by
  refine Yields.bind (p.other_entry i) fun e _ => ?_
  cases e <;> first | exact p.other_member _ _ _ | exact nofun

theorem other_method : Yields Fault.Other (p.method i) fun _ => True := by
  refine Yields.bind (p.other_entry i) fun e _ => ?_
  cases e <;> first | exact p.other_member _ _ _ | exact nofun

theorem other_constant : Yields Fault.Other (p.constant i) fun _ => True := by
  refine Yields.bind (p.other_entry i) fun e _ => ?_
  cases e <;> first
    | trivial
    | exact Yields.bind (p.other_utf8 _) fun _ _ => trivial
    | exact nofun

end Pool

namespace Instruction
open Reader

theorem tolerates_readPlace (pc : Nat) : Tolerates (readPlace pc) :=
  tolerates_bind tolerates_i32 fun _ => tolerates_pure _

theorem tolerates_readWide (pc : Nat) : Tolerates (readWide pc) := by
  refine tolerates_bind tolerates_u8 fun inner => ?_
  split
  · exact tolerates_throw nofun
  · split
    · exact tolerates_bind tolerates_u16 fun _ => tolerates_bind tolerates_i16 fun _ =>
        tolerates_pure _
    · exact tolerates_bind tolerates_u16 fun _ => tolerates_pure _
    · exact tolerates_throw nofun

theorem tolerates_readImmediate (op : Opcode) : Tolerates (readImmediate op) := by
  unfold readImmediate
  split
  · exact tolerates_bind tolerates_i8 fun _ => tolerates_pure _
  · exact tolerates_bind tolerates_i16 fun _ => tolerates_pure _
  · exact tolerates_bind tolerates_u8 fun _ => tolerates_pure _

theorem tolerates_readMethod (pool : Pool) (op : Opcode) : Tolerates (readMethod pool op) := by
  unfold readMethod
  refine tolerates_bind tolerates_u16 fun i => ?_
  refine tolerates_bind (tolerates_lift (pool.other_method i)) fun m => ?_
  split
  · exact tolerates_bind (tolerates_bind (tolerates_take 2) fun _ => tolerates_pure _) fun _ =>
      tolerates_pure _
  · exact tolerates_pure _

theorem tolerates_readTableSwitch (pc : Nat) : Tolerates (readTableSwitch pc) := by
  unfold readTableSwitch
  refine tolerates_bind (tolerates_bind (tolerates_take _) fun _ => tolerates_pure _) fun _ => ?_
  refine tolerates_bind (tolerates_readPlace pc) fun otherwise => ?_
  refine tolerates_bind tolerates_i32 fun low => tolerates_bind tolerates_i32 fun high => ?_
  refine tolerates_stop nofun ?_
  exact tolerates_bind (tolerates_timesFrom (tolerates_readPlace pc) _ _) fun _ => tolerates_pure _

theorem tolerates_readLookupSwitch (pc : Nat) : Tolerates (readLookupSwitch pc) := by
  have hpair : Tolerates (readPair pc) :=
    tolerates_bind tolerates_i32 fun _ => tolerates_bind (tolerates_readPlace pc) fun _ =>
      tolerates_pure _
  unfold readLookupSwitch
  refine tolerates_bind (tolerates_bind (tolerates_take _) fun _ => tolerates_pure _) fun _ => ?_
  refine tolerates_bind (tolerates_readPlace pc) fun otherwise => ?_
  refine tolerates_bind tolerates_i32 fun count => ?_
  refine tolerates_stop nofun ?_
  exact tolerates_bind (tolerates_timesFrom hpair _ _) fun _ => tolerates_pure _

theorem tolerates_readOperands (pool : Pool) (pc : Nat) (op : Opcode) :
    Tolerates (readOperands pool pc op) := by
  unfold readOperands
  split
  · exact tolerates_pure _
  · exact tolerates_bind (tolerates_readImmediate op) fun _ => tolerates_pure _
  · exact tolerates_bind tolerates_u8 fun i =>
      tolerates_bind (tolerates_lift (pool.other_constant _)) fun _ => tolerates_pure _
  · exact tolerates_bind tolerates_u8 fun _ => tolerates_pure _
  · exact tolerates_bind tolerates_u8 fun _ => tolerates_bind tolerates_i8 fun _ => tolerates_pure _
  · exact tolerates_bind tolerates_i16 fun _ => tolerates_pure _
  · exact tolerates_bind tolerates_u16 fun i =>
      tolerates_bind (tolerates_lift (pool.other_field i)) fun _ => tolerates_pure _
  · exact tolerates_readMethod pool op
  · exact tolerates_bind tolerates_u16 fun i =>
      tolerates_bind (tolerates_lift (pool.other_className i)) fun _ => tolerates_pure _
  · exact tolerates_readTableSwitch pc
  · exact tolerates_readLookupSwitch pc

theorem tolerates_read (pool : Pool) (pc : Nat) : Tolerates (Instruction.read pool pc) := by
  unfold Instruction.read
  refine tolerates_bind tolerates_u8 fun byte => ?_
  split
  · exact tolerates_readWide pc
  split
  · exact tolerates_bind tolerates_u16 fun i =>
      tolerates_bind (tolerates_lift (pool.other_constant i)) fun _ => tolerates_pure _
  split
  · exact tolerates_bind (tolerates_readPlace pc) fun _ => tolerates_pure _
  split
  · exact tolerates_pure _
  · split
    · exact tolerates_readOperands pool pc _
    · exact tolerates_throw nofun

end Instruction

namespace CodeBody
open Reader

/-- The places of a body are refused for where they lead, if they are. -/
theorem other_check (b : CodeBody) : Yields Fault.Other b.check fun _ => True := by
  have hbranch : ∀ pc place, Yields Fault.Other (checkBranch b.starts pc place) fun _ => True := by
    intro pc place
    unfold checkBranch
    split
    · trivial
    · exact nofun
  have hplace : ∀ pc place,
      Yields Fault.Other (checkPlace b.starts b.size pc place) fun _ => True := by
    intro pc place
    unfold checkPlace
    split
    · trivial
    · exact nofun
  unfold check
  refine Yields.bind (Yields.forM fun i _ => Yields.forM fun _ _ => hbranch ..) fun _ _ => ?_
  refine Yields.bind (Yields.forM fun r _ => Yields.forM fun _ _ => hplace ..) fun _ _ => ?_
  refine Yields.bind (Yields.forM fun v _ => Yields.forM fun _ _ => hplace ..) fun _ _ => ?_
  exact Yields.forM fun l _ => hplace ..

theorem tolerates_sweep (pool : Pool) (size : Nat) : Tolerates (sweep pool size) :=
  tolerates_bind tolerates_offset fun _ =>
    tolerates_untilEnd (tolerates_bind tolerates_offset fun _ =>
      tolerates_bind (Instruction.tolerates_read pool _) fun _ => tolerates_pure _) _ _

end CodeBody

/-! ## Readers that stay in step -/

namespace Reader
variable {α β : Type} {q : Fault → Prop}

/-- In front of any other bytes and at any offset the reader takes exactly
these bytes, or it fails for a fault that `q` allows. -/
def InStep (q : Fault → Prop) (x : Reader α) (bs : List UInt8) : Prop :=
  ∀ rest offset, Yields q (x ⟨bs ++ rest, offset⟩) fun r => r.2 = ⟨rest, offset + bs.length⟩

theorem Reads.inStep {x : Reader α} {bs : List UInt8} {a : α} (h : Reads x bs a) : InStep q x bs := by
  intro rest offset
  rw [h]
  exact rfl

theorem Reaches.inStep {x y : Reader α} {bs cs : List UInt8} (h : Reaches x bs y)
    (hy : InStep q y cs) : InStep q x (bs ++ cs) := by
  intro rest offset
  rw [List.append_assoc, h, List.length_append, ← Nat.add_assoc]
  exact hy rest _

theorem inStep_bind {x : Reader α} {f : α → Reader β} {bs cs : List UInt8} (hx : InStep q x bs)
    (hf : ∀ a, InStep q (f a) cs) : InStep q (x >>= f) (bs ++ cs) := by
  intro rest offset
  rw [List.append_assoc]
  refine Yields.bind (hx (cs ++ rest) offset) ?_
  rintro ⟨a, _⟩ rfl
  rw [List.length_append, ← Nat.add_assoc]
  exact hf a rest _

/-- What always reads, and then something that may not. -/
theorem inStep_after {x : Reader α} {f : α → Reader β} {bs cs : List UInt8} {a : α}
    (hx : Reads x bs a) (hf : InStep q (f a) cs) : InStep q (x >>= f) (bs ++ cs) :=
  (reaches_last hx (reaches_refl (f a))).inStep hf

theorem inStep_check {x : Except Fault α} {y : α → Reader β} {bs : List UInt8}
    (hx : Yields q x fun _ => True) (hy : ∀ a, InStep q (y a) bs) : InStep q (liftM x >>= y) bs := by
  cases x with
  | error f => exact fun _ _ => hx
  | ok a => exact hy a

theorem inStep_pure (a : α) : InStep q (pure a) [] := (reads_pure a).inStep

/-- Something that may not read, and then no more bytes. -/
theorem inStep_last {x : Reader α} {f : α → Reader β} {bs : List UInt8} (hx : InStep q x bs)
    (hf : ∀ a, InStep q (f a) []) : InStep q (x >>= f) bs := by
  have := inStep_bind hx hf
  rwa [List.append_nil] at this

theorem inStep_timesFrom {γ : Type} {item : Reader α} {cs : List γ} {bss : List (List UInt8)}
    (h : List.Forall₂ (fun _ bs => InStep q item bs) cs bss) (read : List α) :
    InStep q (timesFrom item read cs.length) bss.flatten := by
  induction h generalizing read with
  | nil => exact inStep_pure _
  | cons hbs _ ih => exact inStep_bind hbs fun a => ih (a :: read)

/-- A table of items, each of which may be refused. -/
theorem inStep_counted {γ : Type} {item : Reader α} {cs : List γ} {bss : List (List UInt8)}
    (hn : cs.length ≤ 65535) (h : List.Forall₂ (fun _ bs => InStep q item bs) cs bss) :
    InStep q (counted item) (bytesOf 2 cs.length ++ bss.flatten) := by
  refine inStep_after (reads_u16_of_lt (Nat.lt_succ_of_le hn)) ?_
  rw [UInt16.toNat_ofNat_of_lt' (Nat.lt_succ_of_le hn)]
  exact inStep_timesFrom h []

/-- The bytes of a part are taken whatever the part makes of them. -/
theorem inStep_within {size : Nat} {body : Reader α} {bs : List UInt8} (hbs : bs.length = size)
    (hbody : ∀ c, Yields q (body c) fun _ => True) : InStep q (within size body) bs := by
  intro rest start
  change Yields q ((take size ⟨bs ++ rest, start⟩).bind _) _
  rw [reads_take hbs]
  exact inStep_check (hbody ⟨bs, start⟩) (fun _ => inStep_pure _) rest (start + bs.length)

end Reader

/-! ## What was written -/

section
open Reader PoolBuilder

variable {q : Fault → Prop} (hq : ∀ f : Fault, f.Other → q f)
include hq

namespace Method

/-- Whatever the nodes are, the tables are found behind the instructions. -/
theorem builds_encodeBody_inStep (m : Method) :
    Builds m.encodeBody fun p bytes => ∀ signature, InStep q (CodeBody.read p signature) bytes := by
  intro b bytes b' hv hx
  obtain ⟨hlabels, rest, hwrites, rfl⟩ := writes_of_encodeBody hx
  have hb := m.bounded_outline
  obtain ⟨items, b₁, wide, hitems, hs, -, hfinish⟩ := hwrites.settled hb
  have hn := node_of_mapM_itemOf hitems
  have hsize := hs.passes.1.size
  obtain ⟨hv₁, hin₁⟩ := builds_mapM (fun i _ => builds_itemOf_node i) b items b₁ hv hitems
  obtain ⟨hv', hin'⟩ := Outline.builds_finish hn hb.settled m.outline.settled_settled hsize
    b₁ rest b' hv₁ hfinish
  refine ⟨hv', fun p hp => ?_⟩
  obtain ⟨hp₁, tables, rfl, htables⟩ := hin' p hp
  refine ⟨(hin₁ p hp₁).1, fun signature => ?_⟩
  have hcode : (Outline.codeBytes wide items).length = Layout.stop wide items items.length := by
    refine Outline.length_codeBytes wide fun item hi => ?_
    exact Outline.noTemp_settled (noTemp_outline (noTemp_of_checkLabels hlabels)) _
      (hn ▸ List.mem_map_of_mem hi)
  have hsize32 : Layout.stop wide items items.length < 2 ^ 32 := by omega
  rw [List.append_assoc]
  refine inStep_after (reads_u16 _) (inStep_after (reads_u16 _) ?_)
  refine inStep_after (reads_u32_of_lt hsize32) ?_
  rw [UInt32.toNat_ofNat_of_lt' hsize32, if_neg (by unfold CodeBody.maxSize; omega)]
  refine inStep_bind (inStep_within hcode fun c => ?_) fun insns => (htables _ _ insns).inStep
  exact (CodeBody.tolerates_sweep p _ c).mono hq

omit hq in
theorem inStep_readRest {m : Method} {p : Pool} {bs : List UInt8} (flag : UInt8)
    (hdesc : Yields q (methodShape m.desc) fun _ => True)
    (h : InStep q (if flag = 0 then pure m.declared else m.declared.readBody p) bs) :
    InStep q (m.readRest p) (flag :: bs) :=
  inStep_check hdesc fun _ => inStep_after (reads_u8 flag) h

/-- A method that was written is taken in step, or its descriptor is at fault. -/
theorem builds_encode_inStep {m : Method} (hdesc : Yields q (methodShape m.desc) fun _ => True) :
    Builds m.encode fun p bytes => InStep q (Method.read p) bytes := by
  by_cases hempty : m.code.isEmpty
  · rw [encode_of_empty hempty]
    refine builds_bind m.builds_encodeHead fun head => builds_pure fun p hhead => ?_
    exact hhead.inStep (inStep_readRest 0 hdesc (inStep_pure _))
  · rw [encode_of_nonempty hempty]
    refine builds_bind m.builds_encodeHead fun head => ?_
    refine builds_bind (m.builds_encodeBody_inStep hq) fun body => builds_pure fun p hbody hhead => ?_
    apply hhead.inStep (inStep_readRest 1 hdesc _)
    exact inStep_last (hbody _) fun b => inStep_check (b.other_check.mono hq) fun _ => inStep_pure _

end Method

omit hq in
/-- A field that was written is taken in step, or its descriptor is at fault. -/
theorem Field.builds_encode_inStep {f : Field} (hdesc : Yields q (fieldWidth f.desc) fun _ => True) :
    Builds f.encode fun p bytes => InStep q (Field.read p) bytes := by
  refine f.builds_parts.imp fun p bytes hbytes => ?_
  obtain ⟨head, value, rfl, hhead, hvalue⟩ := hbytes
  exact hhead.inStep (inStep_check hdesc fun _ => hvalue.inStep)

namespace Class

theorem builds_encodeBody_inStep {c : Class}
    (hfields : ∀ f ∈ c.fields, Yields q (fieldWidth f.desc) fun _ => True)
    (hmethods : ∀ m ∈ c.methods, Yields q (methodShape m.desc) fun _ => True) :
    Builds c.encodeBody fun p bytes =>
      ∀ major minor, InStep q (readMembers major minor p) bytes := by
  have hparts := builds_parts (fun f hf => Field.builds_encode_inStep (hfields f hf))
    fun m hm => Method.builds_encode_inStep hq (hmethods m hm)
  refine hparts.imp fun p bytes hbytes major minor => ?_
  obtain ⟨head, fs, ms, rfl, hhead, hfcount, hf, hmcount, hm⟩ := hbytes
  apply (hhead major minor).inStep
  apply inStep_bind (inStep_counted hfcount hf)
  intro fields
  exact inStep_last (inStep_counted hmcount hm) fun methods => inStep_pure _

/-- What was written is refused for no fault but those that `q` allows. -/
theorem fault_of_decode {c : Class}
    (hfields : ∀ f ∈ c.fields, Yields q (fieldWidth f.desc) fun _ => True)
    (hmethods : ∀ m ∈ c.methods, Yields q (methodShape m.desc) fun _ => True)
    {bytes : List UInt8} (he : c.encode = .ok bytes) : Yields q (decode bytes) fun _ => True := by
  obtain ⟨_, _, body, b, hbody, rfl⟩ := encode_ok.1 he
  obtain ⟨hv, hbuilt⟩ := builds_encodeBody_inStep hq hfields hmethods {} body b valid_empty hbody
  obtain ⟨_, hmembers⟩ := hbuilt ⟨b.entries⟩ fun k e hk => hk
  have hheader : InStep q readHeader
      (bytesOf 4 Fault.magic ++ (wordBytes c.major ++ wordBytes c.minor)) := by
    refine inStep_after (reads_u32_of_lt (by decide)) ?_
    rw [if_neg (by decide)]
    refine inStep_after (reads_u16 c.major) (inStep_last (reads_u16 c.minor).inStep fun minor => ?_)
    split
    · exact fun _ _ => hq _ nofun
    · exact inStep_pure _
  have hread : InStep q read (bytesOf 4 Fault.magic ++ (wordBytes c.major ++ wordBytes c.minor) ++
      (b.bytes ++ body)) := by
    exact inStep_bind hheader fun v => inStep_after (Pool.reads_read hv) (hmembers v.1 v.2)
  have hrun := hread [] 0
  simp only [List.append_nil, List.append_assoc] at hrun ⊢
  refine Yields.bind hrun ?_
  rintro ⟨d, last⟩ _
  dsimp only
  split
  · trivial
  · exact hq _ nofun

end Class

end

end ClassPatch
