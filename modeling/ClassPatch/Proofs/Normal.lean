-- Normal forms. What was read and written again reads and writes as itself,
-- but for the stack limits: they are computed before empty ranges are dropped
-- and sparse switches are sorted, and a body may turn out to have no code.
import ClassPatch.Proofs.RoundTrip

namespace ClassPatch

/-! ## Decoded classes -/

namespace CodeBody

theorem proper_nodes {b : CodeBody} (h : b.Sound) : ∀ i ∈ b.nodes, i.Proper := by
  intro i hi
  rcases mem_nodes hi with hp | ⟨j, hj, rfl⟩
  · cases i <;> trivial
  · exact Outline.proper_mapLabels.2 (h.legible j hj).proper

theorem countP_nodes {b : CodeBody} (h : b.Sound) :
    b.nodes.countP Insn.isReal = b.insns.length := by
  rw [nodes, List.countP_append, countP_markerAt, countP_blocks fun i hi => (h.legible i hi).real]
  rfl

/-- What a resolved branch leads to is an instruction. -/
theorem branches_nodes {b : CodeBody} (h : b.Sound) : ∀ i ∈ b.nodes, ∀ l ∈ i.targets,
    realIndex b.nodes l < b.nodes.countP Insn.isReal := by
  intro i hi l hl
  rcases mem_nodes hi with hp | ⟨j, hj, rfl⟩
  · rw [Insn.targets_of_pseudo hp] at hl
    cases hl
  · rw [Insn.targets_mapLabels] at hl
    obtain ⟨t, ht, rfl⟩ := List.mem_map.1 hl
    obtain ⟨r, hr⟩ := List.getElem?_of_mem (h.branches j hj t ht).2
    have hlt := (List.getElem?_eq_some_iff.1 hr).1
    have hstop : b.stops[r]? = some t.toNat := by
      unfold stops
      rw [List.getElem?_append_left hlt, hr]
    have hnamed : t.toNat ∈ b.named :=
      List.mem_append_left _ (List.mem_append_left _
        (List.mem_flatMap.2 ⟨j, hj, List.mem_map_of_mem ht⟩))
    rw [realIndex_labelAt h hstop hnamed, countP_nodes h]
    rwa [List.length_map] at hlt

end CodeBody

theorem Method.Decoded.wellFormed {m : Method} (h : m.Decoded) : m.WellFormed := by
  obtain ⟨hdesc, hbody⟩ := h
  rcases hbody with ⟨hc, _⟩ | ⟨b, hb, hc, _⟩
  · exact (Method.wellFormed_iff_of_empty (by rw [hc]; rfl)).1 ⟨methodShape_ok.2 hdesc, trivial⟩
  · have hnodes : m.code.toList = b.nodes := by rw [hc, CodeBody.toList_resolve hb]
    refine ⟨hdesc, ?_, ?_⟩
    · unfold Method.Proper
      rw [hnodes]
      exact CodeBody.proper_nodes hb
    · rw [hnodes]
      exact CodeBody.branches_nodes hb

theorem Class.Decoded.wellFormed {c : Class} (h : c.Decoded) : c.WellFormed :=
  ⟨h.major, h.fields, fun m hm => (h.methods m hm).wellFormed⟩

/-! ## Limits of locals -/

namespace Outline

/-- The first slot past every slot that the instructions use. -/
def frontier (o : Outline) : UInt16 :=
  greatest ((Code.slotAccesses o.insns).map fun a => advance a.1 a.2)

/-- The first slot past every slot that the debug entries name. -/
def reach (o : Outline) : UInt16 := greatest (o.locals.map fun v => advance v.slot v.width)

theorem frontier_settled (o : Outline) : o.settled.frontier = o.frontier := by
  have haccess : ∀ i : Node, i.sortKeys.access? = i.access? := fun i => by cases i <;> rfl
  have haccesses : Code.accesses o.settled.insns = Code.accesses o.insns := by
    unfold Code.accesses settled
    rw [List.filterMap_map]
    exact List.filterMap_congr fun i _ => haccess i
  unfold frontier Code.slotAccesses
  rw [haccesses]

theorem reach_settled (o : Outline) : o.settled.reach.toNat ≤ o.reach.toNat := by
  refine greatest_le.2 (List.forall_mem_map.2 fun v hv => ?_)
  exact greatest_le.1 (Nat.le_refl _) _ (List.mem_map_of_mem (List.mem_of_mem_filter hv))

end Outline

namespace Method

theorem frontier_outline (m : Method) : m.outline.frontier = m.code.frontier := by
  have haccess : ∀ i : Node, ¬i.isReal → i.access? = none := fun i hi => by
    cases i <;> first | rfl | exact absurd rfl hi
  have haccesses : Code.accesses m.outline.insns = Code.accesses m.code.toList := by
    unfold Code.accesses outline realNodes
    rw [List.filterMap_map, List.filterMap_filter]
    refine List.filterMap_congr fun i _ => ?_
    split
    · exact Insn.access?_mapLabels ..
    · rename_i hi
      exact (haccess i hi).symm
  unfold Outline.frontier Code.frontier Code.slotAccesses
  rw [haccesses]

theorem reach_outline (m : Method) :
    m.outline.reach = greatest (m.locals.map fun v => advance v.slot v.width) := by
  unfold Outline.reach outline
  rw [List.map_map]
  rfl

theorem neededLocals_eq (m : Method) : m.neededLocals =
    max (max (max m.knownParams m.outline.frontier) m.outline.reach) m.maxLocals := by
  rw [frontier_outline, reach_outline]
  rfl

/-- What was written for a method asks for no more locals than the method did. -/
theorem Recovered.neededLocals {m d : Method} (h : m.Recovered d) (hne : ¬m.code.isEmpty) :
    d.neededLocals = m.neededLocals := by
  have hparams : d.knownParams = m.knownParams := by
    unfold knownParams paramSlots isStatic
    rw [h.desc, h.access]
  have hreach := m.outline.reach_settled
  have hmax := h.maxLocals hne
  rw [d.neededLocals_eq, h.outline hne, hparams, Outline.frontier_settled, hmax, m.neededLocals_eq]
  refine UInt16.toNat_inj.1 ?_
  simp only [toNat_max]
  omega

end Method

/-! ## Methods written again -/

theorem Outline.Settled.eq {o : Outline} (h : o.Settled) : o.settled = o := by
  have hinsns : o.insns.map Insn.sortKeys = o.insns :=
    (List.map_congr_left h.keys).trans (List.map_id _)
  have hhandlers : o.handlers.filter (fun g => g.start < g.stop) = o.handlers :=
    List.filter_eq_self.2 fun g hg => decide_eq_true (h.ranges g hg)
  have hlocals : o.locals.filter (fun v => v.start ≤ v.stop) = o.locals :=
    List.filter_eq_self.2 fun v hv => decide_eq_true (h.locals v hv)
  have hlines : o.lines.filter (fun l => l.1 < o.insns.length) = o.lines :=
    List.filter_eq_self.2 fun l hl => decide_eq_true (h.lines l hl)
  unfold settled
  rw [hinsns, hhandlers, hlocals, hlines]

/-- The stack limit that is written, none for code that has no nodes. -/
def Code.stack? (c : Code) : Option UInt16 := if c.isEmpty then none else some c.maxStack

theorem Outline.stack?_nil : (⟨[], [], [], []⟩ : Outline).rebuilt.resolve.1.stack? = none := by
  have hnodes : (⟨[], [], [], []⟩ : Outline).rebuilt.nodes = [] := by
    simp [CodeBody.nodes, CodeBody.markerAt, CodeBody.labelTable, CodeBody.places, CodeBody.named,
      rebuilt, body]
  rw [code_resolve, hnodes]
  rfl

theorem wordBytes_inj {a b : UInt16} : wordBytes a = wordBytes b ↔ a = b := by
  refine ⟨fun h => ?_, fun h => h ▸ rfl⟩
  have hn := congrArg Reader.bigEndian h
  have hlt : ∀ n : UInt16, n.toNat < 256 ^ 2 := fun n => n.toNat_lt
  unfold wordBytes at hn
  rw [Reader.bigEndian_bytesOf, Reader.bigEndian_bytesOf, Nat.mod_eq_of_lt (hlt a),
    Nat.mod_eq_of_lt (hlt b)] at hn
  exact UInt16.toNat_inj.1 hn

/-- Nothing is asked of the pool for an outline that has nothing. -/
theorem Outline.Writes.eq_of_nil {b b' : PoolBuilder} {bytes : List UInt8}
    (h : (⟨[], [], [], []⟩ : Outline).Writes b b' bytes) : b' = b := by
  obtain ⟨items, b₁, wide, hitems, _, _, hfinish⟩ := h
  obtain ⟨rfl, rfl⟩ := PoolBuilder.pure_ok.1 hitems
  exact (PoolBuilder.pure_ok.1 hfinish).2

namespace Method
open PoolBuilder

/-- The code that is read back computes to the same stack limit, and still
has nodes. -/
def Stable (m : Method) : Prop :=
  m.code.isEmpty ∨ m.outline.settled.rebuilt.resolve.1.stack? = m.code.stack?

/-- Code that is all markers and lines is not stable: it is written with a body
without instructions, and what is read of that is written without a body. -/
theorem not_stable_of_pseudo {m : Method} (h : ¬m.code.isEmpty)
    (hn : ∀ i ∈ m.code.toList, ¬i.isReal) (hl : m.locals = []) : ¬m.Stable := by
  have hcount : m.code.toList.countP Insn.isReal = 0 := List.countP_eq_zero.2 hn
  have hinsns : m.outline.insns = [] := List.length_eq_zero_iff.1 (m.length_outline.trans hcount)
  have hhandlers : m.outline.handlers.filter (fun g => g.start < g.stop) = [] := by
    refine List.filter_eq_nil_iff.2 fun g hg => ?_
    have := m.bounded_outline.ranges g hg g.stop (by simp [Handler.labels])
    rw [hinsns] at this
    simpa using Nat.le_trans this (Nat.zero_le _)
  have hlocals : m.outline.locals = [] := by
    unfold outline
    rw [hl]
    rfl
  have hsettled : m.outline.settled = ⟨[], [], [], []⟩ := by
    unfold Outline.settled
    rw [hhandlers, hlocals, hinsns]
    simp
  unfold Stable
  rw [hsettled]
  rintro (hempty | hstack)
  · exact h hempty
  · have hsome : m.code.stack? = some m.code.maxStack := if_neg h
    rw [hsome] at hstack
    rw [Outline.stack?_nil] at hstack
    cases hstack

/-- A linked method without nodes names nothing. -/
theorem outline_of_empty {m : Method} (h : m.Linked) (hempty : m.code.isEmpty) :
    m.outline = ⟨[], [], [], []⟩ := by
  have hnodes := Code.toList_of_isEmpty hempty
  have hhandlers : m.code.handlers.toList = [] := by
    refine List.eq_nil_iff_forall_not_mem.2 fun g hg => ?_
    have := h.code.ranges g hg g.start (List.mem_cons_self ..)
    rw [hnodes] at this
    cases this
  have hlocals : m.locals = [] := by
    refine List.eq_nil_iff_forall_not_mem.2 fun v hv => ?_
    have := (h.locals v hv).1
    rw [hnodes] at this
    cases this
  unfold outline
  rw [hnodes, hhandlers, hlocals]
  rfl

/-- What was read for a method is written like the method, but for its limits;
if it has no code any more it is written shorter. -/
theorem Recovered.encode {m d : Method} (h : m.Recovered d) {b b' : PoolBuilder}
    {bytes : List UInt8} (he : m.encode b = .ok (bytes, b')) :
    ∃ again, d.encode b = .ok (again, b') ∧ again.length ≤ bytes.length ∧
      (again = bytes ↔ m.Stable) := by
  have hhead : d.encodeHead = m.encodeHead := by
    unfold encodeHead
    rw [h.access, h.name, h.desc, h.exceptions]
  by_cases hempty : m.code.isEmpty
  · have hd : d.code.isEmpty := by
      rw [(h.bodiless hempty).1]
      rfl
    refine ⟨bytes, ?_, Nat.le_refl _, iff_of_true rfl (.inl hempty)⟩
    rw [encode_of_empty hd, hhead, ← encode_of_empty hempty, he]
  · rw [encode_of_nonempty hempty] at he
    obtain ⟨head, b₁, hm, he⟩ := bind_ok.1 he
    obtain ⟨body, b₂, hbody, he⟩ := bind_ok.1 he
    obtain ⟨rfl, rfl⟩ := pure_ok.1 he
    obtain ⟨_, rest, hwrites, rfl⟩ := writes_of_encodeBody hbody
    have hagain := hwrites.settled m.bounded_outline
    rw [← h.outline hempty] at hagain
    have hstable : m.Stable ↔ d.code.stack? = m.code.stack? := by
      unfold Stable
      rw [← congrArg Prod.fst (h.body hempty)]
      exact or_iff_right hempty
    have hstack : m.code.stack? = some m.code.maxStack := if_neg hempty
    by_cases hgone : d.code.isEmpty
    · rw [outline_of_empty h.linked hgone] at hagain
      obtain rfl := hagain.eq_of_nil
      refine ⟨head ++ [0], ?_, ?_, ?_⟩
      · rw [encode_of_empty hgone, hhead]
        exact bind_ok.2 ⟨head, _, hm, rfl⟩
      · simp only [List.length_append, List.length_cons, List.length_nil]
        omega
      · have hnone : d.code.stack? = none := if_pos hgone
        rw [hstable, hstack, hnone]
        simp
    · have hbody := encodeBody_of_writes (checkLabels_of_linked h.linked) hagain
      refine ⟨head ++ 1 :: (wordBytes d.code.maxStack ++ wordBytes d.neededLocals ++ rest),
        ?_, ?_, ?_⟩
      · rw [encode_of_nonempty hgone, hhead]
        exact bind_ok.2 ⟨head, _, hm, bind_ok.2 ⟨_, _, hbody, rfl⟩⟩
      · simp only [List.length_append, List.length_cons, wordBytes, Reader.length_bytesOf]
        exact Nat.le_refl _
      · have hsome : d.code.stack? = some d.code.maxStack := if_neg hgone
        rw [hstable, hstack, hsome, h.neededLocals hempty]
        simp [wordBytes_inj]

/-- Code that was read is made from its outline alone, so it stays as it is. -/
theorem Recovered.stable {m d : Method} (h : m.Recovered d) : d.Stable := by
  by_cases hempty : m.code.isEmpty
  · left
    rw [(h.bodiless hempty).1]
    rfl
  · right
    rw [h.outline hempty, m.outline.settled_settled.eq, ← congrArg Prod.fst (h.body hempty)]

/-- The same of a row of methods. -/
theorem encode_recovered {ms ds : List Method} (h : List.Forall₂ Recovered ms ds)
    {b b' : PoolBuilder} {bss : List (List UInt8)} (he : ms.mapM encode b = .ok (bss, b')) :
    ∃ again, ds.mapM encode b = .ok (again, b') ∧ again.flatten.length ≤ bss.flatten.length ∧
      (again.flatten = bss.flatten ↔ ∀ m ∈ ms, m.Stable) := by
  induction h generalizing b bss with
  | nil =>
    obtain ⟨rfl, rfl⟩ := pure_ok.1 he
    exact ⟨[], rfl, Nat.le_refl _, iff_of_true rfl nofun⟩
  | cons hd _ ih =>
    rw [List.mapM_cons] at he
    obtain ⟨bytes, b₁, hbytes, he⟩ := bind_ok.1 he
    obtain ⟨rest, b₂, hrest, he⟩ := bind_ok.1 he
    obtain ⟨rfl, rfl⟩ := pure_ok.1 he
    obtain ⟨again, hagain, hle, heq⟩ := hd.encode hbytes
    obtain ⟨others, hothers, hles, heqs⟩ := ih hrest
    refine ⟨again :: others, ?_, ?_, ?_⟩
    · rw [List.mapM_cons]
      exact bind_ok.2 ⟨_, _, hagain, bind_ok.2 ⟨_, _, hothers, rfl⟩⟩
    · simp only [List.flatten_cons, List.length_append]
      omega
    · rw [List.forall_mem_cons, ← heq, ← heqs, List.flatten_cons, List.flatten_cons]
      constructor
      · intro hall
        have hlen := congrArg List.length hall
        simp only [List.length_append] at hlen
        exact List.append_inj hall (by omega)
      · rintro ⟨rfl, hall⟩
        rw [hall]

end Method

namespace Method

theorem stable_of_recovered {ms ds : List Method} (h : List.Forall₂ Recovered ms ds) :
    ∀ d ∈ ds, d.Stable := by
  induction h with
  | nil => exact nofun
  | cons hd _ ih => exact List.forall_mem_cons.2 ⟨hd.stable, ih⟩

end Method

/-! ## Classes written again -/

namespace Class
open PoolBuilder

/-- What is written before the methods. -/
def encodeFront (c : Class) : Builder (List UInt8) := do
  let name ← className c.name
  let superName ← className? c.superName
  let interfaceCount ← countBytes c.interfaces.length "interfaces"
  let interfaces ← c.interfaces.mapM className
  let fieldCount ← countBytes c.fields.length "fields"
  let fields ← c.fields.mapM Field.encode
  return wordBytes c.access ++ wordBytes name ++ wordBytes superName
    ++ interfaceCount ++ interfaces.flatMap wordBytes ++ fieldCount ++ fields.flatten

theorem encodeBody_eq (c : Class) : c.encodeBody = do
    let front ← c.encodeFront
    let count ← countBytes c.methods.length "methods"
    let methods ← c.methods.mapM Method.encode
    return front ++ count ++ methods.flatten := by
  unfold encodeBody encodeFront
  simp only [bind_assoc, pure_bind]

theorem members_recovered {ms ds : List Method} (h : List.Forall₂ Method.Recovered ms ds) :
    ds.map (fun m => (m.name, m.desc)) = ms.map fun m => (m.name, m.desc) := by
  induction h with
  | nil => rfl
  | cons hd _ ih => rw [List.map_cons, List.map_cons, ih, hd.name, hd.desc]

/-- A class that was read is written like the one that it was written for, but
for the limits of methods that are not stable. -/
theorem encode_recovered {c : Class} {ds : List Method} {bytes : List UInt8}
    (h : List.Forall₂ Method.Recovered c.methods ds) (he : c.encode = .ok bytes) :
    ∃ again, ({ c with methods := ds } : Class).encode = .ok again ∧
      (again = bytes ↔ ∀ m ∈ c.methods, m.Stable) := by
  obtain ⟨hfields, hmethods, body, b, hbody, rfl⟩ := encode_ok.1 he
  rw [encodeBody_eq] at hbody
  obtain ⟨front, b₁, hfront, hbody⟩ := bind_ok.1 hbody
  obtain ⟨count, b₂, hcount, hbody⟩ := bind_ok.1 hbody
  obtain ⟨bss, b₃, hbss, hbody⟩ := bind_ok.1 hbody
  obtain ⟨rfl, rfl⟩ := pure_ok.1 hbody
  obtain ⟨again, hagain, -, heq⟩ := Method.encode_recovered h hbss
  have hunique := members_recovered h
  refine ⟨_, encode_ok.2
    ⟨hfields, hunique ▸ hmethods, front ++ count ++ again.flatten, b, ?_, rfl⟩, ?_⟩
  · rw [encodeBody_eq]
    refine bind_ok.2 ⟨front, b₁, hfront, ?_⟩
    refine bind_ok.2 ⟨count, b₂, ?_, bind_ok.2 ⟨again, b, hagain, rfl⟩⟩
    exact h.length_eq ▸ hcount
  · rw [List.append_cancel_left_eq, List.append_cancel_left_eq, heq]

/-- Reading and writing again comes to rest after one more time, and has come
to rest already if and only if every method is stable. -/
theorem encode_again {c d : Class} {bytes : List UInt8} (h : c.Proper) (he : c.encode = .ok bytes)
    (hd : decode bytes = .ok d) :
    ∃ again, d.encode = .ok again ∧ normalize again = .ok again ∧
      (again = bytes ↔ ∀ m ∈ c.methods, m.Stable) := by
  obtain ⟨ds, hds, hread⟩ := reads_encode (wellFormed_of_decode h he hd) he
  obtain rfl := Except.ok.inj ((decode_of_reads hread).symm.trans hd)
  obtain ⟨again, hagain, heq⟩ := encode_recovered hds he
  refine ⟨again, hagain, ?_, heq⟩
  -- The methods that were read are stable, so the next time changes nothing.
  obtain ⟨es, hes, hread'⟩ := reads_encode (decoded_of_decode hd).wellFormed hagain
  obtain ⟨last, hlast, hrest⟩ := encode_recovered hes hagain
  have hsame : last = again := hrest.2 (Method.stable_of_recovered hds)
  unfold normalize
  rw [decode_of_reads hread']
  exact hsame ▸ hlast

/-- Normalizing twice gives a fixed point, and normalizing once gives one if
and only if every method is stable. -/
theorem normalize_again {c : Class} {bytes canonical : List UInt8} (hc : decode bytes = .ok c)
    (hn : normalize bytes = .ok canonical) :
    ∃ again, normalize canonical = .ok again ∧ normalize again = .ok again ∧
      (again = canonical ↔ ∀ m ∈ c.methods, m.Stable) := by
  have hw := (decoded_of_decode hc).wellFormed
  have he : c.encode = .ok canonical := by
    unfold normalize at hn
    rw [hc] at hn
    exact hn
  obtain ⟨ds, _, hread⟩ := reads_encode hw he
  have hd := decode_of_reads hread
  obtain ⟨again, hagain, hrest⟩ := encode_again hw.isProper he hd
  refine ⟨again, ?_, hrest⟩
  unfold normalize
  rw [hd]
  exact hagain

/-- Bytes that were normalized, or written for a class, are their own normal
form if and only if every method is stable; the next time they always are. -/
theorem normalize_fixed_iff (bytes canonical : List UInt8) (c d : Class) :
    (decode bytes = .ok c → normalize bytes = .ok canonical →
      ∃ again, normalize canonical = .ok again ∧ normalize again = .ok again ∧
        (again = canonical ↔ ∀ m ∈ c.methods, m.Stable)) ∧
    (c.Proper → c.encode = .ok canonical → decode canonical = .ok d →
      ∃ again, d.encode = .ok again ∧ normalize again = .ok again ∧
        (again = canonical ↔ ∀ m ∈ c.methods, m.Stable)) :=
  ⟨normalize_again, encode_again⟩

end Class

/-! ## Classes of one name -/

open Reader

/-- A static method "m" without parameters that has the body. -/
def CodeBody.alone (b : CodeBody) : Method where
  access := 9
  name := "m"
  desc := "()V"
  maxStack := b.maxStack
  maxLocals := b.maxLocals
  code := b.resolve.1
  locals := b.resolve.2

theorem CodeBody.Sound.reads_alone {b : CodeBody} (h : b.Sound) {pool : Pool}
    (hm : pool.utf8 3 = .ok "m") (hd : pool.utf8 4 = .ok "()V") {bytes : List UInt8}
    (hb : Reads (read pool "m()V") bytes b) :
    Reads (Method.read pool) ([0, 9, 0, 3, 0, 4, 0, 0, 1] ++ bytes) b.alone := by
  obtain ⟨shape, hshape⟩ : ∃ shape, methodShape "()V" = .ok shape :=
    methodShape_ok.2 (by decide +kernel)
  have hcheck := reads_lift (CodeBody.check_of_sound h)
  apply Reads.congr
  · apply reads_bind (reads_u16 9)
    apply reads_bind (reads_u16 3)
    apply reads_after (reads_lift hm)
    apply reads_bind (reads_u16 4)
    apply reads_after (reads_lift hd)
    apply reads_after (reads_lift hshape)
    apply reads_bind (reads_counted (by decide) .nil)
    apply reads_head 1
    exact reads_map hb (reads_after hcheck (reads_pure _))
  · rfl

/-- A class "A" without a super class, interfaces and fields. -/
theorem Class.decode_named {b : PoolBuilder} (hb : b.Valid)
    (hname : (⟨b.entries⟩ : Pool).className 2 = .ok "A") {bytes : List UInt8} {ms : List Method}
    (h : Reads (counted (Method.read ⟨b.entries⟩)) bytes ms) :
    decode ([71, 82, 70, 84, 0, 1, 0, 0] ++ (b.bytes ++ ([0, 1, 0, 2, 0, 0, 0, 0, 0, 0] ++ bytes))) =
      .ok { name := "A", methods := ms } := by
  have hnone : (⟨b.entries⟩ : Pool).className? 0 = .ok none := rfl
  refine decode_of_reads ?_
  apply reads_bind ((accepts_readHeader 1 0).reads (by decide))
  apply reads_bind (Pool.reads_read hb)
  apply Reads.congr
  · apply reads_bind (reads_u16 1)
    apply reads_bind (reads_u16 2)
    apply reads_after (reads_lift hname)
    apply reads_bind (reads_u16 0)
    apply reads_after (reads_lift hnone)
    apply reads_bind (reads_counted (by decide) .nil)
    apply reads_bind (reads_counted (by decide) .nil)
    exact reads_map h (reads_pure _)
  · rfl

/-! ## A body without instructions -/

/-- A body without instructions that still protects them. -/
def CodeBody.hollow : CodeBody where
  maxStack := 0
  maxLocals := 0
  size := 0
  insns := []
  ranges := [⟨0, 0, 0, none⟩]
  locals := []
  lines := []

def Method.hollow : Method where
  access := 9
  name := "m"
  desc := "()V"
  code := CodeBody.hollow.resolve.1

def Class.hollow : Class where
  name := "A"
  methods := [.hollow]

/-- The pool of the bytes below. -/
def hollowPool : Pool := ⟨#[.utf8 "A", .classRef 1, .utf8 "m", .utf8 "()V"]⟩

/-- The bytes of a class "A" up to the count of its methods. -/
def hollowHead : List UInt8 :=
  [71, 82, 70, 84, 0, 1, 0, 0, 0, 5, 1, 0, 1, 65, 7, 0, 1, 1, 0, 1, 109, 1, 0, 3, 40, 41, 86,
   0, 1, 0, 2, 0, 0, 0, 0, 0, 0]

/-- The bytes of a method "m" whose body has no instructions. -/
def hollowMethod : List UInt8 :=
  [0, 9, 0, 3, 0, 4, 0, 0, 1, 0, 0, 0, 0, 0, 0, 0, 0, 0, 1, 0, 0, 0, 0, 0, 0, 0, 0, 0, 0, 0, 0]

/-- The bytes of a class "A" whose method "m" has a body without instructions. -/
def hollowBytes : List UInt8 := hollowHead ++ 0 :: 1 :: hollowMethod

theorem CodeBody.sound_hollow : CodeBody.hollow.Sound := by
  have hnone : ∀ {α : Type} {p : α → Prop}, ∀ x ∈ ([] : List α), p x := fun x hx => nomatch hx
  refine ⟨hnone, .nil, hnone, hnone, ?_, hnone, hnone⟩
  intro r hr p hp
  cases List.mem_singleton.1 hr
  have : p = 0 := by simpa using hp
  rw [this]
  exact List.mem_singleton_self 0

/-- A range under a handler for everything, by its three positions. -/
theorem CodeBody.reads_catchAll {pool : Pool} (hnone : pool.className? 0 = .ok none)
    (start stop target : UInt16) : Reads (readRange pool)
      (bytesOf 2 start.toNat ++ (bytesOf 2 stop.toNat ++ (bytesOf 2 target.toNat ++ bytesOf 2 0)))
      ⟨start.toNat, stop.toNat, target.toNat, none⟩ := by
  apply reads_bind (reads_u16 start)
  apply reads_bind (reads_u16 stop)
  apply reads_bind (reads_u16 target)
  exact reads_map (reads_u16 0) (reads_after (reads_lift hnone) (reads_pure _))

theorem CodeBody.reads_hollow : Reads (read hollowPool "m()V")
    [0, 0, 0, 0, 0, 0, 0, 0, 0, 1, 0, 0, 0, 0, 0, 0, 0, 0, 0, 0, 0, 0] hollow := by
  apply Reads.congr
  · apply reads_bind (reads_u16 0)
    apply reads_bind (reads_u16 0)
    apply reads_bind (reads_u32 0)
    rw [if_neg (by decide)]
    apply reads_after (reads_sweep (.nil 0) rfl)
    apply reads_bind (reads_counted (by decide) (.cons (reads_catchAll rfl 0 0 0) .nil))
    apply reads_bind (reads_counted (by decide) .nil)
    exact reads_map (reads_counted (by decide) .nil) (reads_pure _)
  · rfl

theorem Method.reads_hollow : Reads (read hollowPool) hollowMethod hollow :=
  CodeBody.sound_hollow.reads_alone rfl rfl CodeBody.reads_hollow

theorem forall₂_replicate {α β : Type} {r : α → β → Prop} {a : α} {b : β} (h : r a b) (n : Nat) :
    List.Forall₂ r (List.replicate n a) (List.replicate n b) := by
  induction n with
  | zero => exact .nil
  | succ n ih => exact .cons h ih

/-- A class "A" of the methods that are read behind the head. -/
theorem Class.decode_hollowHead {bytes : List UInt8} {ms : List Method}
    (h : Reads (counted (Method.read hollowPool)) bytes ms) :
    decode (hollowHead ++ bytes) = .ok { name := "A", methods := ms } := by
  have hv : (⟨hollowPool.entries, ∅⟩ : PoolBuilder).Valid := by
    refine ⟨by simp, by decide, ?_⟩
    intro s hs
    simp [hollowPool] at hs
    rcases hs with rfl | rfl | rfl <;> decide
  exact decode_named hv rfl h

/-- The class with the method any number of times. -/
theorem Class.decode_hollows {n : Nat} (hn : n < 65536) :
    decode (hollowHead ++ (bytesOf 2 n ++ (List.replicate n hollowMethod).flatten)) =
      .ok { hollow with methods := List.replicate n .hollow } := by
  have hcount := List.length_replicate (n := n) (a := hollowMethod)
  have hmethods := reads_counted (by omega) (forall₂_replicate Method.reads_hollow n)
  rw [hcount] at hmethods
  exact decode_hollowHead hmethods

theorem Class.decode_hollow : decode hollowBytes = .ok hollow := decode_hollows (n := 1) (by decide)

namespace Method

theorem linked_hollow : hollow.Linked := CodeBody.linked_resolve CodeBody.sound_hollow rfl rfl

theorem nonempty_hollow : ¬hollow.code.isEmpty := by
  intro h
  have hmem := linked_hollow.code.ranges _ (List.mem_singleton_self _) _ (List.mem_cons_self ..)
  rw [Code.toList_of_isEmpty h] at hmem
  cases hmem

theorem toList_hollow : hollow.code.toList = CodeBody.markerAt CodeBody.hollow.labelTable 0 :=
  CodeBody.toList_resolve CodeBody.sound_hollow

theorem pseudo_hollow : ∀ i ∈ hollow.code.toList, ¬i.isReal := by
  rw [toList_hollow]
  exact List.countP_eq_zero.1 (CodeBody.countP_markerAt 0)

theorem outline_hollow : hollow.outline = ⟨[], [⟨0, 0, 0, none⟩], [], []⟩ := by
  have hindex : realIndex hollow.code.toList = fun _ => 0 := by
    funext l
    have := realIndex_le hollow.code.toList l
    rw [List.countP_eq_zero.2 pseudo_hollow] at this
    exact Nat.le_zero.1 this
  have hnodes : realNodes hollow.code.toList = [] := List.filter_eq_nil_iff.2 pseudo_hollow
  have hlines : lineMarks 0 hollow.code.toList = [] := by
    rw [toList_hollow]
    unfold CodeBody.markerAt
    split <;> rfl
  unfold outline
  rw [hindex, hnodes, hlines]
  rfl

theorem encodeBody_hollow (b : PoolBuilder) : ∃ bytes, hollow.encodeBody b = .ok (bytes, b) := by
  have hwrites : ∃ rest, hollow.outline.Writes b b rest := by
    rw [outline_hollow]
    refine ⟨_, [], b, fun _ => false, rfl, .done ⟨by decide, fun k item hk => ?_⟩ rfl,
      fun i hi => ?_, rfl⟩
    · cases hk
    · cases hi
  obtain ⟨rest, hrest⟩ := hwrites
  exact ⟨_, encodeBody_of_writes (checkLabels_of_linked linked_hollow) hrest⟩

end Method


namespace Class

theorem encode_hollow : ∃ canonical, hollow.encode = .ok canonical :=
  encode_single rfl rfl rfl Method.nonempty_hollow Method.encodeBody_hollow

theorem normalize_hollowBytes {canonical : List UInt8} (h : hollow.encode = .ok canonical) :
    normalize hollowBytes = .ok canonical := by
  unfold normalize
  rw [decode_hollow]
  exact h

theorem normalize_fixed_iff_hollow :
    (∃ canonical again, decode hollowBytes = .ok hollow ∧ normalize hollowBytes = .ok canonical ∧
      normalize canonical = .ok again ∧ normalize again = .ok again ∧
        (again = canonical ↔ ∀ m ∈ hollow.methods, m.Stable)) ∧
    ∃ canonical d again, spinner.Proper ∧ spinner.encode = .ok canonical ∧
      decode canonical = .ok d ∧ d.encode = .ok again ∧ normalize again = .ok again ∧
        (again = canonical ↔ ∀ m ∈ spinner.methods, m.Stable) := by
  constructor
  · obtain ⟨canonical, he⟩ := encode_hollow
    have hn := normalize_hollowBytes he
    obtain ⟨again, hagain⟩ := (normalize_fixed_iff hollowBytes canonical hollow hollow).1
      decode_hollow hn
    exact ⟨canonical, again, decode_hollow, hn, hagain⟩
  · obtain ⟨canonical, he⟩ := encode_spinner
    have hp := wellFormed_spinner.isProper
    obtain ⟨ds, _, hread⟩ := reads_encode wellFormed_spinner he
    have hd := decode_of_reads hread
    obtain ⟨again, hagain⟩ := (normalize_fixed_iff [] canonical spinner _).2 hp he hd
    exact ⟨canonical, _, again, hp, he, hd, hagain⟩

/-- The normal form of a body without instructions is not a fixed point. -/
theorem normalize_hollow_moves : ∃ canonical again, normalize hollowBytes = .ok canonical ∧
    normalize canonical = .ok again ∧ again ≠ canonical := by
  obtain ⟨canonical, he⟩ := encode_hollow
  have hn := normalize_hollowBytes he
  obtain ⟨again, hagain, _, heq⟩ := normalize_again decode_hollow hn
  refine ⟨canonical, again, hn, hagain, fun h => ?_⟩
  exact Method.not_stable_of_pseudo Method.nonempty_hollow Method.pseudo_hollow rfl
    (heq.1 h _ (List.mem_singleton_self _))

end Class

end ClassPatch
