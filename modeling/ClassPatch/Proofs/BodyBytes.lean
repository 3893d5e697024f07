-- The bytes of a body read back. The instructions are read one after the
-- other from the start, so each is read at the position that the layout gave
-- it, and the tables follow with the positions of their labels.
import ClassPatch.Proofs.Writing

namespace ClassPatch

/-! ## Instructions in a row -/

namespace CodeBody
open Reader

/-- Bytes that read as instructions one after the other, from a position on. -/
inductive Sweeps (pool : Pool) : Nat → List UInt8 → List (Nat × Insn Int) → Prop
  | nil (pc : Nat) : Sweeps pool pc [] []
  | cons {pc : Nat} {bs cs : List UInt8} {i : Insn Int} {is : List (Nat × Insn Int)}
    (h : Reads (Instruction.read pool pc) bs i) (hpos : 0 < bs.length)
    (rest : Sweeps pool (pc + bs.length) cs is) : Sweeps pool pc (bs ++ cs) ((pc, i) :: is)

theorem Sweeps.untilEnd {pool : Pool} {pc : Nat} {bs : List UInt8} {is : List (Nat × Insn Int)}
    (h : Sweeps pool pc bs is) (base : Nat) (read : List (Nat × Insn Int)) (fuel : Nat)
    (hf : bs.length ≤ fuel) :
    Reader.untilEnd (readInsn pool base) read fuel ⟨bs, base + pc⟩ =
      .ok (read.reverse ++ is, ⟨[], base + pc + bs.length⟩) := by
  induction h generalizing read fuel with
  | nil pc => cases fuel <;> simp [Reader.untilEnd] <;> rfl
  | @cons pc bs cs i is h hpos _ ih =>
    rw [List.length_append] at hf ⊢
    obtain _ | fuel := fuel
    · omega
    · have hne : (bs ++ cs).isEmpty = false := by
        cases bs with
        | nil => exact absurd hpos (Nat.lt_irrefl _)
        | cons b bs => rfl
      have hinsn : readInsn pool base ⟨bs ++ cs, base + pc⟩ =
          .ok ((pc, i), ⟨cs, base + pc + bs.length⟩) := by
        change (Instruction.read pool (base + pc - base) ⟨bs ++ cs, base + pc⟩).bind _ = _
        rw [Nat.add_sub_cancel_left, h]
        rfl
      have hrest := ih ((pc, i) :: read) fuel (by omega)
      rw [List.reverse_cons, List.append_assoc] at hrest
      unfold Reader.untilEnd
      change (if (bs ++ cs).isEmpty then (pure read.reverse : Reader _)
        else (readInsn pool base >>= fun i =>
          Reader.untilEnd (readInsn pool base) (i :: read) fuel))
          ⟨bs ++ cs, base + pc⟩ = _
      rw [hne, if_neg Bool.false_ne_true]
      change (readInsn pool base ⟨bs ++ cs, base + pc⟩).bind _ = _
      rw [hinsn]
      change Reader.untilEnd (readInsn pool base) ((pc, i) :: read) fuel
        ⟨cs, base + pc + bs.length⟩ = _
      rw [Nat.add_assoc base pc, hrest, ← Nat.add_assoc, ← Nat.add_assoc]
      rfl

/-- The instructions of a body read back from exactly their bytes. -/
theorem reads_sweep {pool : Pool} {size : Nat} {bs : List UInt8} {is : List (Nat × Insn Int)}
    (h : Sweeps pool 0 bs is) (hsize : bs.length = size) :
    Reads (within size (sweep pool size)) bs is := by
  refine reads_offset fun start => reads_map (reads_take hsize) ?_
  have hrun : sweep pool size ⟨bs, start⟩ = .ok (is, ⟨[], start + bs.length⟩) := by
    have := h.untilEnd start [] size (Nat.le_of_eq hsize)
    exact this
  rw [hrun]
  exact reads_pure is

/-- The reader of what follows the instructions. -/
def readTables (pool : Pool) (maxStack maxLocals : UInt16) (size : Nat)
    (insns : List (Nat × Insn Int)) : Reader CodeBody := do
  let ranges ← counted (readRange pool)
  let locals ← counted (readLocal pool)
  let lines ← counted readLine
  return { maxStack, maxLocals, size, insns, ranges, locals, lines }

end CodeBody

/-! ## Outlines as bodies -/

namespace Outline

/-- The body that an outline is, once its real indices have positions. -/
def body (maxStack maxLocals : UInt16) (stop : Nat → Nat) (o : Outline) : CodeBody where
  maxStack
  maxLocals
  size := stop o.insns.length
  insns := o.insns.zipIdx.map fun e => (stop e.2, e.1.mapLabels fun r => (stop r : Int))
  ranges := o.handlers.map fun h => ⟨stop h.start, stop h.stop, stop h.target, h.caught⟩
  locals := o.locals.map fun v => ⟨stop v.start, stop v.stop - stop v.start, v.name, v.desc, v.slot⟩
  lines := o.lines.map fun l => (stop l.1, l.2)

/-- An outline as reading gives it. -/
structure Settled (o : Outline) : Prop where
  keys : ∀ i ∈ o.insns, i.sortKeys = i
  ranges : ∀ h ∈ o.handlers, h.start < h.stop
  locals : ∀ v ∈ o.locals, v.start ≤ v.stop
  lines : ∀ l ∈ o.lines, l.1 < o.insns.length

theorem sortKeys_sortKeys {α : Type} (i : Insn α) : i.sortKeys.sortKeys = i.sortKeys := by
  cases i with
  | lookupSwitch otherwise ps => simp only [Insn.sortKeys, Instruction.sortPairs_sortPairs]
  | _ => rfl

theorem settled_settled (o : Outline) : o.settled.Settled := by
  refine ⟨?_, ?_, ?_, ?_⟩
  · exact List.forall_mem_map.2 fun i _ => sortKeys_sortKeys i
  · exact fun h hh => of_decide_eq_true (List.mem_filter.1 hh).2
  · exact fun v hv => of_decide_eq_true (List.mem_filter.1 hv).2
  · intro l hl
    have := of_decide_eq_true (List.mem_filter.1 hl).2
    rwa [settled, List.length_map]

/-- What the instructions of an outline have to be to be read back. -/
structure Writable (o : Outline) : Prop where
  proper : ∀ i ∈ o.insns, i.Proper
  slots : ∀ i ∈ o.insns, i.NoTemp

/-- Every branch leads to an instruction. -/
def Lands (o : Outline) : Prop := ∀ i ∈ o.insns, ∀ l ∈ i.targets, l < o.insns.length

end Outline

/-! ## Items -/

namespace Method
open PoolBuilder

theorem builds_operandOf {i : Node} (h : i.Proper) :
    Builds (operandOf i) fun p operand => i.Resolves p operand := by
  cases i with
  | ldc c => exact builds_constant c
  | field op m =>
    refine (builds_field m).imp fun p operand ho => ?_
    obtain ⟨owner, name, desc, interface⟩ := m
    cases h.2
    exact ho
  | method op m => exact builds_method m
  | type op name => exact (builds_className name).imp fun p operand ho => ho.2
  | _ => exact builds_pure fun _ => trivial

/-- An item can be made of any node. -/
theorem builds_itemOf_node (i : Node) : Builds (itemOf i) fun _ item => item.node = i := by
  refine builds_bind (q := fun _ _ => True) ?_ fun _ => builds_pure fun _ _ => rfl
  cases i with
  | ldc c => exact (builds_constant c).imp fun _ _ _ => trivial
  | field op m => exact (builds_field m).imp fun _ _ _ => trivial
  | method op m => exact (builds_method m).imp fun _ _ _ => trivial
  | type op name => exact (builds_className name).imp fun _ _ _ => trivial
  | _ => exact builds_pure fun _ => trivial

theorem builds_itemOf {i : Node} (h : i.Proper) :
    Builds (itemOf i) fun p item => item.node = i ∧ i.Resolves p item.operand :=
  builds_bind (builds_operandOf h) fun _ => builds_pure fun _ ho => ⟨rfl, ho⟩

theorem encodable_of_check {i : Node} (h : Instruction.check i = .ok ()) :
    Instruction.encodable i := by
  refine Decidable.byContradiction fun he => ?_
  unfold Instruction.check at h
  rw [if_neg he] at h
  dsimp only at h
  split at h
  · obtain ⟨_, _, h⟩ := bind_eq_ok.1 h
    cases h
  · cases h

end Method

/-! ## Code -/

namespace Layout
open Reader

variable {pool : Pool} {wide : Nat → Bool} {items : List Item}

/-- The bytes of items that stand one after the other reach from the first position to
the last. -/
theorem length_bytesFrom (pc k : Nat) {at_ : Nat → Nat} (f : Nat → Int)
    (hat : ∀ j ≤ items.length, (stopsFrom wide pc k items)[j]? = some (at_ (k + j)))
    (h : ∀ item ∈ items, item.node.NoTemp) :
    pc + ((items.zipIdx k).flatMap fun e =>
        Instruction.bytes (at_ e.2) e.1.operand (wide e.2) (e.1.node.mapLabels f)).length =
      at_ (k + items.length) := by
  induction items generalizing pc k with
  | nil => exact Option.some.inj (hat 0 (Nat.le_refl 0))
  | cons item items ih =>
    have hpc : at_ k = pc := (Option.some.inj (hat 0 (Nat.zero_le _))).symm
    have hlen := Instruction.length_bytes (at_ k) item.operand (wide k)
      (Insn.noTemp_mapLabels (f := f).2 (h item (List.mem_cons_self ..)))
    rw [Instruction.size_mapLabels, hpc] at hlen
    have hnext : ∀ j, k + 1 + j = k + (j + 1) := fun j => by omega
    have hend := ih (pc + Instruction.size pc item.operand (wide k) item.node) (k + 1)
      (fun j hj => hnext j ▸ hat (j + 1) (Nat.succ_le_succ hj))
      fun it hit => h it (List.mem_cons_of_mem _ hit)
    rw [List.zipIdx_cons, List.flatMap_cons, List.length_append, hpc, hlen, ← Nat.add_assoc, hend,
      hnext]
    rfl

/-- Instructions that read back each by itself read back in a row. -/
theorem sweeps_from (pool : Pool) (pc k : Nat) {at_ : Nat → Nat} {f : Nat → Int}
    (hat : ∀ j ≤ items.length, (stopsFrom wide pc k items)[j]? = some (at_ (k + j)))
    (h : ∀ j item, items[j]? = some item → item.node.isReal ∧ item.node.NoTemp ∧
      Reads (Instruction.read pool (at_ (k + j)))
        (Instruction.bytes (at_ (k + j)) item.operand (wide (k + j)) (item.node.mapLabels f))
        (item.node.mapLabels f)) :
    CodeBody.Sweeps pool pc
      ((items.zipIdx k).flatMap fun e =>
        Instruction.bytes (at_ e.2) e.1.operand (wide e.2) (e.1.node.mapLabels f))
      ((items.zipIdx k).map fun e => (at_ e.2, e.1.node.mapLabels f)) := by
  induction items generalizing pc k with
  | nil => exact .nil pc
  | cons item items ih =>
    obtain ⟨hreal, hslots, hread⟩ := h 0 item rfl
    have hpc : at_ k = pc := (Option.some.inj (hat 0 (Nat.zero_le _))).symm
    have hlen := Instruction.length_bytes (at_ k) item.operand (wide k)
      (Insn.noTemp_mapLabels (f := f).2 hslots)
    rw [Instruction.size_mapLabels, hpc] at hlen
    have hpos := Instruction.size_pos pc item.operand (wide k) hreal
    have hnext : ∀ j, k + 1 + j = k + (j + 1) := fun j => by omega
    have hs := ih (pc + Instruction.size pc item.operand (wide k) item.node)
      (k + 1) (fun j hj => hnext j ▸ hat (j + 1) (Nat.succ_le_succ hj))
      fun j it hj => hnext j ▸ h (j + 1) it hj
    rw [List.zipIdx_cons, List.flatMap_cons, List.map_cons, hpc]
    rw [Nat.add_zero, hpc] at hread
    exact .cons hread (by rw [hlen]; exact hpos) (hlen.symm ▸ hs)

/-- The next item stands after the bytes of the one before. -/
theorem stopsFrom_succ {pc k j : Nat} {item : Item} (h : items[j]? = some item) {p q : Nat}
    (hp : (stopsFrom wide pc k items)[j]? = some p)
    (hq : (stopsFrom wide pc k items)[j + 1]? = some q) :
    q = p + Instruction.size p item.operand (wide (k + j)) item.node := by
  induction items generalizing pc k j with
  | nil => cases h
  | cons head items ih =>
    rw [stopsFrom] at hp hq
    cases j with
    | zero =>
      cases h
      cases hp
      rw [List.getElem?_cons_succ, getElem?_stopsFrom_zero] at hq
      cases hq
      rfl
    | succ j =>
      have := ih (k := k + 1) h hp hq
      rwa [show k + 1 + j = k + (j + 1) by omega] at this

theorem stop_succ (wide : Nat → Bool) {k : Nat} {item : Item} (h : items[k]? = some item) :
    stop wide items (k + 1) = stop wide items k +
      Instruction.size (stop wide items k) item.operand (wide k) item.node := by
  have hlt := (List.getElem?_eq_some_iff.1 h).1
  have := stopsFrom_succ h (getElem?_stops wide (Nat.le_of_lt hlt)) (getElem?_stops wide hlt)
  rwa [Nat.zero_add] at this

end Layout

namespace Outline
open Layout Reader

variable {o : Outline} {items : List Item} {wide : Nat → Bool} {pool : Pool}

/-- A settled layout puts every instruction where its bytes can be read. -/
theorem placed_of_settles (hn : items.map (·.node) = o.insns) (hb : o.Bounded)
    (hs : Settles items (fun _ => false) wide) {k : Nat} {item : Item}
    (hk : items[k]? = some item) :
    Instruction.Placed (stop wide items k) (wide k) (stop wide items) item.node := by
  obtain ⟨hpass, hlast⟩ := hs.passes
  have hlen : items.length = o.insns.length := by rw [← hn, List.length_map]
  have hnode : ∀ item ∈ items, item.node ∈ o.insns := fun item hi =>
    hn ▸ List.mem_map_of_mem hi
  have hle : ∀ r ≤ items.length, stop wide items r ≤ 65535 := fun r hr =>
    Nat.le_trans (stop_mono (fun it hi => hb.real _ (hnode it hi)) hr (Nat.le_refl _)) hpass.size
  have hlt := (List.getElem?_eq_some_iff.1 hk).1
  refine ⟨hle k (Nat.le_of_lt hlt), fun l hl => hle l ?_, fun op l hj hwide => ?_,
    fun op l hj hwide => ?_⟩
  · rw [hlen]
    exact hb.targets _ (hnode item (List.mem_of_getElem? hk)) l hl
  · obtain ⟨l', hl'⟩ := hs.goto (fun _ _ _ h => by cases h) k item hk hwide
    rw [hj] at hl'
    cases hl'
    rfl
  · -- A jump that is still far would have been made wide in the last round.
    have hfar := congrFun hlast k
    unfold widened at hfar
    rw [hwide, hk, Bool.false_or, Option.any_some, hj] at hfar
    simpa [isFar] using hfar

theorem length_codeBytes (wide : Nat → Bool) (h : ∀ item ∈ items, item.node.NoTemp) :
    (codeBytes wide items).length = stop wide items items.length := by
  have hstop : ∀ j ≤ items.length,
      (stopsFrom wide 0 0 items)[j]? = some (stop wide items (0 + j)) :=
    fun j hj => (Nat.zero_add j).symm ▸ getElem?_stops wide hj
  have hend := length_bytesFrom 0 0 (fun r => (stop wide items r : Int)) hstop h
  rwa [Nat.zero_add, Nat.zero_add] at hend

/-- Where the layout puts the instructions of an outline, they read back. -/
theorem sweeps_codeBytes (hn : items.map (·.node) = o.insns) (hb : o.Bounded) (hset : o.Settled)
    (hw : o.Writable) (hs : Settles items (fun _ => false) wide)
    (hc : ∀ i ∈ o.insns, Instruction.check i = .ok ())
    (hres : ∀ item ∈ items, item.node.Resolves pool item.operand) (maxStack maxLocals : UInt16) :
    CodeBody.Sweeps pool 0 (codeBytes wide items)
      (o.body maxStack maxLocals (stop wide items)).insns := by
  have hnode : ∀ item ∈ items, item.node ∈ o.insns := fun item hi =>
    hn ▸ List.mem_map_of_mem hi
  have hreal : ∀ item ∈ items, item.node.isReal := fun item hi => hb.real _ (hnode item hi)
  have hstop : ∀ j ≤ items.length,
      (stopsFrom wide 0 0 items)[j]? = some (stop wide items (0 + j)) :=
    fun j hj => (Nat.zero_add j).symm ▸ getElem?_stops wide hj
  have hinsns : (o.body maxStack maxLocals (stop wide items)).insns = items.zipIdx.map fun e =>
      (stop wide items e.2, e.1.node.mapLabels fun r => (stop wide items r : Int)) := by
    unfold body
    rw [← hn, List.zipIdx_map, List.map_map]
    rfl
  rw [hinsns]
  refine sweeps_from pool 0 0 (f := fun r => (stop wide items r : Int)) hstop fun j item hj => ?_
  have hi := List.mem_of_getElem? hj
  have hlt := (List.getElem?_eq_some_iff.1 hj).1
  have hin := hnode item hi
  rw [Nat.zero_add]
  refine ⟨hreal item hi, hw.slots _ hin, ?_⟩
  have hsize := stop_succ wide hj
  have hfits : stop wide items (j + 1) ≤ 65535 :=
    Nat.le_trans (stop_mono hreal hlt (Nat.le_refl _)) hs.passes.1.size
  have hread := Instruction.reads_read (hreal item hi) (hw.proper _ hin) (hw.slots _ hin)
    (Method.encodable_of_check (hc _ hin)) (hres item hi) (placed_of_settles hn hb hs hj) (by omega)
  rwa [hset.keys _ hin] at hread

end Outline

/-! ## Tables -/

namespace Method
open Reader PoolBuilder

variable {place : Nat → Nat}

/-- A position of two bytes. -/
theorem reads_position {β : Type} {n : Nat} {f : UInt16 → Reader β} {bs : List UInt8} {b : β}
    (hn : n ≤ 65535) (h : ∀ m : UInt16, m.toNat = n → Reads (f m) bs b) :
    Reads (u16 >>= f) (bytesOf 2 n ++ bs) b :=
  reads_bind (reads_u16_of_lt (Nat.lt_succ_of_le hn))
    (h _ (UInt16.toNat_ofNat_of_lt' (Nat.lt_succ_of_le hn)))

theorem builds_handlerBytes {h : Handler} (hlt : place h.start < place h.stop)
    (hstop : place h.stop ≤ 65535) (htarget : place h.target ≤ 65535) :
    Builds (handlerBytes place h) fun p es => ∃ e, es = [e] ∧
      Reads (CodeBody.readRange p) e ⟨place h.start, place h.stop, place h.target, h.caught⟩ := by
  unfold handlerBytes
  rw [if_neg (Nat.not_le.2 hlt)]
  refine builds_bind (builds_className? h.caught) fun i => builds_pure fun p hi => ⟨_, rfl, ?_⟩
  rw [List.append_assoc, List.append_assoc]
  refine reads_position (by omega) fun a ha => reads_position hstop fun b hb => ?_
  refine reads_position htarget fun c hc => reads_map (reads_u16 i) ?_
  refine reads_after (reads_lift hi) ?_
  rw [ha, hb, hc]
  exact reads_pure _

theorem builds_localBytes {v : LocalVar} (hle : place v.start ≤ place v.stop)
    (hstop : place v.stop ≤ 65535) :
    Builds (localBytes place v) fun p es => ∃ e, es = [e] ∧ Reads (CodeBody.readLocal p) e
      ⟨place v.start, place v.stop - place v.start, v.name, v.desc, v.slot⟩ := by
  unfold localBytes
  rw [if_neg (Nat.not_lt.2 hle)]
  refine builds_bind (builds_utf8 v.name) fun n => builds_bind (builds_utf8 v.desc) fun d => ?_
  refine builds_pure fun p hd hn => ⟨_, rfl, ?_⟩
  rw [List.append_assoc, List.append_assoc, List.append_assoc]
  refine reads_position (by omega) fun a ha => reads_position (by omega) fun b hb => ?_
  refine reads_bind (reads_u16 n) (reads_after (reads_lift (Pool.utf8_of_has hn)) ?_)
  refine reads_bind (reads_u16 d) (reads_after (reads_lift (Pool.utf8_of_has hd)) ?_)
  refine reads_map (reads_u16 v.slot) ?_
  rw [ha, hb]
  exact reads_pure _

/-- Tables of one entry each make up a table of all entries. -/
theorem forall₂_flatten {α β : Type} {r : β → α → Prop} {xs : List α} {ess : List (List β)}
    (h : List.Forall₂ (fun x es => ∃ e, es = [e] ∧ r e x) xs ess) :
    List.Forall₂ r ess.flatten xs := by
  induction h with
  | nil => exact .nil
  | cons hx _ ih =>
    obtain ⟨e, rfl, he⟩ := hx
    exact .cons he ih

theorem forall_of_forall₂ {α β : Type} {r : α → β → Prop} {q : β → Prop}
    (hq : ∀ a b, r a b → q b) {xs : List α} {ys : List β} (h : List.Forall₂ r xs ys) :
    ∀ y ∈ ys, q y := by
  induction h with
  | nil => exact nofun
  | cons hab _ ih => exact List.forall_mem_cons.2 ⟨hq _ _ hab, ih⟩

theorem tableBytes_ok {what : String} {es : List (List UInt8)} {bs : List UInt8}
    (h : tableBytes what es = .ok bs) :
    es.length ≤ 65535 ∧ bs = bytesOf 2 es.length ++ es.flatten := by
  unfold tableBytes countBytes at h
  split at h
  · cases h
    exact ⟨‹_›, rfl⟩
  · cases h

end Method

namespace Outline
open Layout Reader PoolBuilder Method

variable {o : Outline} {items : List Item} {wide : Nat → Bool}

/-- Line numbers read back with their positions. -/
theorem reads_lines (hlen : items.length = o.insns.length)
    (hreal : ∀ item ∈ items, item.node.isReal) (hsize : stop wide items items.length ≤ 65535)
    (hset : o.Settled) :
    List.Forall₂ (Reads CodeBody.readLine) (lineBytes wide items o.lines)
      (o.lines.map fun l => (stop wide items l.1, l.2)) := by
  have hbytes : lineBytes wide items o.lines = o.lines.map fun l =>
      bytesOf 2 (stop wide items l.1) ++ wordBytes l.2 := by
    unfold lineBytes
    rw [← List.filterMap_eq_map]
    refine List.filterMap_congr fun l hl => ?_
    rw [if_pos (stop_lt_stop wide hreal (hlen ▸ hset.lines l hl) (Nat.le_refl _))]
    rfl
  rw [hbytes, List.forall₂_map_left_iff, List.forall₂_map_right_iff, List.forall₂_same]
  intro l hl
  have hle := stop_lt_stop wide hreal (hlen ▸ hset.lines l hl) (Nat.le_refl _)
  refine reads_position (by omega) fun a ha => reads_map (reads_u16 l.2) ?_
  rw [ha]
  exact reads_pure _

/-- The tables of an outline read back, whatever the bytes before them are read as. -/
theorem builds_finish (hn : items.map (·.node) = o.insns) (hb : o.Bounded) (hset : o.Settled)
    (hsize : stop wide items items.length ≤ 65535) :
    Builds (o.finish wide items) fun p bytes => ∃ tables,
      bytes = bytesOf 4 (stop wide items items.length) ++ (codeBytes wide items ++ tables) ∧
      ∀ maxStack maxLocals insns, Reads (CodeBody.readTables p maxStack maxLocals
        (stop wide items items.length) insns) tables
          { o.body maxStack maxLocals (stop wide items) with insns } := by
  have hlen : items.length = o.insns.length := by rw [← hn, List.length_map]
  have hreal : ∀ item ∈ items, item.node.isReal := fun item hi =>
    hb.real _ (hn ▸ List.mem_map_of_mem hi)
  have hle : ∀ r ≤ o.insns.length, stop wide items r ≤ 65535 := fun r hr =>
    Nat.le_trans (stop_mono hreal (hlen ▸ hr) (Nat.le_refl _)) hsize
  have hhandlers := builds_mapM (f := handlerBytes (stop wide items)) fun h (hh : h ∈ o.handlers) =>
      builds_handlerBytes (stop_lt_stop wide hreal (hset.ranges h hh)
        (hlen ▸ hb.ranges h hh h.stop (by simp [Handler.labels])))
        (hle _ (hb.ranges h hh h.stop (by simp [Handler.labels])))
        (hle _ (hb.ranges h hh h.target (by simp [Handler.labels])))
  have hlocals := builds_mapM (f := localBytes (stop wide items)) fun v (hv : v ∈ o.locals) =>
    builds_localBytes (stop_mono hreal (hset.locals v hv) (hlen ▸ (hb.locals v hv).2))
      (hle _ (hb.locals v hv).2)
  have hlines := reads_lines hlen hreal hsize hset
  unfold finish
  refine builds_bind hhandlers fun hs => ?_
  refine builds_bind (builds_lift fun ht h p => tableBytes_ok h) fun ht => ?_
  refine builds_bind hlocals fun ls => ?_
  refine builds_bind (builds_lift fun lt h p => tableBytes_ok h) fun lt => ?_
  refine builds_bind (builds_lift fun nt h p => tableBytes_ok h) fun nt => ?_
  refine builds_pure fun p hnt hlt hls hht hhs => ⟨ht ++ (lt ++ nt), ?_, ?_⟩
  · simp only [List.append_assoc]
  intro maxStack maxLocals insns
  obtain ⟨hncount, rfl⟩ := hnt
  obtain ⟨hlcount, rfl⟩ := hlt
  obtain ⟨hhcount, rfl⟩ := hht
  refine reads_bind (reads_counted hhcount (List.forall₂_map_right_iff.2 (forall₂_flatten hhs))) ?_
  refine reads_bind (reads_counted hlcount (List.forall₂_map_right_iff.2 (forall₂_flatten hls))) ?_
  refine reads_map (reads_counted hncount hlines) ?_
  unfold body
  rw [hlen]
  exact reads_pure _

/-- The body that was written for a settled outline reads back, in any pool
that the container ends up with. -/
theorem Writes.reads {b b' : PoolBuilder} {bytes : List UInt8} (h : o.Writes b b' bytes)
    (hb : o.Bounded) (hset : o.Settled) (hw : o.Writable) (hv : b.Valid) :
    b'.Valid ∧ ∀ p, b'.Within p → b.Within p ∧ ∃ place : Nat → Nat,
      (∀ r s, r < s → s ≤ o.insns.length → place r < place s) ∧
      ∀ maxStack maxLocals signature,
        Reads (CodeBody.read p signature) (wordBytes maxStack ++ (wordBytes maxLocals ++ bytes))
          (o.body maxStack maxLocals place) := by
  obtain ⟨items, b₁, wide, hitems, hs, hc, hfinish⟩ := h
  have hn := node_of_mapM_itemOf hitems
  have hlen : items.length = o.insns.length := by rw [← hn, List.length_map]
  have hreal : ∀ item ∈ items, item.node.isReal := fun item hi =>
    hb.real _ (hn ▸ List.mem_map_of_mem hi)
  have hsize := hs.passes.1.size
  obtain ⟨hv₁, hin₁⟩ :=
    builds_mapM (fun i hi => builds_itemOf (hw.proper i hi)) b items b₁ hv hitems
  obtain ⟨hv', hin'⟩ := builds_finish hn hb hset hsize b₁ bytes b' hv₁ hfinish
  refine ⟨hv', fun p hp => ?_⟩
  obtain ⟨hp₁, tables, rfl, htables⟩ := hin' p hp
  obtain ⟨hp₀, hres⟩ := hin₁ p hp₁
  have hres : ∀ item ∈ items, item.node.Resolves p item.operand :=
    forall_of_forall₂ (by rintro _ item ⟨rfl, hr⟩; exact hr) hres
  refine ⟨hp₀, stop wide items, fun r s hrs hs => stop_lt_stop wide hreal hrs (hlen ▸ hs),
    fun ms ml sig => ?_⟩
  have hcode := length_codeBytes wide fun item hi => hw.slots _ (hn ▸ List.mem_map_of_mem hi)
  have hsweep := CodeBody.reads_sweep (sweeps_codeBytes hn hb hset hw hs hc hres ms ml) hcode
  have hsize32 : stop wide items items.length < 2 ^ 32 := by omega
  refine reads_bind (reads_u16 ms) (reads_bind (reads_u16 ml) ?_)
  refine reads_bind (reads_u32_of_lt hsize32) ?_
  rw [UInt32.toNat_ofNat_of_lt' hsize32, if_neg (by unfold CodeBody.maxSize; omega)]
  exact reads_bind hsweep (htables ms ml _)

end Outline

end ClassPatch
