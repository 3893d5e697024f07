-- The layout of a body and its bytes. They count alike: each instruction stands
-- where the layout has it and takes the bytes that the layout gave it, and what
-- it branches to is as far away as the layout says. The rounds of the layout
-- come to an end, and only plain jumps are made wide.
import ClassPatch.Proofs.RoundTrip

namespace ClassPatch

open Reader

/-! ## Bytes at a position -/

/-- Some bytes stand in others, from a position on. -/
def BytesAt (start : Nat) (part bytes : List UInt8) : Prop :=
  ∃ before after, bytes = before ++ part ++ after ∧ before.length = start

section BytesAt
variable {start : Nat} {part bytes : List UInt8}

theorem bytesAt_self (bytes : List UInt8) : BytesAt 0 bytes bytes := ⟨[], [], by simp, rfl⟩

theorem BytesAt.before (h : BytesAt start part bytes) (more : List UInt8) :
    BytesAt start part (bytes ++ more) := by
  obtain ⟨x, y, rfl, rfl⟩ := h
  exact ⟨x, y ++ more, List.append_assoc .., rfl⟩

theorem BytesAt.after (h : BytesAt start part bytes) (more : List UInt8) :
    BytesAt (more.length + start) part (more ++ bytes) := by
  obtain ⟨x, y, rfl, rfl⟩ := h
  exact ⟨more ++ x, y, by simp only [List.append_assoc], List.length_append⟩

theorem BytesAt.trans {inner : Nat} {piece : List UInt8} (h : BytesAt start part bytes)
    (h' : BytesAt inner piece part) : BytesAt (start + inner) piece bytes := by
  obtain ⟨x, y, rfl, rfl⟩ := h
  exact (h'.after x).before y

/-- Parts of one length follow one another. -/
theorem bytesAt_flatMap {α : Type} {f : α → List UInt8} {k : Nat} (hf : ∀ a, (f a).length = k)
    {as : List α} {i : Nat} {a : α} (ha : as[i]? = some a) :
    BytesAt (k * i) (f a) (as.flatMap f) := by
  induction as generalizing i with
  | nil => cases ha
  | cons b as ih =>
    rw [List.flatMap_cons]
    cases i with
    | zero =>
      cases ha
      exact ⟨[], as.flatMap f, rfl, rfl⟩
    | succ i =>
      have h := (ih ha).after (f b)
      rwa [hf, Nat.add_comm, ← Nat.mul_succ] at h

/-- What follows an opcode and the zero bytes of a switch. -/
theorem bytesAt_padded (op : UInt8) (padding : Nat) (part : List UInt8) :
    BytesAt (1 + padding) part (op :: List.replicate padding 0 ++ part) := by
  have h := (bytesAt_self part).after (op :: List.replicate padding 0)
  rwa [List.length_cons, List.length_replicate, Nat.add_zero, Nat.add_comm] at h

end BytesAt

/-- Some bytes as a signed number. -/
def signedNumber (bs : List UInt8) : Int := (bigEndian bs : Int).bmod (256 ^ bs.length)

/-- A signed number is read back from its bytes if it fits. -/
theorem signedNumber_signedBytes {size : Nat} {n : Int} (hlow : -(256 ^ size / 2) ≤ n)
    (hhigh : n < 256 ^ size / 2) : signedNumber (signedBytes size n) = n := by
  have hnonneg := Int.emod_nonneg n (Int.ne_of_gt (Int.pow_pos (by decide) : (0 : Int) < 256 ^ size))
  unfold signedNumber
  rw [signedBytes_eq, length_bytesOf, bigEndian_bytesOf, Nat.mod_eq_of_lt (toNat_emod_lt n size),
    Int.toNat_of_nonneg hnonneg]
  have hcast : (256 ^ size : Int) = (256 ^ size : Nat) := by simp
  rw [hcast] at hlow hhigh ⊢
  rw [Int.emod_bmod]
  exact Int.bmod_eq_of_le (by omega) (by omega)

/-! ## The branches of an instruction -/

/-- A node with numbers that start at a multiple of four. -/
def Insn.isSwitch {α : Type} : Insn α → Bool
  | .tableSwitch .. | .lookupSwitch .. => true
  | _ => false

theorem switchPadding_aligns (pc : Nat) : (pc + 1 + switchPadding pc) % 4 = 0 := by
  unfold switchPadding
  omega

namespace Instruction

/-- Where in the bytes of an instruction a distance stands, how many bytes it has, and
the label that it leads to. -/
structure Branch where
  offset : Nat
  size : Nat
  target : Label

/-- The distances in the bytes of a node at `pc`. -/
def branches (pc : Nat) (wide : Bool) : Node → List Branch
  | .jump _ l => [⟨1, if wide then 4 else 2, l⟩]
  | .tableSwitch _ otherwise ts =>
    ⟨1 + switchPadding pc, 4, otherwise⟩ ::
      ts.zipIdx.map fun e => ⟨1 + switchPadding pc + 12 + 4 * e.2, 4, e.1⟩
  | .lookupSwitch otherwise ps =>
    ⟨1 + switchPadding pc, 4, otherwise⟩ ::
      (sortPairs ps).zipIdx.map fun e => ⟨1 + switchPadding pc + 12 + 8 * e.2, 4, e.1.2⟩
  | _ => []

/-- Each target has a distance. -/
theorem target_branches (pc : Nat) (wide : Bool) (i : Node) :
    ((branches pc wide i).map Branch.target).Perm i.targets := by
  cases i with
  | jump op l => exact .refl _
  | tableSwitch low otherwise ts =>
    have h : (ts.zipIdx.map fun e => Branch.target ⟨1 + switchPadding pc + 12 + 4 * e.2, 4, e.1⟩) =
        ts := List.zipIdx_map_fst 0 ts
    simp only [branches, List.map_cons, List.map_map, Insn.targets, Function.comp_def, h]
    exact .refl _
  | lookupSwitch otherwise ps =>
    simp only [branches, List.map_cons, List.map_map, Insn.targets]
    refine List.Perm.cons _ ?_
    have h : (sortPairs ps).zipIdx.map (fun e => e.1.2) = (sortPairs ps).map (·.2) := by
      rw [← List.zipIdx_map_fst 0 (sortPairs ps), List.map_map, List.zipIdx_map_fst]
      rfl
    exact h ▸ (List.mergeSort_perm ps _).map _
  | _ => exact .refl _

/-- A distance has four bytes, or it is that of a jump that is not wide. -/
theorem size_branch {pc : Nat} {wide : Bool} {i : Node} {br : Branch} (h : br ∈ branches pc wide i) :
    br.size = 4 ∨ br.size = 2 ∧ wide = false ∧ ∃ op, i = .jump op br.target := by
  cases i with
  | jump op l =>
    cases List.mem_singleton.1 h
    cases wide with
    | true => exact .inl rfl
    | false => exact .inr ⟨rfl, rfl, op, rfl⟩
  | tableSwitch low otherwise ts =>
    rcases List.mem_cons.1 h with rfl | h
    · exact .inl rfl
    · obtain ⟨_, _, rfl⟩ := List.mem_map.1 h
      exact .inl rfl
  | lookupSwitch otherwise ps =>
    rcases List.mem_cons.1 h with rfl | h
    · exact .inl rfl
    · obtain ⟨_, _, rfl⟩ := List.mem_map.1 h
      exact .inl rfl
  | _ => cases h

/-- A distance stands where the branch has it. -/
theorem bytesAt_branch (pc : Nat) (operand : UInt16) (wide : Bool) (place : Label → Int) {i : Node}
    {br : Branch} (h : br ∈ branches pc wide i) :
    BytesAt br.offset (distance br.size pc (place br.target))
      (bytes pc operand wide (i.mapLabels place)) := by
  cases i with
  | jump op l =>
    cases List.mem_singleton.1 h
    cases wide with
    | true => exact ⟨[Opcode.wideGoto], [], (List.append_nil _).symm, rfl⟩
    | false => exact ⟨[op.toByte], [], (List.append_nil _).symm, rfl⟩
  | tableSwitch low otherwise ts =>
    simp only [Insn.mapLabels, bytes]
    rcases List.mem_cons.1 h with rfl | h
    · exact (((bytesAt_padded ..).before _).before _).before _
    · obtain ⟨⟨l, k⟩, hk, rfl⟩ := List.mem_map.1 h
      have hk : (ts.map place)[k]? = some (place l) := by
        rw [List.getElem?_map, List.mem_zipIdx_iff_getElem?.1 hk]
        rfl
      have hat := (bytesAt_flatMap (length_distance 4 pc) hk).after
        (Opcode.TABLESWITCH.toByte :: List.replicate (switchPadding pc) 0
          ++ distance 4 pc (place otherwise) ++ signedBytes 4 low.toInt
          ++ signedBytes 4 (low.toInt + (ts.map place).length - 1))
      simp only [List.length_append, List.length_cons, List.length_replicate, length_distance,
        length_signedBytes] at hat
      have hstart : switchPadding pc + 1 + 4 + 4 + 4 + 4 * k = 1 + switchPadding pc + 12 + 4 * k := by
        omega
      exact hstart ▸ hat
  | lookupSwitch otherwise ps =>
    simp only [Insn.mapLabels, bytes]
    rcases List.mem_cons.1 h with rfl | h
    · exact ((bytesAt_padded ..).before _).before _
    · obtain ⟨⟨p, k⟩, hk, rfl⟩ := List.mem_map.1 h
      have hk : (sortPairs (ps.map fun p => (p.1, place p.2)))[k]? = some (p.1, place p.2) := by
        rw [sortPairs_map, List.getElem?_map, List.mem_zipIdx_iff_getElem?.1 hk]
        rfl
      have hpair : ∀ q : Int32 × Int,
          (signedBytes 4 q.1.toInt ++ distance 4 pc q.2).length = 8 := fun q => by
        rw [List.length_append, length_signedBytes, length_distance]
      have hinner := (bytesAt_self (distance 4 pc (place p.2))).after (signedBytes 4 p.1.toInt)
      have hat := ((bytesAt_flatMap hpair hk).trans hinner).after
        (Opcode.LOOKUPSWITCH.toByte :: List.replicate (switchPadding pc) 0
          ++ distance 4 pc (place otherwise) ++ bytesOf 4 (ps.map fun p => (p.1, place p.2)).length)
      simp only [List.length_append, List.length_cons, List.length_replicate, length_distance,
        length_signedBytes, length_bytesOf] at hat
      have hstart : switchPadding pc + 1 + 4 + 4 + (8 * k + (4 + 0)) =
          1 + switchPadding pc + 12 + 8 * k := by
        omega
      exact hstart ▸ hat
  | _ => cases h

end Instruction

/-! ## A settled layout -/

namespace Layout

/-- Only plain jumps are wide. -/
def OnlyGotos (items : List Item) (wide : Std.HashSet Nat) : Prop :=
  ∀ i, wide.contains i → ∃ item target, items[i]? = some item ∧ item.node = .jump .GOTO target

/-- The layout is one that rounds end with. -/
structure Settled (index : Std.HashMap Label Nat) (items : List Item) (l : Layout) : Prop where
  placed : l = place l.wide items
  fits : l.size ≤ 65535
  still : l.growing index items = .ok []
  gotos : OnlyGotos items l.wide

section Settled
variable {index : Std.HashMap Label Nat} {items : List Item} {l : Layout}

theorem placeOf_of_marked {label : Label} {i : Nat} (h : index[label]? = some i) :
    l.placeOf index label = l.pcAt i := by
  unfold placeOf
  rw [h]

theorem goto_of_widens {i : Nat} {node : Node} (h : l.widens index i node = .ok true) :
    ∃ target, node = .jump .GOTO target := by
  unfold widens at h
  split at h
  · rename_i op target
    dsimp only at h
    split at h
    · cases h
    · split at h
      · rename_i hop
        exact ⟨target, hop ▸ rfl⟩
      · cases h
  · cases h

theorem settled_of_settle {signature : String} {rounds : Nat} {wide : Std.HashSet Nat}
    (hw : OnlyGotos items wide) (h : settle signature index items rounds wide = .ok l) :
    l.Settled index items := by
  induction rounds generalizing wide with
  | zero => cases h
  | succ rounds ih =>
    unfold settle at h
    dsimp only at h
    split at h
    · cases h
    · rename_i hsize
      obtain ⟨grown, hg, h⟩ := bind_eq_ok.1 h
      cases grown with
      | nil =>
        cases h
        exact ⟨rfl, Nat.not_lt.1 hsize, hg, hw⟩
      | cons j grown =>
        refine ih (fun i hi => ?_) h
        rw [Std.HashSet.contains_insertMany_list, Bool.or_eq_true, List.contains_iff_mem] at hi
        rcases hi with hi | hi
        · exact hw i hi
        · obtain ⟨item, hitem, hwide⟩ := ((growing_ok hg).2 i).1 hi
          obtain ⟨target, htarget⟩ := goto_of_widens hwide
          exact ⟨item, target, hitem, htarget⟩

theorem settled_of_layOut {signature : String} (h : layOut signature index items = .ok l) :
    l.Settled index items :=
  settled_of_settle (fun i hi => absurd hi (by simp)) h

/-- No layout goes on for ever. -/
theorem layOut_ne_diverged (signature : String) (items : List Item) (s : String) :
    layOut signature (markerIndex (items.map (·.node))) items ≠ .error (.layoutDiverged s) :=
  fun h => Bool.false_ne_true ((yields_layOut signature items).fault h)

/-- A jump that is not wide has a distance of two bytes. -/
theorem Settled.near (h : l.Settled index items) {i : Nat} {item : Item} {op : Opcode}
    {target : Label} (hi : items[i]? = some item) (hj : item.node = .jump op target)
    (hw : l.wide.contains i = false) :
    Instruction.fitsI16 ((l.placeOf index target : Int) - l.pcAt i) := by
  obtain ⟨hall, hmem⟩ := growing_ok h.still
  obtain ⟨b, hb⟩ := hall i item hi
  have hstill : l.widens index i item.node ≠ .ok true := fun ht =>
    List.not_mem_nil ((hmem i).2 ⟨item, hi, ht⟩)
  rw [hj] at hb hstill
  unfold widens at hb hstill
  dsimp only at hb hstill
  split at hb
  · rename_i hfits
    exact hfits
  · rename_i hfar
    rw [if_neg hfar] at hstill
    split at hb
    · rename_i hop
      rw [if_pos hop, hw] at hstill
      exact absurd rfl hstill
    · cases hb

theorem Settled.pcAt_eq (h : l.Settled index items) {i : Nat} (hi : i ≤ items.length) :
    l.pcAt i = stop l.wide.contains items i := by
  have hpc : (place l.wide items).pcAt i = stop l.wide.contains items i := pcAt_place hi
  rwa [← h.placed] at hpc

theorem Settled.getElem?_stops (h : l.Settled index items) (j : Nat) (hj : j ≤ items.length) :
    (stopsFrom l.wide.contains 0 0 items)[j]? = some (l.pcAt (0 + j)) := by
  rw [Layout.getElem?_stops _ hj, Nat.zero_add, h.pcAt_eq hj]

theorem Settled.size_eq (h : l.Settled index items) : l.size = l.pcAt items.length := by
  have := size_place l.wide items
  rwa [← h.placed, ← h.pcAt_eq (Nat.le_refl _)] at this

theorem Settled.length_codeBytes (h : l.Settled index items)
    (hs : ∀ item ∈ items, item.node.NoTemp) :
    (Method.codeBytes l index items).length = l.size := by
  have hlen := length_bytesFrom 0 0 (fun label => (l.placeOf index label : Int))
    h.getElem?_stops hs
  rw [Nat.zero_add, Nat.zero_add] at hlen
  exact hlen.trans h.size_eq.symm

theorem Settled.pcAt_succ (h : l.Settled index items) {i : Nat} {item : Item}
    (hi : items[i]? = some item) : l.pcAt (i + 1) = l.pcAt i +
      Instruction.size (l.pcAt i) item.operand (l.wide.contains i) item.node := by
  have hlt := (List.getElem?_eq_some_iff.1 hi).1
  rw [h.pcAt_eq hlt, h.pcAt_eq (Nat.le_of_lt hlt), stop_succ _ hi]

/-- Positions do not get smaller. -/
theorem Settled.pcAt_le (h : l.Settled index items) {i : Nat} (hi : i ≤ items.length) :
    l.pcAt i ≤ 65535 := by
  have hmono : ∀ d, i + d ≤ items.length → l.pcAt i ≤ l.pcAt (i + d) := by
    intro d
    induction d with
    | zero => exact fun _ => Nat.le_refl _
    | succ d ih =>
      intro hd
      have hlt : i + d < items.length := hd
      have hstep := h.pcAt_succ (List.getElem?_eq_getElem hlt)
      rw [← Nat.add_assoc, hstep]
      exact Nat.le_add_right_of_le (ih (Nat.le_of_lt hlt))
  have hend := hmono (items.length - i) (by omega)
  rw [Nat.add_sub_cancel' hi, ← h.size_eq] at hend
  exact Nat.le_trans hend h.fits

end Settled

/-! ## Where instructions stand -/

section Standing
variable {items : List Item} {wide : Nat → Bool}

/-- Instructions in a row stand where a layout puts them. -/
theorem bytesAt_from (pc k : Nat) {at_ : Nat → Nat} (f : Label → Int)
    (hat : ∀ j ≤ items.length, (stopsFrom wide pc k items)[j]? = some (at_ (k + j)))
    (h : ∀ item ∈ items, item.node.NoTemp) {j : Nat} {item : Item} (hj : items[j]? = some item) :
    ∃ start, pc + start = at_ (k + j) ∧
      BytesAt start
        (Instruction.bytes (at_ (k + j)) item.operand (wide (k + j)) (item.node.mapLabels f))
        ((items.zipIdx k).flatMap fun e =>
          Instruction.bytes (at_ e.2) e.1.operand (wide e.2) (e.1.node.mapLabels f)) := by
  induction items generalizing pc k j with
  | nil => cases hj
  | cons head items ih =>
    have hpc : at_ k = pc := (Option.some.inj (hat 0 (Nat.zero_le _))).symm
    rw [List.zipIdx_cons, List.flatMap_cons]
    cases j with
    | zero =>
      cases hj
      exact ⟨0, hpc.symm, (bytesAt_self _).before _⟩
    | succ j =>
      have hlen := Instruction.length_bytes (at_ k) head.operand (wide k)
        (Insn.noTemp_mapLabels (f := f).2 (h head (List.mem_cons_self ..)))
      rw [Instruction.size_mapLabels] at hlen
      have hnext : ∀ j, k + 1 + j = k + (j + 1) := fun j => by omega
      obtain ⟨start, hstart, hbytes⟩ := ih
        (pc + Instruction.size pc head.operand (wide k) head.node) (k + 1)
        (fun j hj => hnext j ▸ hat (j + 1) (Nat.succ_le_succ hj))
        (fun it hit => h it (List.mem_cons_of_mem _ hit)) hj
      rw [hnext] at hstart hbytes
      refine ⟨_, ?_, hbytes.after _⟩
      rw [hlen, hpc]
      omega

end Standing

/-- The bytes of a node where the layout has it. -/
def nodeBytes (l : Layout) (index : Std.HashMap Label Nat) (k : Nat) (item : Item) : List UInt8 :=
  Instruction.bytes (l.pcAt k) item.operand (l.wide.contains k)
    (item.node.mapLabels fun label => (l.placeOf index label : Int))

/-- What holds of the node of an index, in the layout and in the bytes of the code. -/
structure Emitted (l : Layout) (index : Std.HashMap Label Nat) (code : List UInt8) (k : Nat)
    (item : Item) : Prop where
  next : l.pcAt (k + 1) = l.pcAt k +
    Instruction.size (l.pcAt k) item.operand (l.wide.contains k) item.node
  length : (l.nodeBytes index k item).length =
    Instruction.size (l.pcAt k) item.operand (l.wide.contains k) item.node
  stands : BytesAt (l.pcAt k) (l.nodeBytes index k item) code
  targets : ((Instruction.branches (l.pcAt k) (l.wide.contains k) item.node).map (·.target)).Perm
    item.node.targets
  branches : ∀ br ∈ Instruction.branches (l.pcAt k) (l.wide.contains k) item.node,
    ∃ i bs, index[br.target]? = some i ∧ bs.length = br.size ∧
      BytesAt (l.pcAt k + br.offset) bs code ∧ signedNumber bs = (l.pcAt i : Int) - l.pcAt k
  near : ∀ op target, item.node = .jump op target → l.wide.contains k = false →
    Instruction.fitsI16 ((l.placeOf index target : Int) - l.pcAt k)
  goto : l.wide.contains k → ∃ target, item.node = .jump .GOTO target
  aligned : item.node.isSwitch → (l.pcAt k + 1 + switchPadding (l.pcAt k)) % 4 = 0 ∧
    BytesAt (l.pcAt k + 1) (List.replicate (switchPadding (l.pcAt k)) 0) code

section Emitted
variable {index : Std.HashMap Label Nat} {items : List Item} {l : Layout}

/-- The distance to a marked label fits its bytes. -/
theorem Settled.fits_distance (h : l.Settled index items) {k : Nat} {item : Item}
    (hk : items[k]? = some item) {br : Instruction.Branch}
    (hbr : br ∈ Instruction.branches (l.pcAt k) (l.wide.contains k) item.node) {i : Nat}
    (hi : index[br.target]? = some i) (hle : i ≤ items.length) :
    -(256 ^ br.size / 2) ≤ (l.pcAt i : Int) - l.pcAt k ∧
      (l.pcAt i : Int) - l.pcAt k < 256 ^ br.size / 2 := by
  have hstart := h.pcAt_le (Nat.le_of_lt (List.getElem?_eq_some_iff.1 hk).1)
  have hstop := h.pcAt_le hle
  rcases Instruction.size_branch hbr with hsize | ⟨hsize, hw, op, hn⟩
  · rw [hsize]
    omega
  · have hnear := Instruction.fitsI16_iff.1 (h.near hk hn hw)
    rw [placeOf_of_marked hi] at hnear
    rw [hsize]
    omega

/-- The zero bytes of a switch stand before its numbers. -/
theorem bytesAt_padding (pc : Nat) (operand : UInt16) (wide : Bool) (place : Label → Int)
    {i : Node} (h : i.isSwitch) : BytesAt 1 (List.replicate (switchPadding pc) 0)
      (Instruction.bytes pc operand wide (i.mapLabels place)) := by
  cases i with
  | tableSwitch low otherwise ts =>
    have hat := (bytesAt_self (List.replicate (switchPadding pc) (0 : UInt8))).after
      [Opcode.TABLESWITCH.toByte]
    exact (((hat.before _).before _).before _).before _
  | lookupSwitch otherwise ps =>
    have hat := (bytesAt_self (List.replicate (switchPadding pc) (0 : UInt8))).after
      [Opcode.LOOKUPSWITCH.toByte]
    exact ((hat.before _).before _).before _
  | _ => cases h

theorem Settled.emitted (h : l.Settled index items) (hs : ∀ item ∈ items, item.node.NoTemp)
    {k : Nat} {item : Item} (hk : items[k]? = some item)
    (hmarked : ∀ target ∈ item.node.targets, ∃ i ≤ items.length, index[target]? = some i) :
    l.Emitted index (Method.codeBytes l index items) k item := by
  have hmem := List.mem_of_getElem? hk
  have hlen := Instruction.length_bytes (l.pcAt k) item.operand (l.wide.contains k)
    (Insn.noTemp_mapLabels (f := fun label => (l.placeOf index label : Int)).2 (hs item hmem))
  rw [Instruction.size_mapLabels] at hlen
  obtain ⟨start, hstart, hbytes⟩ := bytesAt_from 0 0
    (fun label => (l.placeOf index label : Int)) h.getElem?_stops hs hk
  rw [Nat.zero_add, Nat.zero_add] at hstart
  rw [Nat.zero_add, hstart] at hbytes
  have hstands : BytesAt (l.pcAt k) (l.nodeBytes index k item)
      (Method.codeBytes l index items) := hbytes
  refine ⟨h.pcAt_succ hk, hlen, hstands, Instruction.target_branches .., fun br hbr => ?_,
    fun op target hj hw => h.near hk hj hw, fun hw => ?_, fun hsw => ⟨switchPadding_aligns _, ?_⟩⟩
  · have htarget : br.target ∈ item.node.targets :=
      (Instruction.target_branches _ _ _).mem_iff.1 (List.mem_map_of_mem hbr)
    obtain ⟨i, hle, hi⟩ := hmarked _ htarget
    obtain ⟨hlow, hhigh⟩ := h.fits_distance hk hbr hi hle
    refine ⟨i, _, hi, length_bytesOf _ _, hstands.trans (Instruction.bytesAt_branch _ _ _ _ hbr), ?_⟩
    rw [placeOf_of_marked hi]
    exact signedNumber_signedBytes hlow hhigh
  · obtain ⟨item', target, hitem, htarget⟩ := h.gotos k hw
    rw [hk] at hitem
    cases hitem
    exact ⟨target, htarget⟩
  · exact hstands.trans (bytesAt_padding _ _ _ _ hsw)

end Emitted

end Layout

namespace Method
open Layout

theorem marked_of_checkLabels {m : Method} {index : Std.HashMap Label Nat}
    (h : m.checkLabels index = .ok ()) {i : Node} (hi : i ∈ m.code.toList) {l : Label}
    (hl : l ∈ i.targets) : index.contains l = true := by
  unfold checkLabels at h
  obtain ⟨_, hn, _⟩ := bind_eq_ok.1 h
  have hnode := forM_ok.1 hn i hi
  unfold checkNode at hnode
  split at hnode
  · cases hnode
  · have := forM_ok.1 hnode l hl
    unfold requireMarker at this
    split at this
    · assumption
    · cases this

/-- The bytes of a body have its code as the layout has it: as long, not too long, and with
every node in its place. -/
def FollowsLayout (m : Method) (b : PoolBuilder) (bytes : List UInt8) : Prop :=
  ∃ items b₁ l code tables,
    m.code.toList.mapM itemOf b = .ok (items, b₁) ∧ items.map (·.node) = m.code.toList ∧
    Layout.layOut m.signature (markerIndex m.code.toList) items = .ok l ∧
    bytes = wordBytes m.code.maxStack ++ wordBytes m.neededLocals ++ bytesOf 4 code.length
      ++ code ++ tables ∧
    code.length = l.pcAt items.length ∧ code.length ≤ 65535 ∧
    ∀ k item, items[k]? = some item → l.Emitted (markerIndex m.code.toList) code k item

/-- The rounds of a layout always come to an end. Whenever a body is written, every node
stands in the code as the layout has it: from its position on, with the bytes that were
counted for it, its branches as far as their labels are away. Only plain jumps are wide,
and the numbers of a switch start at a multiple of four. -/
theorem emission_follows_layout (m : Method) :
    (∀ items : List Item, items.map (·.node) = m.code.toList → ∀ signature s,
      Layout.layOut signature (markerIndex m.code.toList) items ≠ .error (.layoutDiverged s)) ∧
    ∀ b b' bytes, m.encodeBody b = .ok (bytes, b') → m.FollowsLayout b bytes := by
  refine ⟨fun items hn signature s => hn ▸ Layout.layOut_ne_diverged signature items s, ?_⟩
  intro b b' bytes h
  unfold encodeBody at h
  obtain ⟨_, _, hchecked, h₁⟩ := PoolBuilder.bind_ok.1 h
  obtain ⟨hlabels, rfl⟩ := PoolBuilder.lift_ok.1 hchecked
  obtain ⟨items, _, hitems, h₂⟩ := PoolBuilder.bind_ok.1 h₁
  obtain ⟨l, _, hl, h₃⟩ := PoolBuilder.bind_ok.1 h₂
  obtain ⟨hlayout, rfl⟩ := PoolBuilder.lift_ok.1 hl
  obtain ⟨_, _, _, h₄⟩ := PoolBuilder.bind_ok.1 h₃
  obtain ⟨_, _, _, h₅⟩ := PoolBuilder.bind_ok.1 h₄
  obtain ⟨handlers, _, _, h₆⟩ := PoolBuilder.bind_ok.1 h₅
  obtain ⟨_, _, _, h₇⟩ := PoolBuilder.bind_ok.1 h₆
  obtain ⟨locals, _, _, h₈⟩ := PoolBuilder.bind_ok.1 h₇
  obtain ⟨lines, _, _, h₉⟩ := PoolBuilder.bind_ok.1 h₈
  obtain ⟨rfl, rfl⟩ := PoolBuilder.pure_ok.1 h₉
  have hn := node_of_mapM_itemOf hitems
  have hnode : ∀ item ∈ items, item.node ∈ m.code.toList := fun item hi =>
    hn ▸ List.mem_map_of_mem hi
  have hs : ∀ item ∈ items, item.node.NoTemp := fun item hi =>
    noTemp_of_checkLabels hlabels _ (hnode item hi)
  have hset := Layout.settled_of_layOut hlayout
  have hlength : (codeBytes l (markerIndex m.code.toList) items).length = l.size :=
    hset.length_codeBytes hs
  refine ⟨items, _, l, codeBytes l (markerIndex m.code.toList) items,
    handlers ++ (locals ++ lines), hitems, hn, hlayout, ?_, hlength.trans hset.size_eq,
    hlength ▸ hset.fits, fun k item hk => hset.emitted hs hk fun target ht => ?_⟩
  · rw [hlength]
    simp only [List.append_assoc]
  · have hmarked := marked_of_checkLabels hlabels (hnode item (List.mem_of_getElem? hk)) ht
    rw [Std.HashMap.contains_eq_isSome_getElem?] at hmarked
    obtain ⟨i, hi⟩ := Option.isSome_iff_exists.1 hmarked
    have hlt := lt_of_markerIndex hi
    rw [← hn, List.length_map] at hlt
    exact ⟨i, Nat.le_of_lt hlt, hi⟩

/-- A loop around a switch. -/
def turning : Method :=
  { Method.create 9 "m" "()V" with
    code := (Code.empty.mark "loop").pushAll
      [.simple .ICONST_0, .tableSwitch 0 0 [0], .jump .GOTO 0] }

/-- None of its nodes has an entry in the pool. -/
def turningItems : List Item :=
  [⟨.label 0, 0⟩, ⟨.simple .ICONST_0, 0⟩, ⟨.tableSwitch 0 0 [0], 0⟩, ⟨.jump .GOTO 0, 0⟩]

theorem toList_turning : turning.code.toList = turningItems.map (·.node) := rfl

theorem markerIndex_turning : (markerIndex turning.code.toList)[(0 : Label)]? = some 0 := by
  simp [toList_turning, turningItems, markerIndex, Insn.marker?]

theorem layOut_turning {index : Std.HashMap Label Nat} (h : index[(0 : Label)]? = some 0)
    (signature : String) : layOut signature index turningItems = .ok (place ∅ turningItems) := by
  have hwide : (∅ : Std.HashSet Nat).contains = fun _ => false :=
    funext fun _ => Std.HashSet.contains_empty
  have hpc : ∀ i ≤ 4, (place ∅ turningItems).pcAt i = stop (fun _ => false) turningItems i :=
    fun i hi => hwide ▸ pcAt_place hi
  have hsize : (place ∅ turningItems).size = 23 := by
    rw [size_place, hwide]
    rfl
  have hgrow : (place ∅ turningItems).growing index turningItems = .ok [] := by
    refine growing_eq_nil fun i item hi => ?_
    rcases i with _ | _ | _ | _ | i <;> cases hi <;> try rfl
    unfold widens
    dsimp only
    rw [placeOf_of_marked h, hpc 0 (by decide), hpc 3 (by decide)]
    rfl
  unfold layOut settle
  dsimp only
  rw [hsize, if_neg (by decide), hgrow]
  rfl

theorem encodeBody_turning (b : PoolBuilder) : ∃ bytes, turning.encodeBody b = .ok (bytes, b) := by
  have hmarked : requireMarker (markerIndex turning.code.toList) 0 = .ok () := by
    rw [requireMarker, Std.HashMap.contains_eq_isSome_getElem?, markerIndex_turning]
    rfl
  have hlabels : turning.checkLabels (markerIndex turning.code.toList) = .ok () := by
    refine bind_eq_ok.2 ⟨(), forM_ok.2 fun i hi => ?_, rfl⟩
    have hnode : i.access? = none ∧ ∀ l ∈ i.targets, l = 0 := by
      rw [toList_turning] at hi
      revert i
      decide
    rw [checkNode, hnode.1]
    exact forM_ok.2 fun l hl => hnode.2 l hl ▸ hmarked
  have hitems : turning.code.toList.mapM itemOf b = .ok (turningItems, b) := rfl
  have hchecks : ∀ i ∈ turning.code.toList, Instruction.check i = .ok () := by
    rw [toList_turning]
    decide +kernel
  unfold encodeBody
  rw [PoolBuilder.bind_of_ok (PoolBuilder.lift_ok.2 ⟨hlabels, rfl⟩), PoolBuilder.bind_of_ok hitems,
    PoolBuilder.bind_of_ok (PoolBuilder.lift_ok.2 ⟨layOut_turning markerIndex_turning _, rfl⟩),
    PoolBuilder.bind_of_ok (PoolBuilder.forM_lift_ok.2 ⟨hchecks, rfl⟩)]
  exact ⟨_, rfl⟩

theorem turning_follows_layout :
    ∃ bytes, turning.encodeBody {} = .ok (bytes, {}) ∧ turning.FollowsLayout {} bytes := by
  obtain ⟨bytes, hbytes⟩ := encodeBody_turning {}
  exact ⟨bytes, hbytes, (emission_follows_layout turning).2 _ _ _ hbytes⟩

end Method

end ClassPatch
