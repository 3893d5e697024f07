-- Whether a class is an interface is written for calls only. So a field that
-- is said to be declared by one has the bytes of any other, and what is
-- written for a class is written for it without such flags.
import ClassPatch.Proofs.Naming
import ClassPatch.Proofs.Normal

namespace ClassPatch

/-! ## Nodes -/

namespace Insn
variable {α : Type}

/-- The operands are of the kind that the opcode takes. -/
def Suited : Insn α → Prop
  | .simple op => op.kind = .bare
  | .int op _ => op.kind = .int
  | .var op _ => op.kind = .var
  | .jump op _ => op.kind = .jump
  | .field op _ => op.kind = .field
  | .method op _ => op.kind = .method
  | .type op _ => op.kind = .type
  | _ => True

/-- A field that is declared by a class; any other node stays. -/
def unflag : Insn α → Insn α
  | .field op m => .field op { m with interface := false }
  | i => i

theorem Proper.suited {i : Insn α} (h : i.Proper) : i.Suited := by
  cases i <;> first | exact h | exact h.1

theorem Suited.proper_unflag {i : Insn α} (h : i.Suited) : i.unflag.Proper := by
  cases i <;> first | exact h | exact ⟨h, rfl⟩

theorem unflag_unflag (i : Insn α) : i.unflag.unflag = i.unflag := by
  cases i <;> rfl

theorem isReal_unflag (i : Insn α) : i.unflag.isReal = i.isReal := by
  cases i <;> rfl

theorem marker?_unflag (i : Insn α) : i.unflag.marker? = i.marker? := by
  cases i <;> rfl

theorem targets_unflag (i : Insn α) : i.unflag.targets = i.targets := by
  cases i <;> rfl

theorem access?_unflag (i : Insn α) : i.unflag.access? = i.access? := by
  cases i <;> rfl

theorem stackDelta_unflag (i : Insn α) : i.unflag.stackDelta = i.stackDelta := by
  cases i <;> rfl

theorem endsFlow_unflag (i : Insn α) : i.unflag.endsFlow = i.endsFlow := by
  cases i <;> rfl

theorem mapLabels_unflag {β : Type} (f : α → β) (i : Insn α) :
    i.unflag.mapLabels f = (i.mapLabels f).unflag := by
  cases i <;> rfl

end Insn

theorem unseen_unflag : Unseen (Insn.unflag : Node → Node) where
  size _ _ _ i := by cases i <;> rfl
  far _ _ i := by cases i <;> rfl
  goto i l h := by rw [h]; rfl
  operand i := by cases i <;> rfl
  check i := by cases i <;> rfl
  bytes _ _ _ _ i := by cases i <;> rfl

/-! ## Lists of nodes -/

section Nodes
variable (nodes : List Node)

theorem markers?_unflag : (nodes.map Insn.unflag).map Insn.marker? = nodes.map Insn.marker? := by
  simp only [List.map_map, Function.comp_def, Insn.marker?_unflag]

theorem markerIndex_unflag : markerIndex (nodes.map Insn.unflag) = markerIndex nodes :=
  markerIndex_congr (markers?_unflag nodes)

theorem realIndex_unflag : realIndex (nodes.map Insn.unflag) = realIndex nodes := by
  refine realIndex_congr (markers?_unflag nodes) ?_
  simp only [List.map_map, Function.comp_def, Insn.isReal_unflag]

theorem lineMarks_unflag (before : Nat) :
    lineMarks before (nodes.map Insn.unflag) = lineMarks before nodes := by
  induction nodes generalizing before with
  | nil => rfl
  | cons i nodes ih => cases i <;> simp only [List.map_cons, Insn.unflag, lineMarks, ih]

end Nodes

/-! ## Code -/

namespace Code

/-- The code without flags at its fields. -/
def unflagged (c : Code) : Code := c.mapNodes Insn.unflag

theorem toList_unflagged (c : Code) : c.unflagged.toList = c.toList.map Insn.unflag :=
  toList_mapNodes Insn.unflag_unflag c

theorem frontier_unflagged (c : Code) : c.unflagged.frontier = c.frontier := by
  unfold frontier slotAccesses accesses
  rw [toList_unflagged, List.filterMap_map]
  simp only [Function.comp_def, Insn.access?_unflag]

theorem visit_unflag (index : Std.HashMap Label Nat) (size : Nat) (s : Spread) (i : Nat)
    (node : Node) : s.visit index size i node.unflag = s.visit index size i node := by
  unfold Spread.visit successors depthAfter
  simp only [Insn.targets_unflag, Insn.endsFlow_unflag, Insn.stackDelta_unflag]

theorem maxStack_unflagged (c : Code) : c.unflagged.maxStack = c.maxStack := by
  have hempty : c.unflagged.isEmpty = c.isEmpty := rfl
  have hhandlers : c.unflagged.handlers = c.handlers := rfl
  have hrun := Spread.run_map fun node (_ : node ∈ c.toList.toArray) s i =>
    visit_unflag (markerIndex c.toList) c.toList.length s i node
  unfold maxStack
  simp only [hempty, hhandlers, toList_unflagged, markerIndex_unflag, List.length_map,
    ← List.map_toArray, hrun]

end Code

/-! ## Methods -/

namespace Method
open PoolBuilder

def unflagged (m : Method) : Method := { m with code := m.code.unflagged }

theorem outline_unflagged (m : Method) : m.unflagged.outline = m.outline.mapInsns Insn.unflag := by
  unfold outline unflagged Outline.mapInsns
  simp only [Code.toList_unflagged, realIndex_unflag, lineMarks_unflag,
    realNodes_map Insn.isReal_unflag, List.map_map]
  congr 1
  exact List.map_congr_left fun i _ => Insn.mapLabels_unflag ..

theorem checkLabels_unflagged (m : Method) (index : Std.HashMap Label Nat) :
    m.unflagged.checkLabels index = m.checkLabels index := by
  have hnode : ∀ i : Node, checkNode index i.unflag = checkNode index i := by
    intro i
    unfold checkNode
    rw [Insn.access?_unflag, Insn.targets_unflag]
  have hnodes : m.unflagged.code.toList.forM (checkNode index) =
      m.code.toList.forM (checkNode index) := by
    rw [unflagged, Code.toList_unflagged]
    induction m.code.toList with
    | nil => rfl
    | cons i nodes ih =>
      change (checkNode index i.unflag >>= fun _ => (nodes.map Insn.unflag).forM _) = _
      rw [hnode, ih]
      rfl
  unfold checkLabels
  rw [hnodes]
  rfl

theorem neededLocals_unflagged (m : Method) : m.unflagged.neededLocals = m.neededLocals := by
  unfold neededLocals
  rw [unflagged, Code.frontier_unflagged]
  rfl

theorem encodeBody_unflagged {m : Method} {b b' : PoolBuilder} {bytes : List UInt8}
    (h : m.encodeBody b = .ok (bytes, b')) : m.unflagged.encodeBody b = .ok (bytes, b') := by
  obtain ⟨hlabels, rest, hwrites, rfl⟩ := writes_of_encodeBody h
  have hindex : markerIndex m.unflagged.code.toList = markerIndex m.code.toList := by
    rw [unflagged, Code.toList_unflagged, markerIndex_unflag]
  have hlimit : m.unflagged.code.maxStack = m.code.maxStack := m.code.maxStack_unflagged
  rw [← hlimit, ← m.neededLocals_unflagged]
  refine encodeBody_of_writes ?_ ?_
  · rw [hindex, checkLabels_unflagged, hlabels]
  · rw [outline_unflagged]
    exact unseen_unflag.writes hwrites

/-- The flags of fields are not written. -/
theorem encode_unflagged {m : Method} {b b' : PoolBuilder} {bytes : List UInt8}
    (h : m.encode b = .ok (bytes, b')) : m.unflagged.encode b = .ok (bytes, b') := by
  have hhead : m.unflagged.encodeHead = m.encodeHead := rfl
  by_cases hempty : m.code.isEmpty
  · rw [encode_of_empty (m := m.unflagged) hempty, hhead, ← encode_of_empty hempty, h]
  · rw [encode_of_nonempty hempty] at h
    obtain ⟨head, b₁, hm, h⟩ := bind_ok.1 h
    obtain ⟨body, b₂, hbody, h⟩ := bind_ok.1 h
    rw [encode_of_nonempty (m := m.unflagged) hempty, hhead]
    exact bind_ok.2 ⟨head, b₁, hm, bind_ok.2 ⟨body, b₂, encodeBody_unflagged hbody, h⟩⟩

/-- The same of a row of methods. -/
theorem mapM_encode_unflagged {ms : List Method} {b b' : PoolBuilder} {bss : List (List UInt8)}
    (h : ms.mapM encode b = .ok (bss, b')) : (ms.map unflagged).mapM encode b = .ok (bss, b') := by
  induction ms generalizing b b' bss with
  | nil => exact h
  | cons m ms ih =>
    rw [List.mapM_cons] at h
    obtain ⟨bytes, b₁, hbytes, h⟩ := bind_ok.1 h
    obtain ⟨rest, b₂, hrest, h⟩ := bind_ok.1 h
    rw [List.map_cons, List.mapM_cons]
    exact bind_ok.2 ⟨bytes, b₁, encode_unflagged hbytes, bind_ok.2 ⟨rest, b₂, ih hrest, h⟩⟩

/-- Every branch of the method leads to an instruction. -/
theorem lands_unflagged {m : Method} : m.unflagged.outline.Lands ↔ m.outline.Lands := by
  rw [outline_unflagged]
  unfold Outline.Lands Outline.mapInsns
  rw [List.length_map, List.forall_mem_map]
  simp only [Insn.targets_unflag]

/-- Without flags, nodes with operands of the right kind are proper. -/
theorem proper_unflagged {m : Method} (h : ∀ i ∈ m.code.toList, i.Suited) :
    m.unflagged.Proper := by
  unfold Proper unflagged
  rw [Code.toList_unflagged]
  exact List.forall_mem_map.2 fun i hi => (h i hi).proper_unflag

end Method

/-! ## Classes -/

namespace Class
open PoolBuilder

def unflagged (c : Class) : Class := { c with methods := c.methods.map Method.unflagged }

theorem encode_unflagged {c : Class} {bytes : List UInt8} (h : c.encode = .ok bytes) :
    c.unflagged.encode = .ok bytes := by
  obtain ⟨hfields, hmethods, body, b, hbody, hbytes⟩ := encode_ok.1 h
  rw [encodeBody_eq] at hbody
  obtain ⟨front, b₁, hfront, hbody⟩ := bind_ok.1 hbody
  obtain ⟨count, b₂, hcount, hbody⟩ := bind_ok.1 hbody
  obtain ⟨bss, b₃, hbss, hbody⟩ := bind_ok.1 hbody
  refine encode_ok.2 ⟨hfields, ?_, body, b, ?_, hbytes⟩
  · rwa [unflagged, List.map_map]
  · rw [encodeBody_eq]
    refine bind_ok.2 ⟨front, b₁, hfront, bind_ok.2 ⟨count, b₂, ?_, bind_ok.2 ⟨bss, b₃, ?_, hbody⟩⟩⟩
    · rwa [unflagged, List.length_map]
    · exact Method.mapM_encode_unflagged hbss

/-- A class of suited nodes and valid descriptors that was written is read
back exactly if all branches lead to instructions. -/
theorem decode_encode_iff {c : Class} {bytes : List UInt8} (he : c.encode = .ok bytes)
    (hmajor : c.major ≤ formatMajor)
    (hfields : ∀ f ∈ c.fields, (Descriptor.fieldWidth? f.desc).isSome)
    (hmethods : ∀ m ∈ c.methods, (Descriptor.methodShape? m.desc).isSome ∧
      ∀ i ∈ m.code.toList, i.Suited) :
    (∃ d, decode bytes = .ok d) ↔ ∀ m ∈ c.methods, m.outline.Lands := by
  have he := encode_unflagged he
  have hproper : c.unflagged.Proper :=
    List.forall_mem_map.2 fun m hm => Method.proper_unflagged (hmethods m hm).2
  constructor
  · rintro ⟨d, hd⟩ m hm
    have hw := (wellFormed_of_decode hproper he hd).methods _ (List.mem_map_of_mem hm)
    exact Method.lands_unflagged.1 (Method.lands_outline.2 hw.branches)
  · intro hlands
    have hw : c.unflagged.WellFormed := by
      refine ⟨hmajor, hfields, List.forall_mem_map.2 fun m hm => ⟨(hmethods m hm).1, ?_, ?_⟩⟩
      · exact Method.proper_unflagged (hmethods m hm).2
      · exact Method.lands_outline.1 (Method.lands_unflagged.2 (hlands m hm))
    obtain ⟨ds, hd, _⟩ := decode_of_encode hw he
    exact ⟨_, hd⟩

end Class

end ClassPatch
