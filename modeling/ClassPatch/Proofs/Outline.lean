-- What a container keeps of a method's code. Handles, markers and the places
-- of line numbers between markers are lost; every label becomes the number of
-- real instructions before its marker.
import ClassPatch.Proofs.Forms
import ClassPatch.Proofs.Storage

namespace ClassPatch

/-! ## Real indices -/

/-- How many of the first nodes stand for bytes. -/
def realBefore (nodes : List Node) (i : Nat) : Nat := (nodes.take i).countP Insn.isReal

/-- The index of the real instruction that a label leads to, their number if
it leads to the end. -/
def realIndex (nodes : List Node) (l : Label) : Nat :=
  realBefore nodes ((markerIndex nodes).getD l nodes.length)

/-- The line numbers, each with the index of the real instruction that
follows it. -/
def lineMarks (before : Nat) : List Node → List (Nat × UInt16)
  | [] => []
  | .line n :: nodes => (before, n) :: lineMarks before nodes
  | .label _ :: nodes => lineMarks before nodes
  | _ :: nodes => lineMarks (before + 1) nodes

theorem realBefore_le (nodes : List Node) (i : Nat) :
    realBefore nodes i ≤ nodes.countP Insn.isReal :=
  List.Sublist.countP_le (List.take_sublist i nodes)

theorem realIndex_le (nodes : List Node) (l : Label) :
    realIndex nodes l ≤ nodes.countP Insn.isReal := realBefore_le _ _

/-- Where labels lead to depends on the markers and on which nodes are instructions. -/
theorem realIndex_congr {nodes nodes' : List Node}
    (hm : nodes.map Insn.marker? = nodes'.map Insn.marker?)
    (hr : nodes.map Insn.isReal = nodes'.map Insn.isReal) : realIndex nodes = realIndex nodes' := by
  have hlength : nodes.length = nodes'.length := by simpa using congrArg List.length hm
  have hbefore : ∀ i, realBefore nodes i = realBefore nodes' i := by
    intro i
    have hcount : ∀ ns : List Node, ns.countP Insn.isReal = (ns.map Insn.isReal).countP id :=
      fun ns => by rw [List.countP_map, Function.id_comp]
    rw [realBefore, realBefore, hcount, hcount, List.map_take, List.map_take, hr]
  funext l
  rw [realIndex, realIndex, hbefore, markerIndex_congr hm, hlength]

theorem realBefore_cons_succ (i : Node) (nodes : List Node) (k : Nat) :
    realBefore (i :: nodes) (k + 1) = realBefore nodes k + if i.isReal then 1 else 0 := by
  unfold realBefore
  rw [List.take_succ_cons, List.countP_cons]

theorem lineMarks_cons (before : Nat) (i : Node) (nodes : List Node) :
    lineMarks before (i :: nodes) =
      (match i with | .line n => [(before, n)] | _ => []) ++
        lineMarks (before + if i.isReal then 1 else 0) nodes := by
  cases i <;> rfl

theorem lineMarks_append (before : Nat) (a b : List Node) :
    lineMarks before (a ++ b) =
      lineMarks before a ++ lineMarks (before + a.countP Insn.isReal) b := by
  induction a generalizing before with
  | nil => rfl
  | cons i a ih =>
    rw [List.cons_append, lineMarks_cons, lineMarks_cons, ih, List.append_assoc, List.countP_cons,
      Nat.add_assoc, Nat.add_comm (a.countP _)]

/-- Line numbers stand in the order of the instructions. -/
theorem lineMarks_bounds (before : Nat) (nodes : List Node) :
    (lineMarks before nodes).Pairwise (·.1 ≤ ·.1) ∧
      ∀ l ∈ lineMarks before nodes, before ≤ l.1 ∧ l.1 ≤ before + nodes.countP Insn.isReal := by
  induction nodes generalizing before with
  | nil => exact ⟨.nil, nofun⟩
  | cons i nodes ih =>
    obtain ⟨hp, hb⟩ := ih (before + if i.isReal then 1 else 0)
    rw [lineMarks_cons]
    have hrest : ∀ l ∈ lineMarks (before + if i.isReal then 1 else 0) nodes,
        before ≤ l.1 ∧ l.1 ≤ before + (i :: nodes).countP Insn.isReal := by
      intro l hl
      have := hb l hl
      rw [List.countP_cons]
      omega
    cases i with
    | line n =>
      refine ⟨List.pairwise_cons.2 ⟨fun l hl => (hrest l hl).1, hp⟩, fun l hl => ?_⟩
      rcases List.mem_cons.1 hl with rfl | hl
      · exact ⟨Nat.le_refl _, Nat.le_add_right _ _⟩
      · exact hrest l hl
    | _ => exact ⟨hp, hrest⟩

/-! ## Outlines -/

def LocalVar.mapLabels (f : Label → Label) (v : LocalVar) : LocalVar :=
  { v with start := f v.start, stop := f v.stop }

/-- A method's code with real indices for labels. -/
structure Outline where
  insns : List Node
  handlers : List Handler
  locals : List LocalVar
  lines : List (Nat × UInt16)

def Method.outline (m : Method) : Outline where
  insns := (realNodes m.code.toList).map (Insn.mapLabels (realIndex m.code.toList))
  handlers := m.code.handlers.toList.map (Handler.mapLabels (realIndex m.code.toList))
  locals := m.locals.map (LocalVar.mapLabels (realIndex m.code.toList))
  lines := lineMarks 0 m.code.toList

namespace Outline

/-- What reading gives for what was written: sparse switches by ascending key,
and no empty range, no inverted debug entry and no line number at the end. -/
def settled (o : Outline) : Outline where
  insns := o.insns.map Insn.sortKeys
  handlers := o.handlers.filter fun h => h.start < h.stop
  locals := o.locals.filter fun v => v.start ≤ v.stop
  lines := o.lines.filter fun l => l.1 < o.insns.length

/-- Only real instructions, and no index past the end. -/
structure Bounded (o : Outline) : Prop where
  real : ∀ i ∈ o.insns, i.isReal
  targets : ∀ i ∈ o.insns, ∀ l ∈ i.targets, l ≤ o.insns.length
  ranges : ∀ h ∈ o.handlers, ∀ l ∈ h.labels, l ≤ o.insns.length
  locals : ∀ v ∈ o.locals, v.start ≤ o.insns.length ∧ v.stop ≤ o.insns.length
  lines : ∀ l ∈ o.lines, l.1 ≤ o.insns.length
  ordered : o.lines.Pairwise (·.1 ≤ ·.1)

end Outline

theorem Method.length_outline (m : Method) :
    m.outline.insns.length = m.code.toList.countP Insn.isReal := by
  unfold outline realNodes
  rw [List.length_map, List.countP_eq_length_filter]

theorem Method.bounded_outline (m : Method) : m.outline.Bounded := by
  have hn := m.length_outline
  have hle : ∀ l, realIndex m.code.toList l ≤ m.outline.insns.length := fun l =>
    hn ▸ realIndex_le _ l
  obtain ⟨hordered, hlines⟩ := lineMarks_bounds 0 m.code.toList
  refine ⟨?_, ?_, ?_, ?_, ?_, hordered⟩
  · intro i hi
    obtain ⟨j, hj, rfl⟩ := List.mem_map.1 hi
    rw [Insn.isReal_mapLabels]
    exact (List.mem_filter.1 hj).2
  · intro i hi l hl
    obtain ⟨j, _, rfl⟩ := List.mem_map.1 hi
    rw [Insn.targets_mapLabels] at hl
    obtain ⟨k, _, rfl⟩ := List.mem_map.1 hl
    exact hle k
  · intro h hh l hl
    obtain ⟨g, _, rfl⟩ := List.mem_map.1 hh
    have : l ∈ g.labels.map (realIndex m.code.toList) := hl
    obtain ⟨k, _, rfl⟩ := List.mem_map.1 this
    exact hle k
  · intro v hv
    obtain ⟨u, _, rfl⟩ := List.mem_map.1 hv
    exact ⟨hle _, hle _⟩
  · intro l hl
    have := (hlines l hl).2
    rwa [Nat.zero_add, ← hn] at this

end ClassPatch
