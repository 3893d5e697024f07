-- The locals that code uses: its temporaries and how far its slots reach.
import ClassPatch.Code

namespace ClassPatch

/-! ## Slot numbers -/

/-- Slot numbers stop at the largest one. -/
def saturate (n : Nat) : UInt16 := UInt16.ofNat (min n 65535)

/-- The slot after `width` slots, or the largest one. -/
def advance (slot : UInt16) (width : Nat) : UInt16 := saturate (slot.toNat + width)

/-- The greatest of some slots, 0 for none. -/
def greatest (slots : List UInt16) : UInt16 := slots.foldl max 0

theorem toNat_max (a b : UInt16) : (max a b).toNat = max a.toNat b.toNat := by
  change (if a ≤ b then b else a).toNat = _
  split
  · rename_i h
    exact (Nat.max_eq_right (UInt16.le_iff_toNat_le.1 h)).symm
  · rename_i h
    have := UInt16.lt_iff_toNat_lt.1 (UInt16.not_le.1 h)
    exact (Nat.max_eq_left (Nat.le_of_lt this)).symm

theorem greatest_le {xs : List UInt16} {n : Nat} :
    (greatest xs).toNat ≤ n ↔ ∀ x ∈ xs, x.toNat ≤ n := by
  have hfold : ∀ a : UInt16, (xs.foldl max a).toNat ≤ n ↔ a.toNat ≤ n ∧ ∀ x ∈ xs, x.toNat ≤ n := by
    induction xs with
    | nil => simp
    | cons x xs ih =>
      intro a
      rw [List.foldl_cons, ih, toNat_max, List.forall_mem_cons, Nat.max_le, and_assoc]
  exact (hfold 0).trans (and_iff_right (Nat.zero_le n))

namespace Code

/-- Each local that the nodes access, with its width. -/
def accesses (nodes : List Node) : List (Local × Nat) := nodes.filterMap Insn.access?

/-- The accesses of slots. -/
def slotAccesses (nodes : List Node) : List (UInt16 × Nat) :=
  (accesses nodes).filterMap fun a =>
    match a.1 with
    | .slot n => some (n, a.2)
    | .temp _ => none

/-- The accesses of temporaries. -/
def tempAccesses (nodes : List Node) : List (UInt16 × Nat) :=
  (accesses nodes).filterMap fun a =>
    match a.1 with
    | .slot _ => none
    | .temp n => some (n, a.2)

/-- Notes an access; the widest one of a temporary counts. -/
def widen (temps : Dict UInt16 Nat) (a : UInt16 × Nat) : Dict UInt16 Nat :=
  temps.insert a.1 (max a.2 ((temps.get? a.1).getD 0))

/-- The temporaries in use with their widest access. -/
def temps (c : Code) : Dict UInt16 Nat := (tempAccesses c.toList).foldl widen []

/-- The first slot past every slot in use. -/
def frontier (c : Code) : UInt16 :=
  greatest ((slotAccesses c.toList).map fun a => advance a.1 a.2)

/-- A temporary becomes the slot that is bound to it, if one is. -/
def bindLocal (slots : Dict UInt16 UInt16) : Local → Local
  | .slot n => .slot n
  | .temp t => ((slots.get? t).map Local.slot).getD (.temp t)

def bindTemps (slots : Dict UInt16 UInt16) (c : Code) : Code :=
  c.mapNodes (Insn.mapLocal (bindLocal slots))

end Code

end ClassPatch
