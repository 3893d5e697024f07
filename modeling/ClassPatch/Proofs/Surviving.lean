-- What a splice leaves alone: every label of the host keeps its marker, and
-- its side of every node that stays. So an instruction that stays is in the
-- same ranges as before.
import ClassPatch.Proofs.Inserted

namespace ClassPatch

/-! ## Before, after, between -/

/-- The label is marked before the node at an index. -/
def Before (nodes : List Node) (l : Label) (i : Nat) : Prop := l ∈ markers (nodes.take i)

/-- The label is marked after the node at an index. -/
def After (nodes : List Node) (l : Label) (i : Nat) : Prop := l ∈ markers (nodes.drop (i + 1))

/-- The node at an index is in the range `[start, stop)` of a handler or a debug entry. -/
def Covers (nodes : List Node) (start stop : Label) (i : Nat) : Prop :=
  Before nodes start i ∧ After nodes stop i

/-- A label that is marked once has its marker before, at or after a node, in one way. -/
theorem after_iff {nodes : List Node} {l : Label} (hl : (markers nodes).count l = 1) (i : Nat) :
    After nodes l i ↔ ¬ Before nodes l i ∧ nodes[i]? ≠ some (.label l) := by
  by_cases hi : i < nodes.length
  · have hsplit : nodes = nodes.take i ++ ([nodes[i]] ++ nodes.drop (i + 1)) := by simp
    have hget : nodes[i]? = some nodes[i] := List.getElem?_eq_getElem hi
    have hsum := congrArg (fun ns => (markers ns).count l) hsplit
    simp only [markers_append, List.count_append, hl] at hsum
    simp only [Before, After, hget, ne_eq, Option.some.injEq, ← List.count_pos_iff]
    have hat : 0 < (markers [nodes[i]]).count l ↔ nodes[i] = .label l := by
      simp [List.count_pos_iff, mem_markers, eq_comm]
    rw [← hat]
    omega
  · have hlen : nodes.length ≤ i := Nat.le_of_not_lt hi
    simp only [Before, After, List.take_of_length_le hlen,
      List.drop_eq_nil_of_le (Nat.le_succ_of_le hlen)]
    have hmem : l ∈ markers nodes := List.count_pos_iff.1 (by omega)
    constructor
    · exact fun h => nomatch h
    · exact fun h => absurd hmem h.1

/-! ## Nodes that stay -/

/-- The node at an index is not among `count` nodes from `index` on. -/
def Stays (index count i : Nat) : Prop := i < index ∨ index + count ≤ i

/-- Where a node that stays is once there are `inserted` nodes in the gap. -/
def landing (index count inserted i : Nat) : Nat := if i < index then i else i - count + inserted

section Gap
variable {nodes put : List Node} {index count i : Nat}

theorem getElem?_landing (hi : i < nodes.length) (hs : Stays index count i) :
    (nodes.take index ++ put ++ nodes.drop (index + count))[landing index count put.length i]? =
      nodes[i]? := by
  unfold landing
  split
  · rename_i hlt
    rw [List.append_assoc, List.getElem?_append_left (by simp; omega), List.getElem?_take_of_lt hlt]
  · have hle : index + count ≤ i := hs.resolve_left (by omega)
    rw [List.getElem?_append_right (by simp; omega), List.getElem?_drop]
    congr 1
    simp
    omega

/-- Where the gap is filled with the label's marker if it had one, the label
stays before the same nodes. -/
theorem before_landing {l : Label} (hi : i < nodes.length) (hs : Stays index count i)
    (hl : l ∈ markers put ↔ l ∈ markers ((nodes.drop index).take count)) :
    Before (nodes.take index ++ put ++ nodes.drop (index + count)) l
      (landing index count put.length i) ↔ Before nodes l i := by
  unfold Before landing
  split
  · rename_i hlt
    rw [List.append_assoc, List.take_append_of_le_length (by simp; omega), List.take_take,
      Nat.min_eq_left (by omega)]
  · have hle : index + count ≤ i := hs.resolve_left (by omega)
    have hlen : (nodes.take index ++ put).length = index + put.length := by simp; omega
    have hnew : (nodes.take index ++ put ++ nodes.drop (index + count)).take
        (i - count + put.length) =
          nodes.take index ++ put ++ (nodes.drop (index + count)).take (i - (index + count)) := by
      rw [show i - count + put.length = (nodes.take index ++ put).length + (i - (index + count)) by
        omega, List.take_length_add_append]
    have hold : nodes.take i = nodes.take index ++ (nodes.drop index).take count ++
        (nodes.drop (index + count)).take (i - (index + count)) := by
      rw [← List.take_add, ← List.take_add]
      congr 1
      omega
    simp only [hnew, hold, markers_append, List.mem_append, hl]

end Gap

namespace Code

/-! ## The law of splices -/

/-- A splice that disturbs neither the host's labels nor the ranges that
they stand for. Any two of them are a range, of a handler or of a debug entry. -/
structure Undisturbed (host fragment : Code) (index count : Nat) (result : Nat × Code) :
    Prop where
  once : ∀ l ∈ markers host.toList, (markers result.2.toList).count l = 1
  order : ∃ put, put.length = result.1 ∧ result.2.toList =
    host.toList.take index ++ put ++ host.toList.drop (index + count)
  lands : ∀ i < host.toList.length, Stays index count i →
    result.2.toList[landing index count result.1 i]? = host.toList[i]?
  sides : ∀ l ∈ markers host.toList, ∀ i < host.toList.length, Stays index count i →
    host.toList[i]? ≠ some (.label l) →
      (Before result.2.toList l (landing index count result.1 i) ↔ Before host.toList l i) ∧
      (After result.2.toList l (landing index count result.1 i) ↔ After host.toList l i)
  ranges : ∀ start ∈ markers host.toList, ∀ stop ∈ markers host.toList,
    ∀ i < host.toList.length, Stays index count i →
      (Covers result.2.toList start stop (landing index count result.1 i) ↔
        Covers host.toList start stop i)
  handlers : ∃ own, own.length = fragment.handlers.size ∧
    result.2.handlers.toList = own ++ host.handlers.toList

/-- A splice leaves every label of the host where it was, seen from the nodes that stay,
whatever it takes away and whatever the fragment binds. -/
theorem splice_undisturbed {host fragment : Code} (h : host.Stored) (hb : fragment.Binds host)
    (hn : (markers host.toList).Nodup) (index count : Nat) :
    Undisturbed host fragment index count (host.splice index count fragment) := by
  have hshape := toList_splice h hb index count
  have hlen := length_insertion h hb index count
  have hone : ∀ l ∈ markers host.toList, (markers host.toList).count l = 1 := fun l hl => by
    rw [hn.count, if_pos hl]
  have hnew : ∀ l ∈ markers host.toList,
      (markers (host.splice index count fragment).2.toList).count l = 1 :=
    fun l hl => count_splice h hb index count (hone l hl)
  have hlands : ∀ i < host.toList.length, Stays index count i →
      (host.splice index count fragment).2.toList[
        landing index count (host.splice index count fragment).1 i]? = host.toList[i]? := by
    intro i hi hs
    rw [hshape, ← hlen]
    exact getElem?_landing hi hs
  have hbefore : ∀ l ∈ markers host.toList, ∀ i < host.toList.length, Stays index count i →
      (Before (host.splice index count fragment).2.toList l
        (landing index count (host.splice index count fragment).1 i) ↔ Before host.toList l i) := by
    intro l hl i hi hs
    rw [hshape, ← hlen]
    exact before_landing hi hs (mem_insertion h hb (hone l hl))
  have hafter : ∀ l ∈ markers host.toList, ∀ i < host.toList.length, Stays index count i →
      (After (host.splice index count fragment).2.toList l
        (landing index count (host.splice index count fragment).1 i) ↔ After host.toList l i) := by
    intro l hl i hi hs
    rw [after_iff (hnew l hl), after_iff (hone l hl), hbefore l hl i hi hs, hlands i hi hs]
  refine ⟨hnew, ⟨_, hlen, hshape⟩, hlands, ?_, ?_, ?_⟩
  · exact fun l hl i hi hs _ => ⟨hbefore l hl i hi hs, hafter l hl i hi hs⟩
  · exact fun start hstart stop hstop i hi hs =>
      and_congr (hbefore start hstart i hi hs) (hafter stop hstop i hi hs)
  · refine ⟨fragment.handlers.toList.map (Handler.mapLabels (adopt host fragment).map), ?_, ?_⟩
    · simp
    · simp [splice]

/-- An instruction in a protected range that has a marker at each end. -/
def guardedHost : Code :=
  ((((Code.empty.mark "try").push (.simple .NOP)).mark "end").push (.simple .RETURN)).addHandler
    ⟨0, 2, 2, none⟩

/-- Code that takes the end of the range along. -/
def closingFragment : Code :=
  ((Code.empty.push (.simple .ICONST_0)).mark "end").pullLabels { labels := [("end", 2)] }

theorem guarded_splice_undisturbed :
    Undisturbed guardedHost closingFragment 1 2 (guardedHost.splice 1 2 closingFragment) := by
  refine splice_undisturbed (by decide) ?_ (by decide) 1 2
  intro l i hi
  have : closingFragment.imports = [(1, ⟨2, true⟩)] := by decide
  have he := Dict.mem_of_get? (this ▸ hi)
  simp only [List.mem_singleton, Prod.mk.injEq] at he
  rw [he.2]
  decide

end Code

end ClassPatch
