-- The places of markers in a list of nodes. Markers share a place if as many
-- instructions stand before the one as before the other, and the groups that
-- a splice makes of removed markers are those that share one.
import ClassPatch.Proofs.Splicing

namespace ClassPatch

/-! ## Places -/

/-- A marker of the label stands after so many instructions. -/
def MarkedAt (nodes : List Node) (n : Nat) (l : Label) : Prop :=
  ∃ before after, nodes = before ++ .label l :: after ∧ before.countP Insn.isReal = n

/-- The labels are the same, or have markers with no instruction between them. -/
def SamePlace (nodes : List Node) (k l : Label) : Prop :=
  k = l ∨ ∃ n, MarkedAt nodes n k ∧ MarkedAt nodes n l

section Places
variable {nodes : List Node} {n m : Nat} {i : Node} {k l : Label}

theorem MarkedAt.mem (h : MarkedAt nodes n l) : l ∈ markers nodes := by
  obtain ⟨before, after, rfl, -⟩ := h
  exact mem_markers.2 (List.mem_append_right _ (List.mem_cons_self ..))

theorem MarkedAt.le (h : MarkedAt nodes n l) : n ≤ nodes.countP Insn.isReal := by
  obtain ⟨before, after, rfl, rfl⟩ := h
  rw [List.countP_append]
  exact Nat.le_add_right ..

theorem MarkedAt.append (h : MarkedAt nodes n l) (more : List Node) :
    MarkedAt (nodes ++ more) n l := by
  obtain ⟨before, after, rfl, hcount⟩ := h
  exact ⟨before, after ++ more, List.append_assoc .., hcount⟩

theorem MarkedAt.prepend (h : MarkedAt nodes n l) (less : List Node) :
    MarkedAt (less ++ nodes) (less.countP Insn.isReal + n) l := by
  obtain ⟨before, after, rfl, rfl⟩ := h
  exact ⟨less ++ before, after, (List.append_assoc ..).symm, List.countP_append⟩

theorem markedAt_concat : MarkedAt (nodes ++ [i]) n l ↔
    MarkedAt nodes n l ∨ i = .label l ∧ nodes.countP Insn.isReal = n := by
  constructor
  · rintro ⟨before, after, h, hcount⟩
    rcases List.eq_nil_or_concat after with rfl | ⟨after, j, rfl⟩
    · obtain ⟨rfl, hi⟩ := List.append_inj' h rfl
      exact .inr ⟨List.singleton_inj.1 hi, hcount⟩
    · rw [List.concat_eq_append, ← List.cons_append, ← List.append_assoc] at h
      exact .inl ⟨before, after, (List.append_inj' h rfl).1, hcount⟩
  · rintro (h | ⟨rfl, hcount⟩)
    · exact h.append [i]
    · exact ⟨nodes, [], rfl, hcount⟩

/-- A label that is marked once has one place. -/
theorem MarkedAt.unique (hn : (markers nodes).Nodup) (h : MarkedAt nodes n l)
    (h' : MarkedAt nodes m l) : n = m := by
  induction nodes using List.reverseRecOn with
  | nil => exact absurd h.mem List.not_mem_nil
  | append_singleton nodes i ih =>
    rw [markers_append, List.nodup_append] at hn
    have twice : i = .label l → l ∉ markers nodes := by
      rintro rfl hl
      exact hn.2.2 l hl l (List.mem_singleton_self l) rfl
    rcases markedAt_concat.1 h with h | ⟨hi, rfl⟩
    · rcases markedAt_concat.1 h' with h' | ⟨hi, -⟩
      · exact ih hn.1 h h'
      · exact absurd h.mem (twice hi)
    · rcases markedAt_concat.1 h' with h' | ⟨-, rfl⟩
      · exact absurd h'.mem (twice hi)
      · rfl

theorem SamePlace.trans {j : Label} (hn : (markers nodes).Nodup) (h : SamePlace nodes j k)
    (h' : SamePlace nodes k l) : SamePlace nodes j l := by
  rcases h with rfl | ⟨n, hj, hk⟩
  · exact h'
  · rcases h' with rfl | ⟨m, hk', hl⟩
    · exact .inr ⟨n, hj, hk⟩
    · cases hk.unique hn hk'
      exact .inr ⟨n, hj, hl⟩

end Places

namespace Code

/-! ## Groups of markers -/

/-- The list is of all labels with a marker at one place. -/
def Gathers (nodes : List Node) (n : Nat) (run : List Label) : Prop :=
  ∀ l, l ∈ run ↔ MarkedAt nodes n l

/-- The groups so far: one for each place before the last instruction, and an
open one for the place after it. -/
structure Runs.Sorted (nodes : List Node) (r : Runs) : Prop where
  last : Gathers nodes (nodes.countP Insn.isReal) r.open_
  one : ∀ run ∈ r.done, ∃ n < nodes.countP Insn.isReal, Gathers nodes n run
  each : ∀ n < nodes.countP Insn.isReal, ∃ run ∈ r.done, Gathers nodes n run

variable {nodes : List Node} {r : Runs} {i : Node}

/-- A group stays complete unless a marker follows at its place. -/
theorem Gathers.concat {n : Nat} {run : List Label} (h : Gathers nodes n run)
    (hi : i.marker? = none ∨ n < nodes.countP Insn.isReal) : Gathers (nodes ++ [i]) n run := by
  intro l
  rw [h l, markedAt_concat]
  refine ⟨.inl, fun hl => hl.resolve_right ?_⟩
  rintro ⟨rfl, rfl⟩
  rcases hi with hi | hi
  · cases hi
  · exact Nat.lt_irrefl _ hi

/-- Before the next instruction only the open group changes. -/
theorem Runs.Sorted.pseudo (h : r.Sorted nodes) (hi : i.isReal = false) {last : List Label}
    (hlast : Gathers (nodes ++ [i]) (nodes.countP Insn.isReal) last) :
    Runs.Sorted (nodes ++ [i]) { r with open_ := last } := by
  have hcount : (nodes ++ [i]).countP Insn.isReal = nodes.countP Insn.isReal := by
    rw [List.countP_append, List.countP_singleton, hi]
    rfl
  constructor <;> rw [hcount]
  · exact hlast
  · intro run hrun
    obtain ⟨n, hn, hg⟩ := h.one run hrun
    exact ⟨n, hn, hg.concat (.inr hn)⟩
  · intro n hn
    obtain ⟨run, hrun, hg⟩ := h.each n hn
    exact ⟨run, hrun, hg.concat (.inr hn)⟩

theorem Runs.Sorted.label (h : r.Sorted nodes) (k : Label) :
    (r.add (.label k)).Sorted (nodes ++ [.label k]) := by
  refine h.pseudo rfl fun l => ?_
  rw [markedAt_concat, ← h.last l]
  simp only [List.mem_cons, Insn.label.injEq, and_true, or_comm, eq_comm]

theorem Runs.Sorted.line (h : r.Sorted nodes) (n : UInt16) :
    (r.add (.line n)).Sorted (nodes ++ [.line n]) :=
  h.pseudo rfl (h.last.concat (.inl rfl))

/-- The group that is closed is complete, whatever follows. -/
theorem Runs.Sorted.close (h : r.Sorted nodes) :
    (∀ run ∈ r.close.done, ∃ n ≤ nodes.countP Insn.isReal, Gathers nodes n run) ∧
    ∀ n ≤ nodes.countP Insn.isReal, ∃ run ∈ r.close.done, Gathers nodes n run := by
  have hopen : Gathers nodes (nodes.countP Insn.isReal) r.open_.reverse := fun l => by
    rw [List.mem_reverse, h.last l]
  constructor
  · intro run hrun
    rcases List.mem_cons.1 hrun with rfl | hrun
    · exact ⟨_, Nat.le_refl _, hopen⟩
    · obtain ⟨n, hn, hg⟩ := h.one run hrun
      exact ⟨n, Nat.le_of_lt hn, hg⟩
  · intro n hn
    rcases Nat.lt_or_eq_of_le hn with hn | rfl
    · obtain ⟨run, hrun, hg⟩ := h.each n hn
      exact ⟨run, List.mem_cons_of_mem _ hrun, hg⟩
    · exact ⟨_, List.mem_cons_self .., hopen⟩

theorem Runs.Sorted.real (h : r.Sorted nodes) (hi : i.isReal) : r.close.Sorted (nodes ++ [i]) := by
  have hmarker : i.marker? = none := by
    cases hm : i.marker? with
    | none => rfl
    | some l =>
      cases i <;> cases hm
      cases hi
  have hcount : (nodes ++ [i]).countP Insn.isReal = nodes.countP Insn.isReal + 1 := by
    rw [List.countP_append, List.countP_singleton, if_pos hi]
  obtain ⟨hone, heach⟩ := h.close
  refine ⟨fun l => ⟨nofun, fun hl => ?_⟩, ?_, ?_⟩
  · rw [hcount, markedAt_concat] at hl
    rcases hl with hl | ⟨rfl, -⟩
    · exact absurd hl.le (Nat.not_succ_le_self _)
    · cases hmarker
  · rw [hcount]
    intro run hrun
    obtain ⟨n, hn, hg⟩ := hone run hrun
    exact ⟨n, Nat.lt_succ_of_le hn, hg.concat (.inl hmarker)⟩
  · rw [hcount]
    intro n hn
    obtain ⟨run, hrun, hg⟩ := heach n (Nat.le_of_lt_succ hn)
    exact ⟨run, hrun, hg.concat (.inl hmarker)⟩

theorem sorted_foldl (nodes : List Node) : (nodes.foldl Runs.add {}).Sorted nodes := by
  induction nodes using List.reverseRecOn with
  | nil =>
    refine ⟨fun l => ⟨nofun, fun h => absurd h.mem List.not_mem_nil⟩, nofun, nofun⟩
  | append_singleton nodes i ih =>
    rw [List.foldl_append]
    cases i with
    | label k => exact ih.label k
    | line n => exact ih.line n
    | _ => exact ih.real rfl

/-- Each group of markers is of one place, and each place has its group. -/
theorem gathers_markerRuns (nodes : List Node) :
    (∀ run ∈ markerRuns nodes, ∃ n, Gathers nodes n run) ∧
    ∀ n l, MarkedAt nodes n l → ∃ run ∈ markerRuns nodes, Gathers nodes n run := by
  obtain ⟨hone, heach⟩ := (sorted_foldl nodes).close
  constructor
  · intro run hrun
    obtain ⟨n, -, hg⟩ := hone run (List.mem_reverse.1 hrun)
    exact ⟨n, hg⟩
  · intro n l hl
    obtain ⟨run, hrun, hg⟩ := heach n hl.le
    exact ⟨run, List.mem_reverse.2 hrun, hg⟩

/-! ## The table of groups -/

theorem getElem?_insertAll (run ks : List Label) (m : Std.HashMap Label (List Label)) (k : Label) :
    (ks.foldl (fun m l => m.insert l run) m)[k]? = if k ∈ ks then some run else m[k]? := by
  induction ks generalizing m with
  | nil => rfl
  | cons j ks ih =>
    rw [List.foldl_cons, ih, Std.HashMap.getElem?_insert]
    simp only [List.mem_cons, beq_iff_eq, eq_comm (a := j)]
    by_cases hk : k ∈ ks <;> by_cases hj : k = j <;> simp [hk, hj]

/-- What is looked up is a group with the label, if there is one. -/
theorem getElem?_insertRuns (runs : List (List Label)) (k : Label) :
    let m := runs.foldl (fun m run => run.foldl (fun m l => m.insert l run) m)
      (∅ : Std.HashMap Label (List Label))
    (m[k]? = none ∧ ∀ run ∈ runs, k ∉ run) ∨ ∃ run ∈ runs, k ∈ run ∧ m[k]? = some run := by
  induction runs using List.reverseRecOn with
  | nil => exact .inl ⟨Std.HashMap.getElem?_empty, nofun⟩
  | append_singleton runs run ih =>
    dsimp only at ih ⊢
    rw [List.foldl_append, List.foldl_cons, List.foldl_nil, getElem?_insertAll]
    by_cases hk : k ∈ run
    · rw [if_pos hk]
      exact .inr ⟨run, List.mem_append_right _ (List.mem_singleton_self run), hk, rfl⟩
    · rw [if_neg hk]
      rcases ih with ⟨hnone, hno⟩ | ⟨run', hrun', hin, hsome⟩
      · refine .inl ⟨hnone, fun run' hrun' => ?_⟩
        rcases List.mem_append.1 hrun' with hrun' | hrun'
        · exact hno run' hrun'
        · rw [List.mem_singleton.1 hrun']
          exact hk
      · exact .inr ⟨run', List.mem_append_left _ hrun', hin, hsome⟩

/-- The table has for each label the others that share its place. -/
theorem samePlace_iff (hn : (markers nodes).Nodup) (k l : Label) :
    SamePlace nodes k l ↔ l = k ∨ l ∈ (runTable nodes).getD k [] := by
  obtain ⟨hone, heach⟩ := gathers_markerRuns nodes
  have hlookup : ((runTable nodes)[k]? = none ∧
      ∀ run ∈ (markerRuns nodes).filter (·.length > 1), k ∉ run) ∨
        ∃ run ∈ (markerRuns nodes).filter (·.length > 1), k ∈ run ∧
          (runTable nodes)[k]? = some run := getElem?_insertRuns _ k
  rw [Std.HashMap.getD_eq_getD_getElem?]
  constructor
  · rintro (rfl | ⟨n, hk, hl⟩)
    · exact .inl rfl
    by_cases hkl : l = k
    · exact .inl hkl
    obtain ⟨run, hrun, hg⟩ := heach n k hk
    have hkrun := (hg k).2 hk
    have hlong : run.length > 1 := by
      by_contra hshort
      obtain ⟨j, rfl⟩ := List.length_eq_one_iff.1
        (Nat.le_antisymm (Nat.le_of_not_lt hshort) (List.length_pos_of_mem hkrun))
      exact hkl ((List.mem_singleton.1 ((hg l).2 hl)).trans (List.mem_singleton.1 hkrun).symm)
    have hfilter : run ∈ (markerRuns nodes).filter (·.length > 1) :=
      List.mem_filter.2 ⟨hrun, decide_eq_true hlong⟩
    rcases hlookup with ⟨-, hno⟩ | ⟨run', hrun', hk', hsome⟩
    · exact absurd hkrun (hno run hfilter)
    · obtain ⟨m, hg'⟩ := hone run' (List.mem_filter.1 hrun').1
      cases hk.unique hn ((hg' k).1 hk')
      rw [hsome]
      exact .inr ((hg' l).2 hl)
  · rintro (rfl | hl)
    · exact .inl rfl
    rcases hlookup with ⟨hnone, -⟩ | ⟨run, hrun, hk, hsome⟩
    · rw [hnone] at hl
      cases hl
    · rw [hsome] at hl
      obtain ⟨n, hg⟩ := hone run (List.mem_filter.1 hrun).1
      exact .inr ⟨n, (hg k).1 hk, (hg l).1 hl⟩

end Code

end ClassPatch
