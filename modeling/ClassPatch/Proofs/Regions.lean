-- Where the regions of a search lie, whatever is looked for and wherever:
-- in bounds, one after the other, each at a node of the needle's kind and
-- with no protected range that begins or ends inside.
import ClassPatch.Proofs.Occurrences

namespace ClassPatch.Code

/-- A region that starts like its needle and divides no protected range. -/
structure Placed (host needle : Code) (first : Nat) (r : Region) : Prop where
  first_le : first ≤ r.start
  start_lt : r.start < r.stop
  stop_le : r.stop ≤ host.toList.length
  starts : StartsAlike (withoutLines needle.toList) (host.toList.drop r.start)
  undivided : Undivided (host.handlers.toList.flatMap Handler.labels)
    (host.toList.drop r.start) (r.stop - r.start)

/-- A match uses up nodes that are there, at least one for every piece. -/
theorem reach_matchPieces {t t' : Ties} {index stop : Nat} {ps : List Piece} {host : List Node}
    (hm : matchPieces t index ps host = some (t', stop)) :
    index + ps.length ≤ stop ∧ stop ≤ index + host.length := by
  induction ps generalizing t index host with
  | nil =>
    simp only [matchPieces, Option.some.injEq, Prod.mk.injEq] at hm
    simp [← hm.2]
  | cons p ps ih =>
    have hlen := length_lead_add_past host
    cases p with
    | place ls =>
      by_cases hrun : markers (lead host) = []
      · rw [matchPieces_place_of_nil t index ls ps hrun] at hm
        cases hm
      · rw [matchPieces_place t index ls ps hrun] at hm
        obtain ⟨t₁, _, hm⟩ := Option.bind_eq_some_iff.1 hm
        have hlead : 0 < (lead host).length := by
          apply List.length_pos_iff.2
          intro hnil
          rw [hnil] at hrun
          exact hrun rfl
        have := ih hm
        simp only [List.length_cons]
        omega
    | node i =>
      cases hp : past host with
      | nil =>
        rw [matchPieces_node_of_nil t index i ps hp] at hm
        cases hm
      | cons h rest =>
        rw [matchPieces_node t index i ps hp] at hm
        obtain ⟨t₁, _, hm⟩ := Option.bind_eq_some_iff.1 hm
        rw [hp] at hlen
        have := ih hm
        simp only [List.length_cons] at hlen ⊢
        omega

theorem placed_occurrence? {host needle : Code} {start : Nat} {nodes : List Node} {r : Region}
    (hnodes : host.toList.drop start = nodes)
    (hr : occurrence? host.boundaries (pieces needle.toList) start nodes = some r) :
    r.start = start ∧ Placed host needle start r := by
  cases nodes with
  | nil => cases hr
  | cons i rest =>
    simp only [occurrence?] at hr
    by_cases hw : startsWell (pieces needle.toList) i = true
    · rw [if_pos hw] at hr
      have hstarts := (startsWell_iff (separate_pieces needle.toList) i rest).1 hw
      rw [nodes_pieces] at hstarts
      split at hr
      · cases hr
      · rename_i t stop hm
        split at hr
        · rename_i hk
          cases hr
          obtain ⟨hlow, hhigh⟩ := reach_matchPieces hm
          have hpieces : 0 < (pieces needle.toList).length := by
            apply List.length_pos_iff.2
            intro hnil
            rw [hnil] at hw
            cases hw
          have hlen := congrArg List.length hnodes
          rw [List.length_drop] at hlen
          have hundivided := (keepsRanges_iff _ i rest (stop - start)).1 hk
          refine ⟨rfl, Nat.le_refl _, ?_, ?_, ?_, ?_⟩
          · simp only
            omega
          · simp only [List.length_cons] at hlen hhigh ⊢
            omega
          · rw [hnodes]
            exact hstarts
          · rw [hnodes]
            exact hundivided
        · cases hr
    · rw [if_neg hw] at hr
      cases hr

theorem Placed.mono {host needle : Code} {first first' : Nat} {r : Region}
    (h : Placed host needle first r) (hle : first' ≤ first) : Placed host needle first' r :=
  ⟨Nat.le_trans hle h.first_le, h.start_lt, h.stop_le, h.starts, h.undivided⟩

theorem placed_findFrom {host needle : Code} {nodes : List Node} (skip : Nat) {start : Nat}
    (hnodes : host.toList.drop start = nodes) :
    (∀ r ∈ findFrom host.boundaries (pieces needle.toList) [] skip start nodes,
      Placed host needle (start + skip) r) ∧
    (findFrom host.boundaries (pieces needle.toList) [] skip start nodes).Pairwise
      fun r r' => r.stop ≤ r'.start := by
  induction nodes generalizing skip start with
  | nil => simp [findFrom]
  | cons i rest ih =>
    have hrest : host.toList.drop (start + 1) = rest := by
      rw [← List.drop_drop, hnodes]
      rfl
    cases skip with
    | succ skip =>
      simp only [findFrom]
      rw [show start + (skip + 1) = start + 1 + skip by omega]
      exact ih skip hrest
    | zero =>
      simp only [findFrom]
      split
      · rename_i r hr
        obtain ⟨hstart, hplaced⟩ := placed_occurrence? hnodes hr
        have hlt := hplaced.start_lt
        obtain ⟨hall, hpair⟩ := ih (r.stop - start - 1) hrest
        rw [show start + 1 + (r.stop - start - 1) = r.stop by omega] at hall
        rw [findFrom_eq_append, List.reverse_singleton, List.singleton_append,
          List.forall_mem_cons, List.pairwise_cons]
        refine ⟨⟨hplaced, fun q hq => (hall q hq).mono (by omega)⟩, ?_, hpair⟩
        exact fun q hq => (hall q hq).first_le
      · obtain ⟨hall, hpair⟩ := ih 0 hrest
        exact ⟨fun q hq => (hall q hq).mono (by omega), hpair⟩

/-- The regions of a needle lie one after the other. -/
theorem placed_findAll (host needle : Code) :
    (∀ r ∈ findAll host needle, Placed host needle 0 r) ∧
    (findAll host needle).Pairwise fun r r' => r.stop ≤ r'.start := by
  unfold findAll
  split
  · simp
  · exact placed_findFrom 0 (List.drop_zero ..)

end ClassPatch.Code
