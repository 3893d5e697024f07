-- What a region says of a needle's labels: each one that the needle marks
-- or branches to stands for a label that the host marks or branches to.
-- This holds of any needle and any host.
import ClassPatch.Proofs.Ties

namespace ClassPatch.Code

namespace Ties

/-- The ties say something of the label. -/
def Knows (t : Ties) (l : Label) : Prop := (t.fixed.get? l).isSome ∨ (t.runs.get? l).isSome

/-- What labels are tied to, or may be, are labels in `places`. -/
structure Within (places : List Label) (t : Ties) : Prop where
  fixed : ∀ l h, t.fixed.get? l = some h → h ∈ places
  runs : ∀ l run, t.runs.get? l = some run → run ≠ [] ∧ ∀ h ∈ run, h ∈ places

/-- A turn ties labels to places of the host and loses none. -/
structure Captures (places known : List Label) (t t' : Ties) : Prop where
  keeps : ∀ l, t.Knows l → t'.Knows l
  knows : ∀ l ∈ known, t'.Knows l
  within : t.Within places → t'.Within places

variable {places : List Label}

theorem Captures.refl (t : Ties) : Captures places [] t t :=
  ⟨fun _ h => h, (fun _ h => nomatch h), fun h => h⟩

theorem Captures.trans {k₁ k₂ : List Label} {t₁ t₂ t₃ : Ties} (h₁ : Captures places k₁ t₁ t₂)
    (h₂ : Captures places k₂ t₂ t₃) : Captures places (k₁ ++ k₂) t₁ t₃ := by
  refine ⟨fun l hl => h₂.keeps l (h₁.keeps l hl), ?_, fun h => h₂.within (h₁.within h)⟩
  intro l hl
  rcases List.mem_append.1 hl with hl | hl
  · exact h₂.keeps l (h₁.knows l hl)
  · exact h₂.knows l hl

theorem captures_fixed (t : Ties) {needle host : Label} (hh : host ∈ places) :
    Captures places [needle] t { t with fixed := t.fixed.insert needle host } := by
  refine ⟨?_, ?_, fun h => ⟨Dict.forall_get?_insert hh h.fixed, h.runs⟩⟩
  · exact fun l hl => hl.imp_left fun h => (Dict.isSome_get?_insert ..).2 (.inr h)
  · intro l hl
    exact .inl ((Dict.isSome_get?_insert ..).2 (.inl (List.mem_singleton.1 hl)))

theorem captures_runs (t : Ties) {needle : Label} {run : List Label} (hn : run ≠ [])
    (hr : ∀ h ∈ run, h ∈ places) :
    Captures places [needle] t { t with runs := t.runs.insert needle run } := by
  refine ⟨?_, ?_, fun h => ⟨h.fixed, Dict.forall_get?_insert ⟨hn, hr⟩ h.runs⟩⟩
  · exact fun l hl => hl.imp_right fun h => (Dict.isSome_get?_insert ..).2 (.inr h)
  · intro l hl
    exact .inr ((Dict.isSome_get?_insert ..).2 (.inl (List.mem_singleton.1 hl)))

theorem captures_known {t : Ties} {l : Label} (h : t.Knows l) : Captures places [l] t t :=
  ⟨fun _ h => h, (fun _ hl => List.mem_singleton.1 hl ▸ h), fun h => h⟩

/-! ## Single turns -/

theorem captures_target {t t' : Ties} {needle host : Label} (hh : host ∈ places)
    (h : t.target needle host = some t') : Captures places [needle] t t' := by
  unfold target at h
  split at h
  · rename_i l hl
    split at h
    · cases h
      exact captures_known (.inl (by rw [hl]; rfl))
    · cases h
  · split at h
    · split at h
      · cases h
        exact captures_fixed t hh
      · cases h
    · cases h
      exact captures_fixed t hh

theorem captures_marker {t t' : Ties} {run : List Label} {needle : Label} (hn : run ≠ [])
    (hr : ∀ h ∈ run, h ∈ places) (h : t.marker run needle = some t') :
    Captures places [needle] t t' := by
  unfold marker at h
  split at h
  · rename_i l hl
    split at h
    · cases h
      exact captures_known (.inl (by rw [hl]; rfl))
    · cases h
  · cases h
    exact captures_runs t hn hr

theorem captures_local {t t' : Ties} {needle host : Local} (h : t.local? needle host = some t') :
    Captures places [] t t' := by
  unfold local? at h
  split at h
  · split at h
    · split at h
      · cases h
        exact .refl _
      · cases h
    · cases h
      exact ⟨fun _ h => h, (fun _ h => nomatch h), fun h => ⟨h.fixed, h.runs⟩⟩
  · split at h
    · cases h
      exact .refl _
    · cases h

theorem captures_targets {t t' : Ties} {needle host : List Label} (hh : ∀ l ∈ host, l ∈ places)
    (h : matchTargets t needle host = some t') : Captures places needle t t' := by
  induction needle generalizing host t with
  | nil =>
    cases host with
    | nil =>
      cases h
      exact .refl _
    | cons => cases h
  | cons n ns ih =>
    cases host with
    | nil => cases h
    | cons l ls =>
      unfold matchTargets at h
      split at h
      · rename_i t₁ h₁
        exact (captures_target (hh l (List.mem_cons_self ..)) h₁).trans
          (ih (fun k hk => hh k (List.mem_cons_of_mem _ hk)) h)
      · cases h

theorem captures_markers {t t' : Ties} {run labels : List Label} (hn : run ≠ [])
    (hr : ∀ h ∈ run, h ∈ places) (h : labels.foldlM (Ties.marker run) t = some t') :
    Captures places labels t t' := by
  induction labels generalizing t with
  | nil =>
    cases h
    exact .refl _
  | cons l ls ih =>
    rw [List.foldlM_cons] at h
    obtain ⟨t₁, h₁, h₂⟩ := Option.bind_eq_some_iff.1 h
    exact (captures_marker hn hr h₁).trans (ih h₂)

theorem captures_node {t t' : Ties} {i h : Node} (hh : ∀ l ∈ h.targets, l ∈ places)
    (hm : matchNode t i h = some t') : Captures places i.targets t t' := by
  unfold matchNode at hm
  split at hm <;> first
    | (split at hm
       · first
         | (cases hm; exact .refl _)
         | exact captures_local hm
         | exact captures_target (hh _ (List.mem_singleton_self _)) hm
         | exact captures_targets hh hm
       · cases hm)
    | cases hm

/-- Every label that the ties know stands for one of the host. -/
theorem get?_labels_of_within {t : Ties} (hw : t.Within places) {l : Label} (hl : t.Knows l) :
    ∃ h, t.labels.get? l = some h := by
  have hne : t.runs.get? l ≠ some [] := fun h => (hw.runs l [] h).1 rfl
  rw [labels, get?_foldl_settle hne]
  cases hf : t.fixed.get? l with
  | some h => exact ⟨h, rfl⟩
  | none =>
    rcases hl with hl | hl
    · rw [hf] at hl
      cases hl
    · obtain ⟨run, hr⟩ := Option.isSome_iff_exists.1 hl
      obtain ⟨k, ks, rfl⟩ := List.exists_cons_of_ne_nil (hw.runs l run hr).1
      exact ⟨k, by rw [hr]; rfl⟩

theorem mem_places_of_labels {t : Ties} (hw : t.Within places) {l h : Label}
    (hl : t.labels.get? l = some h) : h ∈ places := by
  have hne : t.runs.get? l ≠ some [] := fun h => (hw.runs l [] h).1 rfl
  rw [labels, get?_foldl_settle hne] at hl
  cases hf : t.fixed.get? l with
  | some k =>
    rw [hf] at hl
    cases hl
    exact hw.fixed l _ hf
  | none =>
    rw [hf] at hl
    obtain ⟨run, hr, hk⟩ := Option.bind_eq_some_iff.1 hl
    exact (hw.runs l run hr).2 h (List.mem_of_head? hk)

end Ties

/-! ## The whole match -/

/-- What a piece of a needle mentions. -/
def Piece.mentions : Piece → List Label
  | .place ls => ls
  | .node i => i.targets

theorem mentions_addPiece (i : Node) (ps : List Piece) :
    (addPiece i ps).flatMap Piece.mentions = i.labels ++ ps.flatMap Piece.mentions := by
  cases i with
  | label l =>
    cases ps with
    | nil => rfl
    | cons p ps => cases p <;> rfl
  | _ => rfl

theorem mentions_pieces (needle : List Node) :
    (pieces needle).flatMap Piece.mentions = needle.flatMap Insn.labels := by
  induction needle with
  | nil => rfl
  | cons i needle ih =>
    have hc : pieces (i :: needle) = addPiece i (pieces needle) := rfl
    rw [hc, mentions_addPiece, ih, List.flatMap_cons]

theorem mem_labels_of_marker {i : Node} {l : Label} (h : i.marker? = some l) : l ∈ i.labels := by
  cases i <;> cases h
  exact List.mem_singleton_self _

theorem targets_sub_labels {i : Node} {l : Label} (h : l ∈ i.targets) : l ∈ i.labels := by
  cases i <;> first | exact h | cases h

theorem captures_pieces (places : List Label) {ps : List Piece} {host : List Node}
    (hh : ∀ i ∈ host, ∀ l ∈ i.labels, l ∈ places) {index stop : Nat} {t t' : Ties}
    (hm : matchPieces t index ps host = some (t', stop)) :
    Ties.Captures places (ps.flatMap Piece.mentions) t t' := by
  induction ps generalizing host index t with
  | nil =>
    cases hm
    exact .refl _
  | cons p ps ih =>
    have htail : ∀ rest : List Node, rest.Sublist host → ∀ i ∈ rest, ∀ l ∈ i.labels, l ∈ places :=
      fun rest hr i hi => hh i (hr.subset hi)
    have hpast := List.dropWhile_sublist (l := host) Insn.isPseudo
    cases p with
    | place ls =>
      simp only [matchPieces] at hm
      split at hm
      · cases hm
      · rename_i hrun
        split at hm
        · rename_i t₁ h₁
          refine (Ties.captures_markers ?_ ?_ h₁).trans (ih (htail _ hpast) hm)
          · simpa using hrun
          · intro l hl
            obtain ⟨i, hi, hl⟩ := List.mem_filterMap.1 hl
            exact htail _ (List.takeWhile_sublist _) i hi l (mem_labels_of_marker hl)
        · cases hm
    | node i =>
      simp only [matchPieces] at hm
      split at hm
      · cases hm
      · rename_i h rest hp
        rw [hp] at hpast
        split at hm
        · rename_i t₁ h₁
          refine (Ties.captures_node ?_ h₁).trans
            (ih (htail _ ((List.sublist_cons_self ..).trans hpast)) hm)
          exact fun l hl => htail _ hpast h (List.mem_cons_self ..) l (targets_sub_labels hl)
        · cases hm

/-- What a region captures of a needle in a host. -/
structure Captured (needle host : List Node) (r : Region) : Prop where
  known : ∀ l ∈ needle.flatMap Insn.labels, ∃ h, r.labels.get? l = some h
  places : ∀ l h, r.labels.get? l = some h → h ∈ host.flatMap Insn.labels

theorem captured_occurrence? {ends : Std.HashSet Label} {needle all host : List Node} {start : Nat}
    {r : Region} (hsub : ∀ i ∈ host, i ∈ all)
    (hr : occurrence? ends (pieces needle) start host = some r) : Captured needle all r := by
  unfold occurrence? at hr
  split at hr
  · cases hr
  · split at hr
    · split at hr
      · cases hr
      · rename_i t stop hm
        split at hr
        · cases hr
          have hc := captures_pieces (all.flatMap Insn.labels)
            (fun i hi l hl => List.mem_flatMap.2 ⟨i, hsub i hi, hl⟩) hm
          have hw := hc.within ⟨(fun _ _ h => nomatch h), (fun _ _ h => nomatch h)⟩
          refine ⟨fun l hl => ?_, fun l h hl => Ties.mem_places_of_labels hw hl⟩
          exact Ties.get?_labels_of_within hw (hc.knows l (by rwa [mentions_pieces]))
        · cases hr
    · cases hr

theorem captured_findFrom {ends : Std.HashSet Label} {needle all nodes : List Node}
    {found : List Region} {skip start : Nat} (hsub : ∀ i ∈ nodes, i ∈ all)
    (hf : ∀ r ∈ found, Captured needle all r) :
    ∀ r ∈ findFrom ends (pieces needle) found skip start nodes, Captured needle all r := by
  induction nodes generalizing found skip start with
  | nil =>
    intro r hr
    exact hf r (List.mem_reverse.1 hr)
  | cons i rest ih =>
    have hrest : ∀ j ∈ rest, j ∈ all := fun j hj => hsub j (List.mem_cons_of_mem _ hj)
    cases skip with
    | succ skip => exact ih hrest hf
    | zero =>
      simp only [findFrom]
      split
      · rename_i r hr
        refine ih hrest fun q hq => ?_
        rcases List.mem_cons.1 hq with rfl | hq
        · exact captured_occurrence? hsub hr
        · exact hf q hq
      · exact ih hrest hf

theorem captured_findAll {host needle : Code} {r : Region} (hr : r ∈ findAll host needle) :
    Captured needle.toList host.toList r := by
  unfold findAll at hr
  split at hr
  · cases hr
  · exact captured_findFrom (fun _ h => h) (by simp) r hr

end ClassPatch.Code
