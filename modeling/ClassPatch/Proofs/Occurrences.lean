-- The search against the meaning of a needle: an occurrence is a stretch of
-- the host that the needle's nodes match under one assignment. The search
-- gives exactly the occurrences that a walk from the front would take.
import ClassPatch.Proofs.Ties

namespace ClassPatch

def Insn.isLine {α : Type} : Insn α → Bool
  | .line _ => true
  | _ => false

namespace Code

/-! ## What an occurrence is -/

/-- The nodes that a needle asks for. -/
def withoutLines (nodes : List Node) : List Node := nodes.filter fun i => !i.isLine

/-- The markers and lines at the front. -/
def lead (host : List Node) : List Node := host.takeWhile Insn.isPseudo

/-- What follows the markers and lines at the front. -/
def past (host : List Node) : List Node := host.dropWhile Insn.isPseudo

/-- The needle's nodes match so many nodes at the front of the host. Before
an instruction the host's markers and lines are passed over; markers side
by side stand for markers of one place of the host. -/
inductive Aligned (a : Assignment) : List Node → List Node → Nat → Prop
  | nil {host : List Node} : Aligned a [] host 0
  | instruction {i h : Node} {needle host rest : List Node} {n : Nat} (hi : i.isReal)
      (hp : past host = h :: rest) (hn : a.onNode i = h) (tail : Aligned a needle rest n) :
      Aligned a (i :: needle) host ((lead host).length + 1 + n)
  | place {labels : List Label} {needle host : List Node} {n : Nat} (hl : labels ≠ [])
      (hn : ∀ l, needle.head? ≠ some (.label l))
      (hm : ∀ l ∈ labels, a.label l ∈ markers (lead host))
      (tail : Aligned a needle (past host) n) :
      Aligned a (labels.map Insn.label ++ needle) host ((lead host).length + n)

/-- A needle that starts with a marker starts at one, any other at an instruction. -/
def StartsAlike (needle host : List Node) : Prop :=
  ∃ i h, needle.head? = some i ∧ host.head? = some h ∧ h.isLine = false ∧
    (h.marker?.isSome ↔ i.marker?.isSome)

/-- No protected range starts, ends or is handled after the first and before the last of `n`
nodes. -/
def Undivided (ends : List Label) (host : List Node) (n : Nat) : Prop :=
  ∀ k l, 0 < k → k < n → host[k]? = some (.label l) → l ∉ ends

/-- The needle's nodes occur at the front of the host and take `n` nodes of it. -/
structure OccursAt (ends : List Label) (needle host : List Node) (a : Assignment) (n : Nat) :
    Prop where
  aligned : Aligned a needle host n
  starts : StartsAlike needle host
  undivided : Undivided ends host n

/-- The needle occurs in the host between two indices. -/
def Occurs (host needle : Code) (a : Assignment) (start stop : Nat) : Prop :=
  ∃ n, stop = start + n ∧
    OccursAt (host.handlers.toList.flatMap Handler.labels) (withoutLines needle.toList)
      (host.toList.drop start) a n

/-- The assignment gives the labels and temporaries of a region what the region says. -/
structure Extends (a : Assignment) (r : Region) : Prop where
  labels : ∀ n h, r.labels.get? n = some h → a.label n = h
  slots : ∀ n s, r.slots.get? n = some s → a.slot n = s

/-! ## Reading an alignment back -/

theorem aligned_nil {a : Assignment} {host : List Node} {n : Nat} :
    Aligned a [] host n ↔ n = 0 := by
  constructor
  · intro h
    generalize hd : ([] : List Node) = needle at h
    cases h with
    | nil => rfl
    | instruction => cases hd
    | place hl =>
      have := (List.append_eq_nil_iff.1 hd.symm).1
      exact absurd (List.map_eq_nil_iff.1 this) hl
  · rintro rfl
    exact .nil

theorem aligned_instruction {a : Assignment} {i : Node} {needle host : List Node} {n : Nat}
    (hi : i.isReal) :
    Aligned a (i :: needle) host n ↔
      ∃ h rest m, past host = h :: rest ∧ a.onNode i = h ∧ Aligned a needle rest m ∧
        n = (lead host).length + 1 + m := by
  constructor
  · intro h
    generalize hd : i :: needle = nodes at h
    cases h with
    | nil => cases hd
    | instruction _ hp hn tail =>
      cases hd
      exact ⟨_, _, _, hp, hn, tail, rfl⟩
    | @place labels _ _ _ hl =>
      cases labels with
      | nil => exact absurd rfl hl
      | cons l ls =>
        cases hd
        cases hi
  · rintro ⟨h, rest, m, hp, hn, tail, rfl⟩
    exact .instruction hi hp hn tail

/-- The labels at the front of a list of nodes are told from what follows. -/
theorem map_label_append_inj {ls ls' : List Label} {ns ns' : List Node}
    (hn : ∀ l, ns.head? ≠ some (.label l)) (hn' : ∀ l, ns'.head? ≠ some (.label l))
    (h : ls.map Insn.label ++ ns = ls'.map Insn.label ++ ns') : ls = ls' ∧ ns = ns' := by
  induction ls generalizing ls' with
  | nil =>
    cases ls' with
    | nil => exact ⟨rfl, h⟩
    | cons l ls' => exact absurd (by rw [show ns = _ from h]; rfl) (hn l)
  | cons k ks ih =>
    cases ls' with
    | nil => exact absurd (by rw [← show _ = ns' from h]; rfl) (hn' k)
    | cons l ls' =>
      simp only [List.map_cons, List.cons_append, List.cons.injEq, Insn.label.injEq] at h
      obtain ⟨rfl, rfl⟩ := ih h.2
      exact ⟨by rw [h.1], rfl⟩

theorem aligned_place {a : Assignment} {labels : List Label} {needle host : List Node} {n : Nat}
    (hl : labels ≠ []) (hh : ∀ l, needle.head? ≠ some (.label l)) :
    Aligned a (labels.map Insn.label ++ needle) host n ↔
      (∀ l ∈ labels, a.label l ∈ markers (lead host)) ∧
        ∃ m, Aligned a needle (past host) m ∧ n = (lead host).length + m := by
  constructor
  · intro h
    generalize hd : labels.map Insn.label ++ needle = nodes at h
    cases h with
    | nil =>
      have := (List.append_eq_nil_iff.1 hd).1
      exact absurd (List.map_eq_nil_iff.1 this) hl
    | instruction hi =>
      cases labels with
      | nil => exact absurd rfl hl
      | cons l ls =>
        cases hd
        cases hi
    | place _ hn hm tail =>
      obtain ⟨rfl, rfl⟩ := map_label_append_inj hh hn hd
      exact ⟨hm, _, tail, rfl⟩
  · rintro ⟨hm, m, tail, rfl⟩
    exact .place hl hh hm tail

/-- How far an alignment reaches does not depend on the assignment. -/
theorem Aligned.reach_unique {a b : Assignment} {needle host : List Node} {n m : Nat}
    (h : Aligned a needle host n) (h' : Aligned b needle host m) : n = m := by
  induction h generalizing m with
  | nil => exact (aligned_nil.1 h').symm
  | instruction hi hp _ _ ih =>
    obtain ⟨_, _, k, hp', _, tail, rfl⟩ := (aligned_instruction hi).1 h'
    rw [hp] at hp'
    cases hp'
    rw [ih tail]
  | place hl hn _ _ ih =>
    obtain ⟨_, k, tail, rfl⟩ := (aligned_place hl hn).1 h'
    rw [ih tail]

theorem length_lead_add_past (host : List Node) :
    (lead host).length + (past host).length = host.length := by
  rw [← List.length_append, lead, past, List.takeWhile_append_dropWhile]

theorem Aligned.reach_le {a : Assignment} {needle host : List Node} {n : Nat}
    (h : Aligned a needle host n) : n ≤ host.length := by
  induction h with
  | nil => exact Nat.zero_le _
  | @instruction _ _ _ host rest _ _ hp _ _ ih =>
    have := length_lead_add_past host
    rw [hp, List.length_cons] at this
    omega
  | @place _ _ host _ _ _ _ _ ih =>
    have := length_lead_add_past host
    omega

/-! ## Nodes against nodes -/

namespace Ties

/-- A turn under a fixed condition. -/
theorem Decides.guard {marks : List Label} {c : Assignment → Prop} {f : Ties → Option Ties}
    (p : Prop) [Decidable p] (h : Decides marks c f) :
    Decides marks (fun a => p ∧ c a) (fun t => if p then f t else none) := by
  by_cases hp : p
  · simp only [hp, true_and, if_true]
    exact h
  · intro t _ _
    simp only [hp, if_false, false_and]
    intro _ _ hc
    exact hc

/-- What a node stands for has the node's form. -/
theorem ctorIdx_onNode (a : Assignment) (i : Node) : (a.onNode i).ctorIdx = i.ctorIdx := by
  cases i <;> rfl

theorem matchNode_of_ctorIdx_ne {i h : Node} (hne : i.ctorIdx ≠ h.ctorIdx) (t : Ties) :
    matchNode t i h = none := by
  cases i <;> cases h <;> first | rfl | exact absurd rfl hne

/-- Nodes of two forms never match. -/
theorem decides_clash {i h : Node} (hne : i.ctorIdx ≠ h.ctorIdx) :
    Decides [] (fun a => a.onNode i = h) (fun t => matchNode t i h) := by
  intro t _ _
  dsimp only
  rw [matchNode_of_ctorIdx_ne hne]
  intro a _ hc
  exact hne (by rw [← hc, ctorIdx_onNode])

theorem eq_iff_map_eq {α β : Type} {p q : List (α × β)} :
    p = q ↔ p.map (·.1) = q.map (·.1) ∧ p.map (·.2) = q.map (·.2) := by
  constructor
  · rintro rfl
    exact ⟨rfl, rfl⟩
  · rintro ⟨h₁, h₂⟩
    rw [← List.zip_unzip p, ← List.zip_unzip q, List.unzip_eq_map, List.unzip_eq_map, h₁, h₂]

/-- A node of the needle asks that it stands for the node of the host. -/
theorem decides_node {i h : Node} (hi : i.isReal) (hh : h.NoTemp) :
    Decides [] (fun a => a.onNode i = h) (fun t => matchNode t i h) := by
  by_cases hk : i.ctorIdx = h.ctorIdx
  · cases i <;> cases h <;> try (exfalso; cases hk; done)
    case label.label => cases hi
    case line.line => cases hi
    case simple.simple op op' =>
      exact (decides_keep (op = op')).congr fun a => by
        simp [Assignment.onNode, Insn.mapLabels, Insn.mapLocal]
    case int.int op v op' v' =>
      exact (decides_keep (op = op' ∧ v = v')).congr fun a => by
        simp [Assignment.onNode, Insn.mapLabels, Insn.mapLocal]
    case ldc.ldc c c' =>
      exact (decides_keep (c = c')).congr fun a => by
        simp [Assignment.onNode, Insn.mapLabels, Insn.mapLocal]
    case var.var op x op' y =>
      have hy : ∀ t, y ≠ .temp t := by
        rintro t rfl
        exact hh t _ rfl
      exact ((decides_local x hy).guard (op = op')).congr fun a => by
        simp [Assignment.onNode, Insn.mapLabels, Insn.mapLocal]
    case iinc.iinc x d y d' =>
      have hy : ∀ t, y ≠ .temp t := by
        rintro t rfl
        exact hh t _ rfl
      exact ((decides_local x hy).guard (d = d')).congr fun a => by
        simp [Assignment.onNode, Insn.mapLabels, Insn.mapLocal, and_comm]
    case jump.jump op l op' l' =>
      exact ((decides_target l l').guard (op = op')).congr fun a => by
        simp [Assignment.onNode, Insn.mapLabels, Insn.mapLocal]
    case field.field op m op' m' =>
      exact (decides_keep (op = op' ∧ m = m')).congr fun a => by
        simp [Assignment.onNode, Insn.mapLabels, Insn.mapLocal]
    case method.method op m op' m' =>
      exact (decides_keep (op = op' ∧ m = m')).congr fun a => by
        simp [Assignment.onNode, Insn.mapLabels, Insn.mapLocal]
    case type.type op c op' c' =>
      exact (decides_keep (op = op' ∧ c = c')).congr fun a => by
        simp [Assignment.onNode, Insn.mapLabels, Insn.mapLocal]
    case tableSwitch.tableSwitch low d ts low' d' ts' =>
      exact ((decides_targets (d :: ts) (d' :: ts')).guard (low = low')).congr fun a => by
        simp [Assignment.onNode, Insn.mapLabels, Insn.mapLocal]
    case lookupSwitch.lookupSwitch d ps d' ps' =>
      have hd := decides_targets (d :: ps.map (·.2)) (d' :: ps'.map (·.2))
      refine (hd.guard (ps.map (·.1) = ps'.map (·.1))).congr fun a => ?_
      simp only [Assignment.onNode, Insn.mapLabels, Insn.mapLocal, Insn.lookupSwitch.injEq,
        eq_iff_map_eq (q := ps'), List.map_cons, List.map_map, List.cons.injEq]
      exact and_left_comm
  · exact decides_clash hk

end Ties

/-! ## The needle in pieces -/

def Piece.nodes : Piece → List Node
  | .place ls => ls.map Insn.label
  | .node i => [i]

def Piece.labels : Piece → List Label
  | .place ls => ls
  | .node _ => []

/-- No group of markers is empty or stands beside another one. -/
def Separate : List Piece → Prop
  | [] => True
  | .place ls :: ps =>
    ls ≠ [] ∧ (∀ l, (ps.flatMap Piece.nodes).head? ≠ some (.label l)) ∧ Separate ps
  | .node i :: ps => i.isReal ∧ Separate ps

theorem nodes_addPiece (i : Node) (ps : List Piece) :
    (addPiece i ps).flatMap Piece.nodes =
      if i.isLine then ps.flatMap Piece.nodes else i :: ps.flatMap Piece.nodes := by
  cases i with
  | label l =>
    cases ps with
    | nil => rfl
    | cons p ps => cases p <;> rfl
  | _ => rfl

theorem nodes_pieces (needle : List Node) :
    (pieces needle).flatMap Piece.nodes = withoutLines needle := by
  induction needle with
  | nil => rfl
  | cons i needle ih =>
    have hc : pieces (i :: needle) = addPiece i (pieces needle) := rfl
    rw [hc, nodes_addPiece, ih]
    cases i <;> rfl

theorem labels_addPiece (i : Node) (ps : List Piece) :
    (addPiece i ps).flatMap Piece.labels = i.marker?.toList ++ ps.flatMap Piece.labels := by
  cases i with
  | label l =>
    cases ps with
    | nil => rfl
    | cons p ps => cases p <;> rfl
  | _ => rfl

theorem labels_pieces (needle : List Node) :
    (pieces needle).flatMap Piece.labels = markers needle := by
  induction needle with
  | nil => rfl
  | cons i needle ih =>
    have hc : pieces (i :: needle) = addPiece i (pieces needle) := rfl
    rw [hc, labels_addPiece, ih, markers, markers, List.filterMap_cons]
    cases i.marker? <;> rfl

theorem separate_addPiece {i : Node} {ps : List Piece} (h : Separate ps) :
    Separate (addPiece i ps) := by
  cases i with
  | line n => exact h
  | label l =>
    cases ps with
    | nil => exact ⟨by simp, by simp, trivial⟩
    | cons p ps =>
      cases p with
      | place ls => exact ⟨by simp, h.2⟩
      | node j =>
        refine ⟨by simp, ?_, h⟩
        intro k hk
        simp only [List.flatMap_cons, Piece.nodes, List.singleton_append, List.head?_cons,
          Option.some.injEq] at hk
        subst hk
        exact Bool.false_ne_true h.1
  | _ => exact ⟨rfl, h⟩

theorem separate_pieces (needle : List Node) : Separate (pieces needle) := by
  induction needle with
  | nil => trivial
  | cons i needle ih => exact separate_addPiece ih

theorem matchPieces_place (t : Ties) (index : Nat) (ls : List Label) (ps : List Piece)
    {host : List Node} (hrun : markers (lead host) ≠ []) :
    matchPieces t index (.place ls :: ps) host =
      (ls.foldlM (Ties.marker (markers (lead host))) t).bind fun t =>
        matchPieces t (index + (lead host).length) ps (past host) := by
  simp only [matchPieces]
  rw [if_neg (by rw [lead] at hrun; simpa using hrun)]
  simp only [lead, past]
  cases ls.foldlM (Ties.marker (markers (host.takeWhile Insn.isPseudo))) t <;> rfl

theorem matchPieces_place_of_nil (t : Ties) (index : Nat) (ls : List Label) (ps : List Piece)
    {host : List Node} (hrun : markers (lead host) = []) :
    matchPieces t index (.place ls :: ps) host = none := by
  simp only [matchPieces]
  rw [if_pos (by rw [lead] at hrun; simp [hrun])]

theorem matchPieces_node (t : Ties) (index : Nat) (i : Node) (ps : List Piece)
    {host rest : List Node} {h : Node} (hp : past host = h :: rest) :
    matchPieces t index (.node i :: ps) host =
      (matchNode t i h).bind fun t =>
        matchPieces t (index + (lead host).length + 1) ps rest := by
  simp only [matchPieces]
  rw [show host.dropWhile Insn.isPseudo = h :: rest from hp]
  simp only [lead]
  cases matchNode t i h <;> rfl

theorem matchPieces_node_of_nil (t : Ties) (index : Nat) (i : Node) (ps : List Piece)
    {host : List Node} (hp : past host = []) :
    matchPieces t index (.node i :: ps) host = none := by
  simp only [matchPieces]
  rw [show host.dropWhile Insn.isPseudo = [] from hp]

section Pieces

variable {ps : List Piece} {host : List Node} {index : Nat}

/-- A group of markers first, then the pieces after it. -/
theorem decides_place {ls : List Label} (hl : ls ≠ []) (hls : ls.Nodup)
    (hn : ∀ l, (ps.flatMap Piece.nodes).head? ≠ some (.label l))
    (hd : ∀ l ∈ ls, ∀ l' ∈ ps.flatMap Piece.labels, l ≠ l')
    (ih : Ties.Decides (ps.flatMap Piece.labels)
      (fun a => ∃ n, Aligned a (ps.flatMap Piece.nodes) (past host) n)
      (fun t => (matchPieces t (index + (lead host).length) ps (past host)).map (·.1))) :
    Ties.Decides (ls ++ ps.flatMap Piece.labels)
      (fun a => ∃ n, Aligned a (ls.map Insn.label ++ ps.flatMap Piece.nodes) host n)
      (fun t => (matchPieces t index (.place ls :: ps) host).map (·.1)) := by
  simp only [aligned_place hl hn]
  by_cases hrun : markers (lead host) = []
  · -- Without a marker at the place no assignment aligns the needle.
    intro t _ _
    simp only [matchPieces_place_of_nil t index ls ps hrun, Option.map_none]
    intro a _ hc
    obtain ⟨l, hl⟩ := List.exists_mem_of_ne_nil ls hl
    have := hc.choose_spec.1 l hl
    rw [hrun] at this
    cases this
  · simp only [matchPieces_place _ index ls ps hrun, Option.map_bind]
    have hb := (Ties.decides_markers hrun hls).bind ih (fun l hl hl' => hd l hl' l hl rfl)
    refine hb.congr fun a => ?_
    constructor
    · rintro ⟨hm, n, hn⟩
      exact ⟨_, hm, n, hn, rfl⟩
    · rintro ⟨_, hm, n, hn, _⟩
      exact ⟨hm, n, hn⟩

/-- One instruction first, then the pieces after it. -/
theorem decides_instruction {i : Node} (hi : i.isReal) (hh : ∀ j ∈ host, j.NoTemp)
    (ih : ∀ h rest, past host = h :: rest → Ties.Decides (ps.flatMap Piece.labels)
      (fun a => ∃ n, Aligned a (ps.flatMap Piece.nodes) rest n)
      (fun t => (matchPieces t (index + (lead host).length + 1) ps rest).map (·.1))) :
    Ties.Decides (ps.flatMap Piece.labels)
      (fun a => ∃ n, Aligned a (i :: ps.flatMap Piece.nodes) host n)
      (fun t => (matchPieces t index (.node i :: ps) host).map (·.1)) := by
  simp only [aligned_instruction hi]
  cases hp : past host with
  | nil =>
    intro t _ _
    simp only [matchPieces_node_of_nil t index i ps hp, Option.map_none]
    rintro a _ ⟨_, h, _, _, hc, _⟩
    cases hc
  | cons h rest =>
    have hh' : h.NoTemp := by
      refine hh h ((List.dropWhile_sublist Insn.isPseudo).subset ?_)
      rw [show host.dropWhile _ = _ from hp]
      exact List.mem_cons_self ..
    simp only [matchPieces_node _ index i ps hp, Option.map_bind]
    have hb := (Ties.decides_node hi hh').bind (ih h rest hp) (by simp)
    refine hb.congr fun a => ?_
    constructor
    · rintro ⟨ha, n, hn⟩
      exact ⟨_, h, rest, n, rfl, ha, hn, rfl⟩
    · rintro ⟨_, _, _, n, hc, ha, hn, _⟩
      cases hc
      exact ⟨ha, n, hn⟩

/-- The pieces match a host exactly under the assignments that align it. -/
theorem decides_pieces (hs : Separate ps) (hnd : (ps.flatMap Piece.labels).Nodup)
    (hh : ∀ i ∈ host, i.NoTemp) (index : Nat) :
    Ties.Decides (ps.flatMap Piece.labels)
      (fun a => ∃ n, Aligned a (ps.flatMap Piece.nodes) host n)
      (fun t => (matchPieces t index ps host).map (·.1)) := by
  induction ps generalizing host index with
  | nil => exact (Ties.decides_keep True).congr fun a => by simp [aligned_nil]
  | cons p ps ih =>
    rw [List.flatMap_cons, List.nodup_append] at hnd
    obtain ⟨hp, hps, hd⟩ := hnd
    have hpast : ∀ i ∈ past host, i.NoTemp := fun i hi =>
      hh i ((List.dropWhile_sublist _).subset hi)
    cases p with
    | place ls =>
      obtain ⟨hl, hn, hs⟩ := hs
      exact decides_place hl hp hn hd (ih hs hps hpast _)
    | node i =>
      obtain ⟨hi, hs⟩ := hs
      refine decides_instruction hi hh fun h rest hr => ih hs hps (fun j hj => ?_) _
      rw [hr] at hpast
      exact hpast j (List.mem_cons_of_mem _ hj)

/-- A match ends where the alignment ends. -/
theorem stop_matchPieces (hs : Separate ps) {stop : Nat} {t t' : Ties}
    (hm : matchPieces t index ps host = some (t', stop)) {a : Assignment} {n : Nat}
    (ha : Aligned a (ps.flatMap Piece.nodes) host n) : stop = index + n := by
  induction ps generalizing host index t n with
  | nil =>
    simp only [matchPieces, Option.some.injEq, Prod.mk.injEq] at hm
    rw [aligned_nil.1 ha, Nat.add_zero, hm.2]
  | cons p ps ih =>
    cases p with
    | place ls =>
      obtain ⟨hl, hn, hs⟩ := hs
      obtain ⟨hmarks, m, tail, rfl⟩ := (aligned_place hl hn).1 ha
      obtain ⟨l, hl⟩ := List.exists_mem_of_ne_nil ls hl
      rw [matchPieces_place t index ls ps (List.ne_nil_of_mem (hmarks l hl))] at hm
      obtain ⟨t₁, _, hm⟩ := Option.bind_eq_some_iff.1 hm
      rw [ih hs hm tail, Nat.add_assoc]
    | node i =>
      obtain ⟨hi, hs⟩ := hs
      obtain ⟨h, rest, m, hp, _, tail, rfl⟩ := (aligned_instruction hi).1 ha
      rw [matchPieces_node t index i ps hp] at hm
      obtain ⟨t₁, _, hm⟩ := Option.bind_eq_some_iff.1 hm
      rw [ih hs hm tail]
      omega

end Pieces

/-! ## One candidate -/

theorem startsAlike_cons {i h : Node} {needle host : List Node} :
    StartsAlike (i :: needle) (h :: host) ↔
      h.isLine = false ∧ (h.marker?.isSome ↔ i.marker?.isSome) := by
  constructor
  · rintro ⟨_, _, hi, hh, hs⟩
    cases hi
    cases hh
    exact hs
  · exact fun hs => ⟨i, h, rfl, rfl, hs⟩

theorem startsWell_iff {ps : List Piece} (hs : Separate ps) (h : Node) (rest : List Node) :
    startsWell ps h = true ↔ StartsAlike (ps.flatMap Piece.nodes) (h :: rest) := by
  cases ps with
  | nil => simp [startsWell, StartsAlike]
  | cons p ps =>
    cases p with
    | place ls =>
      obtain ⟨l, ls, rfl⟩ := List.exists_cons_of_ne_nil hs.1
      simp only [List.flatMap_cons, Piece.nodes, List.map_cons, List.cons_append, startsAlike_cons]
      cases h <;> simp [startsWell, Insn.isLine, Insn.marker?]
    | node i =>
      have hi : i.marker?.isSome = false := by
        have := hs.1
        cases i <;> first | rfl | cases this
      simp only [List.flatMap_cons, Piece.nodes, List.singleton_append, startsAlike_cons, hi]
      cases h <;> simp [startsWell, Insn.isLine, Insn.marker?, Insn.isReal, Insn.isPseudo]

theorem keepsRanges_iff (ends : List Label) (i : Node) (rest : List Node) (n : Nat) :
    keepsRanges (Std.HashSet.ofList ends) (rest.take (n - 1)) = true ↔
      Undivided ends (i :: rest) n := by
  unfold keepsRanges Undivided
  rw [List.all_eq_true]
  constructor
  · intro h k l h0 hk hl
    obtain ⟨j, rfl⟩ := Nat.exists_eq_succ_of_ne_zero (Nat.ne_of_gt h0)
    rw [List.getElem?_cons_succ] at hl
    have htake : (rest.take (n - 1))[j]? = some (.label l) := by
      rw [List.getElem?_take_of_lt (by omega)]
      exact hl
    have := h _ (List.mem_of_getElem? htake)
    simpa [Insn.marker?] using this
  · intro h j hj
    obtain ⟨k, hk⟩ := List.getElem?_of_mem hj
    have hlt : k < n - 1 := by
      have := (List.getElem?_eq_some_iff.1 hk).1
      rw [List.length_take] at this
      omega
    rw [List.getElem?_take_of_lt hlt] at hk
    cases hm : j.marker? with
    | none => rfl
    | some l =>
      have hjl : j = .label l := by
        cases j <;> simp [Insn.marker?] at hm
        rw [hm]
      have := h (k + 1) l (by omega) (by omega) (by rw [List.getElem?_cons_succ, hk, hjl])
      simpa using this

theorem Aligned.reach_pos {a : Assignment} {needle host : List Node} {n : Nat}
    (h : Aligned a needle host n) (hne : needle ≠ []) : 0 < n := by
  cases h with
  | nil => exact absurd rfl hne
  | instruction => omega
  | @place labels _ _ _ hl _ hm =>
    obtain ⟨l, hl⟩ := List.exists_mem_of_ne_nil labels hl
    have := hm l hl
    cases hlead : lead host with
    | nil => rw [hlead] at this; cases this
    | cons => simp only [List.length_cons]; omega

/-- Run from no ties, the needle matches exactly when some assignment aligns
it; then every assignment that keeps the ties does, over one stretch. -/
theorem matchPieces_spec {needle host : List Node} (hnd : (markers needle).Nodup)
    (hh : ∀ i ∈ host, i.NoTemp) (start : Nat) :
    match matchPieces {} start (pieces needle) host with
    | some (t, stop) => ∃ n, stop = start + n ∧
        (∃ a, Aligned a (withoutLines needle) host n) ∧
        ∀ a : Assignment, (∀ k h, t.labels.get? k = some h → a.label k = h) →
          (∀ k s, t.slots.get? k = some s → a.slot k = s) →
            Aligned a (withoutLines needle) host n
    | none => ∀ a n, ¬ Aligned a (withoutLines needle) host n := by
  have hs := separate_pieces needle
  have hdec := decides_pieces hs (by rwa [labels_pieces]) hh start
  rw [nodes_pieces] at hdec
  have hfresh : ∀ l ∈ (pieces needle).flatMap Piece.labels,
      ({} : Ties).runs.get? l = none := fun _ _ => rfl
  have hsound : ({} : Ties).Sound := fun _ _ h => nomatch h
  have hall : ∀ a, ({} : Ties).Allows a := fun a =>
    ⟨(fun _ _ h => nomatch h), (fun _ _ h => nomatch h), (fun _ _ h => nomatch h)⟩
  cases hm : matchPieces {} start (pieces needle) host with
  | none =>
    intro a n ha
    exact hdec.of_none hsound hfresh (by rw [hm]; rfl) a (hall a) ⟨n, ha⟩
  | some r =>
    obtain ⟨t, stop⟩ := r
    have keeps : Ties.Keeps _ _ {} t := hdec.of_some hsound hfresh (by rw [hm]; rfl)
    have haligned : ∀ a : Assignment, (∀ k h, t.labels.get? k = some h → a.label k = h) →
        (∀ k s, t.slots.get? k = some s → a.slot k = s) →
          ∃ n, Aligned a (withoutLines needle) host n := fun a hl hsl =>
      ((keeps.allows a).1 (Ties.allows_of_follows keeps.sound hl hsl)).2
    obtain ⟨n, hn⟩ := haligned
      ⟨fun k => (t.labels.get? k).getD 0, fun k => (t.slots.get? k).getD 0⟩
      (fun k h hk => by simp only [hk, Option.getD_some])
      (fun k s hk => by simp only [hk, Option.getD_some])
    refine ⟨n, stop_matchPieces hs hm (by rwa [nodes_pieces]), ⟨_, hn⟩, fun a hl hsl => ?_⟩
    obtain ⟨m, ha⟩ := haligned a hl hsl
    exact ha.reach_unique hn ▸ ha

/-- A candidate gives the one occurrence that starts there, or shows that none does. -/
theorem occurrence?_spec {needle : List Node} (hnd : (markers needle).Nodup) (ends : List Label)
    (start : Nat) {host : List Node} (hh : ∀ i ∈ host, i.NoTemp) :
    match occurrence? (Std.HashSet.ofList ends) (pieces needle) start host with
    | some r => ∃ n, r.start = start ∧ r.stop = start + n ∧ 0 < n ∧ n ≤ host.length ∧
        ∀ a, Extends a r → OccursAt ends (withoutLines needle) host a n
    | none => ∀ a n, ¬ OccursAt ends (withoutLines needle) host a n := by
  cases host with
  | nil =>
    simp only [occurrence?]
    rintro a n ⟨-, ⟨_, _, _, hc, _⟩, -⟩
    cases hc
  | cons i rest =>
    simp only [occurrence?]
    have hstart := startsWell_iff (separate_pieces needle) i rest
    rw [nodes_pieces] at hstart
    by_cases hw : startsWell (pieces needle) i = true
    · rw [if_pos hw]
      have hspec := matchPieces_spec hnd hh start
      cases hm : matchPieces {} start (pieces needle) (i :: rest) with
      | none =>
        rw [hm] at hspec
        intro a n hocc
        exact hspec a n hocc.aligned
      | some r =>
        obtain ⟨t, stop⟩ := r
        rw [hm] at hspec
        obtain ⟨n, rfl, ⟨_, hn⟩, haligned⟩ := hspec
        have hinner : start + n - start - 1 = n - 1 := by omega
        have hkeep := keepsRanges_iff ends i rest n
        simp only [hinner]
        by_cases hk : keepsRanges (Std.HashSet.ofList ends) (rest.take (n - 1)) = true
        · rw [if_pos hk]
          have hne : withoutLines needle ≠ [] := by
            obtain ⟨_, _, hj, _⟩ := hstart.1 hw
            rintro he
            rw [he] at hj
            cases hj
          exact ⟨n, rfl, rfl, hn.reach_pos hne, hn.reach_le, fun a ha =>
            ⟨haligned a ha.labels ha.slots, hstart.1 hw, hkeep.1 hk⟩⟩
        · rw [if_neg hk]
          intro a m hocc
          have : m = n := hocc.aligned.reach_unique hn
          subst this
          exact hk (hkeep.2 hocc.undivided)
    · rw [if_neg hw]
      intro a n hocc
      exact hw (hstart.2 hocc.starts)

/-! ## The whole search -/

/-- Occurrences as a walk from the node `first` on takes them: apart from
each other, in order, and none that starts outside of them is left. -/
structure Greedy (host needle : Code) (first : Nat) (rs : List Region) : Prop where
  bounded : ∀ r ∈ rs, first ≤ r.start ∧ r.start < r.stop ∧ r.stop ≤ host.toList.length
  apart : rs.Pairwise fun r r' => r.stop ≤ r'.start
  valid : ∀ r ∈ rs, ∀ a, Extends a r → Occurs host needle a r.start r.stop
  complete : ∀ a start stop, first ≤ start → Occurs host needle a start stop →
    ∃ r ∈ rs, r.start ≤ start ∧ start < r.stop

theorem Occurs.start_lt {host needle : Code} {a : Assignment} {start stop : Nat}
    (h : Occurs host needle a start stop) : start < host.toList.length := by
  obtain ⟨_, _, hocc⟩ := h
  obtain ⟨_, _, _, hh, _⟩ := hocc.starts
  by_cases hs : start < host.toList.length
  · exact hs
  · rw [List.drop_eq_nil_of_le (Nat.le_of_not_lt hs)] at hh
    cases hh

theorem greedy_nil {host needle : Code} {first : Nat} (h : host.toList.length ≤ first) :
    Greedy host needle first [] := by
  refine ⟨by simp, .nil, by simp, ?_⟩
  intro a start stop hf hocc
  have := hocc.start_lt
  omega

/-- A walk passes over a node where no occurrence starts. -/
theorem greedy_pass {host needle : Code} {first : Nat} {rs : List Region}
    (hnone : ∀ a stop, ¬ Occurs host needle a first stop) (h : Greedy host needle (first + 1) rs) :
    Greedy host needle first rs := by
  refine ⟨?_, h.apart, h.valid, ?_⟩
  · intro r hr
    have := h.bounded r hr
    omega
  · intro a start stop hf hocc
    have hne : start ≠ first := by
      rintro rfl
      exact hnone a stop hocc
    exact h.complete a start stop (by omega) hocc

/-- A walk takes an occurrence and goes on after it. -/
theorem greedy_take {host needle : Code} {first : Nat} {r : Region} {rs : List Region}
    (hstart : r.start = first) (hstop : r.start < r.stop ∧ r.stop ≤ host.toList.length)
    (hvalid : ∀ a, Extends a r → Occurs host needle a r.start r.stop)
    (h : Greedy host needle r.stop rs) : Greedy host needle first (r :: rs) := by
  refine ⟨?_, ?_, ?_, ?_⟩
  · intro q hq
    rcases List.mem_cons.1 hq with rfl | hq
    · omega
    · have := h.bounded q hq
      omega
  · rw [List.pairwise_cons]
    exact ⟨fun q hq => (h.bounded q hq).1, h.apart⟩
  · intro q hq
    rcases List.mem_cons.1 hq with rfl | hq
    · exact hvalid
    · exact h.valid q hq
  · intro a start stop hf hocc
    by_cases hs : start < r.stop
    · exact ⟨r, List.mem_cons_self .., by omega, hs⟩
    · obtain ⟨q, hq, hin⟩ := h.complete a start stop (by omega) hocc
      exact ⟨q, List.mem_cons_of_mem _ hq, hin⟩

theorem findFrom_eq_append (ends : Std.HashSet Label) (ps : List Piece) (found : List Region)
    (skip start : Nat) (nodes : List Node) :
    findFrom ends ps found skip start nodes =
      found.reverse ++ findFrom ends ps [] skip start nodes := by
  induction nodes generalizing found skip start with
  | nil => simp [findFrom]
  | cons i rest ih =>
    cases skip with
    | succ skip =>
      simp only [findFrom]
      exact ih ..
    | zero =>
      simp only [findFrom]
      split
      · rename_i r _
        rw [ih (r :: found), ih [r]]
        simp
      · exact ih ..

theorem greedy_findFrom {host needle : Code} (hh : ∀ i ∈ host.toList, i.NoTemp)
    (hnd : (markers needle.toList).Nodup) (nodes : List Node) (skip start : Nat)
    (hnodes : host.toList.drop start = nodes) :
    Greedy host needle (start + skip)
      (findFrom host.boundaries (pieces needle.toList) [] skip start nodes) := by
  induction nodes generalizing skip start with
  | nil =>
    have := List.drop_eq_nil_iff.1 hnodes
    exact greedy_nil (by omega)
  | cons i rest ih =>
    have hrest : host.toList.drop (start + 1) = rest := by
      rw [← List.drop_drop, hnodes]
      rfl
    cases skip with
    | succ skip =>
      simp only [findFrom]
      rw [show start + (skip + 1) = start + 1 + skip by omega]
      exact ih skip (start + 1) hrest
    | zero =>
      have hsub : ∀ j ∈ i :: rest, j.NoTemp := fun j hj =>
        hh j (List.mem_of_mem_drop (hnodes ▸ hj))
      have hspec := occurrence?_spec hnd (host.handlers.toList.flatMap Handler.labels) start hsub
      simp only [findFrom, boundaries]
      split
      · rename_i r hr
        rw [hr] at hspec
        obtain ⟨n, hstart, hstop, hn, hle, hocc⟩ := hspec
        have hlen : host.toList.length = start + (i :: rest).length := by
          have := congrArg List.length hnodes
          simp only [List.length_drop, List.length_cons] at this
          simp only [List.length_cons]
          omega
        rw [findFrom_eq_append]
        refine greedy_take hstart (by omega) ?_ ?_
        · intro a ha
          exact ⟨n, by omega, by rw [hstart, hnodes]; exact hocc a ha⟩
        · have := ih (r.stop - start - 1) (start + 1) hrest
          rwa [show start + 1 + (r.stop - start - 1) = r.stop by omega] at this
      · rename_i hr
        rw [hr] at hspec
        refine greedy_pass ?_ (ih 0 (start + 1) hrest)
        rintro a _ ⟨n, _, hocc⟩
        rw [Nat.add_zero, hnodes] at hocc
        exact hspec a n hocc

/-- The search gives the occurrences of a needle that a walk from the
front takes, with the labels and slots that make them match. -/
theorem findAll_is_greedy (host needle : Code) (hh : ∀ i ∈ host.toList, i.NoTemp)
    (hnd : (markers needle.toList).Nodup) (hne : withoutLines needle.toList ≠ []) :
    Greedy host needle 0 (findAll host needle) := by
  unfold findAll
  split
  · rename_i hp
    rw [← nodes_pieces, hp] at hne
    exact absurd rfl hne
  · exact greedy_findFrom hh hnd host.toList 0 0 (List.drop_zero ..)

/-- A loop with two markers at its start and a line between them. -/
def loopingHost : Code :=
  (((Code.empty.mark "outer").push (.line 7)).mark "inner").pushAll
    [.var .ILOAD (.slot 3), .jump .IFEQ 2, .jump .GOTO 0]

/-- A loop of which neither the slot nor the labels are known. -/
def loopingNeedle : Code :=
  (Code.empty.mark "loop").pushAll [.var .ILOAD (.temp 0), .jump .IFEQ 0]

theorem looping_search_is_greedy :
    Greedy loopingHost loopingNeedle 0 (findAll loopingHost loopingNeedle) := by
  refine findAll_is_greedy loopingHost loopingNeedle ?_ (by decide) (by decide)
  have hhost : loopingHost.toList = [.label 0, .line 7, .label 2, .var .ILOAD (.slot 3),
      .jump .IFEQ 2, .jump .GOTO 0] := rfl
  rw [hhost]
  simp [Insn.NoTemp, Insn.access?]

end Code

end ClassPatch
