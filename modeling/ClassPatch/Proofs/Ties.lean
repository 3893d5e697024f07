-- What a candidate has tied down, read as the assignments that it still
-- allows. Each turn of the matcher either leaves exactly the assignments
-- that meet its condition, or gives up because none does.
import ClassPatch.Code.Occurrence

namespace ClassPatch

/-- What a needle's labels and temporaries stand for in a host. -/
structure Assignment where
  label : Label → Label
  slot : UInt16 → UInt16

namespace Assignment

/-- A temporary stands for its slot; a slot stands for itself. -/
def onLocal (a : Assignment) : Local → Local
  | .slot n => .slot n
  | .temp t => .slot (a.slot t)

/-- The node of the host that a node of the needle stands for. -/
def onNode (a : Assignment) (i : Node) : Node := (i.mapLabels a.label).mapLocal a.onLocal

end Assignment

namespace Insn
variable {α β γ : Type}

/-- Every local that the node accesses is a slot. -/
def NoTemp (i : Insn α) : Prop := ∀ t w, i.access? ≠ some (.temp t, w)

theorem noTemp_of_pseudo {i : Insn α} (h : i.isPseudo) : i.NoTemp := by
  cases i <;> first | (intro t w hc; cases hc; done) | cases h

theorem targets_of_pseudo {i : Insn α} (h : i.isPseudo) : i.targets = [] := by
  cases i <;> first | rfl | cases h

theorem mem_labels_of_mem_targets {i : Insn α} {l : α} (h : l ∈ i.targets) : l ∈ i.labels := by
  cases i <;> first | exact h | cases h

/-! ## Nodes with other labels -/

theorem marker?_mapLabels (f : α → β) (i : Insn α) : (i.mapLabels f).marker? = i.marker?.map f := by
  cases i <;> rfl

theorem targets_mapLabels (f : α → β) (i : Insn α) : (i.mapLabels f).targets = i.targets.map f := by
  cases i <;> simp [mapLabels, targets]

theorem labels_mapLabels (f : α → β) (i : Insn α) : (i.mapLabels f).labels = i.labels.map f := by
  cases i <;> simp [mapLabels, labels, targets]

theorem isReal_mapLabels (f : α → β) (i : Insn α) : (i.mapLabels f).isReal = i.isReal := by
  cases i <;> rfl

theorem access?_mapLabels (f : α → β) (i : Insn α) : (i.mapLabels f).access? = i.access? := by
  cases i <;> rfl

theorem noTemp_mapLabels {f : α → β} {i : Insn α} : (i.mapLabels f).NoTemp ↔ i.NoTemp := by
  unfold NoTemp
  rw [access?_mapLabels]

theorem mapLabels_mapLabels (f : α → β) (g : β → γ) (i : Insn α) :
    (i.mapLabels f).mapLabels g = i.mapLabels (g ∘ f) := by
  cases i <;> simp [mapLabels]

end Insn

namespace Code.Ties

/-! ## Ties as sets of assignments -/

/-- The assignment respects what the ties hold so far. -/
structure Allows (t : Ties) (a : Assignment) : Prop where
  fixed : ∀ n h, t.fixed.get? n = some h → a.label n = h
  runs : ∀ n run, t.runs.get? n = some run → a.label n ∈ run
  slots : ∀ n s, t.slots.get? n = some s → a.slot n = s

/-- Every place has a marker, and a label that a branch picked there is one of them. -/
def Sound (t : Ties) : Prop :=
  ∀ n run, t.runs.get? n = some run → run ≠ [] ∧ ∀ h, t.fixed.get? n = some h → h ∈ run

/-- A turn leaves exactly the assignments that meet the condition, and
notes places for no other labels than `marks`. -/
structure Keeps (marks : List Label) (c : Assignment → Prop) (t t' : Ties) : Prop where
  sound : t'.Sound
  runs : ∀ l, l ∉ marks → t'.runs.get? l = t.runs.get? l
  allows : ∀ a, t'.Allows a ↔ t.Allows a ∧ c a

/-- A turn that gives up does so because no assignment is left. It may
count on the labels in `marks` having no place yet. -/
def Decides (marks : List Label) (c : Assignment → Prop) (f : Ties → Option Ties) : Prop :=
  ∀ t : Ties, t.Sound → (∀ l ∈ marks, t.runs.get? l = none) →
    match f t with
    | some t' => Keeps marks c t t'
    | none => ∀ a, t.Allows a → ¬ c a

theorem Decides.of_some {marks : List Label} {c : Assignment → Prop} {f : Ties → Option Ties}
    (h : Decides marks c f) {t t' : Ties} (ht : t.Sound) (hm : ∀ l ∈ marks, t.runs.get? l = none)
    (hf : f t = some t') : Keeps marks c t t' := by
  have := h t ht hm
  rwa [hf] at this

theorem Decides.of_none {marks : List Label} {c : Assignment → Prop} {f : Ties → Option Ties}
    (h : Decides marks c f) {t : Ties} (ht : t.Sound) (hm : ∀ l ∈ marks, t.runs.get? l = none)
    (hf : f t = none) (a : Assignment) (ha : t.Allows a) : ¬ c a := by
  have := h t ht hm
  rw [hf] at this
  exact this a ha

/-- The same turn under a condition that says the same. -/
theorem Decides.congr {marks : List Label} {c d : Assignment → Prop} {f : Ties → Option Ties}
    (h : Decides marks c f) (hcd : ∀ a, c a ↔ d a) : Decides marks d f := by
  have : c = d := funext fun a => propext (hcd a)
  exact this ▸ h

/-- A turn that asks nothing. -/
theorem decides_keep (p : Prop) [Decidable p] :
    Decides [] (fun _ => p) (fun t => if p then some t else none) := by
  intro t ht _
  by_cases hp : p
  · simp only [hp, if_true]
    exact ⟨ht, fun _ _ => rfl, fun a => by simp⟩
  · simp only [hp, if_false]
    intro a _ h
    exact h

/-- One turn after another leaves the assignments that meet both conditions. -/
theorem Decides.bind {m₁ m₂ : List Label} {c₁ c₂ : Assignment → Prop}
    {f g : Ties → Option Ties} (hf : Decides m₁ c₁ f) (hg : Decides m₂ c₂ g)
    (hd : ∀ l ∈ m₂, l ∉ m₁) :
    Decides (m₁ ++ m₂) (fun a => c₁ a ∧ c₂ a) (fun t => (f t).bind g) := by
  intro t ht hm
  dsimp only
  have hm₁ : ∀ l ∈ m₁, t.runs.get? l = none := fun l hl => hm l (List.mem_append_left _ hl)
  cases h₁ : f t with
  | none =>
    dsimp only [Option.bind]
    intro a ha hc
    exact hf.of_none ht hm₁ h₁ a ha hc.1
  | some t₁ =>
    have k₁ := hf.of_some ht hm₁ h₁
    have hm₂ : ∀ l ∈ m₂, t₁.runs.get? l = none := by
      intro l hl
      rw [k₁.runs l (hd l hl)]
      exact hm l (List.mem_append_right _ hl)
    dsimp only [Option.bind]
    cases h₂ : g t₁ with
    | none =>
      intro a ha hc
      exact hg.of_none k₁.sound hm₂ h₂ a ((k₁.allows a).2 ⟨ha, hc.1⟩) hc.2
    | some t₂ =>
      have k₂ := hg.of_some k₁.sound hm₂ h₂
      refine ⟨k₂.sound, ?_, ?_⟩
      · intro l hl
        rw [List.mem_append, not_or] at hl
        rw [k₂.runs l hl.2, k₁.runs l hl.1]
      · intro a
        rw [k₂.allows, k₁.allows, and_assoc]

/-! ## Single turns -/

section Turns

variable {t : Ties} {marks : List Label} {c : Assignment → Prop}

/-- A condition that the ties settle already is tested, and ties nothing more. -/
theorem decides_test (ht : t.Sound) {p : Prop} [Decidable p]
    (hc : ∀ a, t.Allows a → (c a ↔ p)) :
    match if p then some t else none with
    | some t' => Keeps marks c t t'
    | none => ∀ a, t.Allows a → ¬ c a := by
  by_cases hp : p
  · simp only [hp, if_true]
    exact ⟨ht, fun _ _ => rfl, fun a => ⟨fun ha => ⟨ha, (hc a ha).2 hp⟩, fun ha => ha.1⟩⟩
  · simp only [hp, if_false]
    intro a ha h
    exact hp ((hc a ha).1 h)

/-- Tying a label down leaves the assignments that send it there; where it
has a place already, the host's label is one of the markers there. -/
theorem keeps_fixed (ht : t.Sound) {needle host : Label} (hnew : t.fixed.get? needle = none)
    (hrun : ∀ run, t.runs.get? needle = some run → host ∈ run) :
    Keeps [] (fun a => a.label needle = host) t
      { t with fixed := t.fixed.insert needle host } := by
  refine ⟨fun n run hn => ⟨(ht n run hn).1, fun h hh => ?_⟩, fun _ _ => rfl, fun a => ?_⟩
  · by_cases hne : n = needle
    · subst hne
      rw [Dict.get?_insert_self] at hh
      cases hh
      exact hrun run hn
    · rw [Dict.get?_insert_of_ne hne] at hh
      exact (ht n run hn).2 h hh
  · constructor
    · intro ha
      obtain ⟨hfixed, hc⟩ := (Dict.forall_get?_insert_iff hnew).1 ha.fixed
      exact ⟨⟨hfixed, ha.runs, ha.slots⟩, hc⟩
    · rintro ⟨ha, hc⟩
      exact ⟨Dict.forall_get?_insert hc ha.fixed, ha.runs, ha.slots⟩

/-- Noting the markers at a place leaves the assignments that pick one of them. -/
theorem keeps_run (ht : t.Sound) {needle : Label} {run : List Label} (hrun : run ≠ [])
    (hfixed : t.fixed.get? needle = none) (hnew : t.runs.get? needle = none) :
    Keeps [needle] (fun a => a.label needle ∈ run) t
      { t with runs := t.runs.insert needle run } := by
  refine ⟨Dict.forall_get?_insert ⟨hrun, fun h hh => ?_⟩ ht, fun l hl => ?_, fun a => ?_⟩
  · rw [hfixed] at hh
    cases hh
  · exact Dict.get?_insert_of_ne (by simpa using hl) ..
  · constructor
    · intro ha
      obtain ⟨hruns, hc⟩ := (Dict.forall_get?_insert_iff hnew).1 ha.runs
      exact ⟨⟨ha.fixed, hruns, ha.slots⟩, hc⟩
    · rintro ⟨ha, hc⟩
      exact ⟨ha.fixed, Dict.forall_get?_insert hc ha.runs, ha.slots⟩

/-- Giving a temporary its slot leaves the assignments that give it that slot. -/
theorem keeps_slot (ht : t.Sound) {n s : UInt16} (hnew : t.slots.get? n = none) :
    Keeps [] (fun a => a.slot n = s) t { t with slots := t.slots.insert n s } := by
  refine ⟨ht, fun _ _ => rfl, fun a => ?_⟩
  constructor
  · intro ha
    obtain ⟨hslots, hc⟩ := (Dict.forall_get?_insert_iff hnew).1 ha.slots
    exact ⟨⟨ha.fixed, ha.runs, hslots⟩, hc⟩
  · rintro ⟨ha, hc⟩
    exact ⟨ha.fixed, ha.runs, Dict.forall_get?_insert hc ha.slots⟩

end Turns

/-- A branch asks that the needle's label stands for the host's. -/
theorem decides_target (needle host : Label) :
    Decides [] (fun a => a.label needle = host) (fun t => t.target needle host) := by
  intro t ht _
  dsimp only [target]
  cases hfix : t.fixed.get? needle with
  | some l => exact decides_test ht fun a ha => by rw [ha.fixed needle l hfix]
  | none =>
    cases hrun : t.runs.get? needle with
    | none => exact keeps_fixed ht hfix fun run h => by rw [hrun] at h; cases h
    | some run =>
      by_cases hin : run.contains host = true
      · simp only [hin, if_true]
        refine keeps_fixed ht hfix fun run' h => ?_
        rw [hrun] at h
        cases h
        simpa using hin
      · simp only [hin, Bool.false_eq_true, if_false]
        intro a ha hc
        exact hin (by simpa [hc] using ha.runs needle run hrun)

/-- A marker asks that its label stands for one of the markers at its place. -/
theorem decides_marker {run : List Label} (hrun : run ≠ []) (needle : Label) :
    Decides [needle] (fun a => a.label needle ∈ run) (fun t => t.marker run needle) := by
  intro t ht hm
  dsimp only [marker]
  cases hfix : t.fixed.get? needle with
  | some l =>
    refine decides_test ht fun a ha => ?_
    rw [ha.fixed needle l hfix, List.contains_iff_mem]
  | none => exact keeps_run ht hrun hfix (hm needle (List.mem_singleton_self _))

/-- A local asks that it stands for the host's, which is a slot. -/
theorem decides_local (needle : Local) {host : Local} (hh : ∀ t, host ≠ .temp t) :
    Decides [] (fun a => a.onLocal needle = host) (fun t => t.local? needle host) := by
  cases host with
  | temp n => exact absurd rfl (hh n)
  | slot s =>
    cases needle with
    | slot n => exact decides_keep (Local.slot n = .slot s)
    | temp n =>
      intro t ht _
      simp only [local?, Assignment.onLocal, Local.slot.injEq]
      cases hs : t.slots.get? n with
      | some s' => exact decides_test ht fun a ha => by rw [ha.slots n s' hs]
      | none => exact keeps_slot ht hs

/-! ## Lists of branches and of markers -/

theorem decides_targets (needle host : List Label) :
    Decides [] (fun a => needle.map a.label = host) (fun t => matchTargets t needle host) := by
  induction needle generalizing host with
  | nil =>
    cases host with
    | nil => exact (decides_keep True).congr fun a => by simp
    | cons h hs => exact (decides_keep False).congr fun a => by simp
  | cons n ns ih =>
    cases host with
    | nil => exact (decides_keep False).congr fun a => by simp
    | cons h hs =>
      have hb := (decides_target n h).bind (ih hs) (by simp)
      have he : (fun t => matchTargets t (n :: ns) (h :: hs)) =
          fun t => (Ties.target t n h).bind fun t => matchTargets t ns hs := by
        funext t
        simp only [matchTargets]
        cases Ties.target t n h <;> rfl
      rw [he]
      exact hb.congr fun a => by simp

theorem decides_markers {run : List Label} (hrun : run ≠ []) {labels : List Label}
    (hnd : labels.Nodup) :
    Decides labels (fun a => ∀ l ∈ labels, a.label l ∈ run)
      (fun t => labels.foldlM (Ties.marker run) t) := by
  induction labels with
  | nil => exact (decides_keep True).congr fun a => by simp
  | cons l ls ih =>
    rw [List.nodup_cons] at hnd
    have hb := (decides_marker hrun l).bind (ih hnd.2) (by
      intro k hk hkl
      rw [List.mem_singleton] at hkl
      exact hnd.1 (hkl ▸ hk))
    exact hb.congr fun a => by simp

/-! ## The labels that ties give in the end -/

theorem contains_eq_isSome {α : Type} (d : Dict Label α) (n : Label) :
    d.contains n = (d.get? n).isSome := rfl

theorem get?_cons {α : Type} (k : Label) (v : α) (d : Dict Label α) (n : Label) :
    Dict.get? ((k, v) :: d) n = if k = n then some v else d.get? n := by
  unfold Dict.get?
  by_cases h : k = n <;> simp [h]

theorem get?_settle_of_some {fixed : Dict Label Label} {n h : Label} (hn : fixed.get? n = some h)
    (e : Label × List Label) : (settle fixed e).get? n = some h := by
  obtain ⟨k, run⟩ := e
  cases run with
  | nil => exact hn
  | cons l ls =>
    simp only [settle]
    split
    · exact hn
    · rename_i hc
      have hne : n ≠ k := by
        rintro rfl
        exact hc (by rw [contains_eq_isSome, hn]; rfl)
      rw [Dict.get?_insert_of_ne hne]
      exact hn

theorem get?_foldl_settle_of_some {fixed : Dict Label Label} {n h : Label}
    (hn : fixed.get? n = some h) (runs : Dict Label (List Label)) :
    (runs.foldl settle fixed).get? n = some h := by
  induction runs generalizing fixed with
  | nil => exact hn
  | cons e runs ih => exact ih (get?_settle_of_some hn e)

/-- What a branch picked stands; any other label gets the first marker at its place. -/
theorem get?_foldl_settle {fixed : Dict Label Label} {runs : Dict Label (List Label)} {n : Label}
    (hr : runs.get? n ≠ some []) :
    (runs.foldl settle fixed).get? n = (fixed.get? n).or ((runs.get? n).bind List.head?) := by
  induction runs generalizing fixed with
  | nil =>
    rw [List.foldl_nil]
    cases fixed.get? n <;> rfl
  | cons e runs ih =>
    obtain ⟨k, run⟩ := e
    cases hn : fixed.get? n with
    | some h =>
      rw [get?_foldl_settle_of_some hn]
      rfl
    | none =>
      rw [get?_cons] at hr ⊢
      rw [List.foldl_cons]
      by_cases hk : k = n
      · subst hk
        simp only [if_true] at hr ⊢
        cases run with
        | nil => exact absurd rfl hr
        | cons l ls =>
          have hc : fixed.contains k = false := by rw [contains_eq_isSome, hn]; rfl
          apply get?_foldl_settle_of_some
          simp only [settle, hc, Bool.false_eq_true, if_false]
          exact Dict.get?_insert_self ..
      · simp only [hk, if_false] at hr ⊢
        rw [ih hr]
        have hs : (settle fixed (k, run)).get? n = none := by
          cases run with
          | nil => exact hn
          | cons l ls =>
            simp only [settle]
            split
            · exact hn
            · rw [Dict.get?_insert_of_ne (Ne.symm hk)]
              exact hn
        rw [hs]

theorem get?_labels {t : Ties} (ht : t.Sound) (n : Label) :
    t.labels.get? n = (t.fixed.get? n).or ((t.runs.get? n).bind List.head?) :=
  get?_foldl_settle fun h => (ht n [] h).1 rfl

/-- An assignment that follows the labels and slots of the ties is one that they allow. -/
theorem allows_of_follows {t : Ties} (ht : t.Sound) {a : Assignment}
    (hl : ∀ n h, t.labels.get? n = some h → a.label n = h)
    (hs : ∀ n s, t.slots.get? n = some s → a.slot n = s) : t.Allows a := by
  refine ⟨?_, ?_, hs⟩
  · intro n h hn
    apply hl
    rw [get?_labels ht, hn]
    rfl
  · intro n run hn
    obtain ⟨hne, hmem⟩ := ht n run hn
    cases hf : t.fixed.get? n with
    | some h =>
      rw [hl n h (by rw [get?_labels ht, hf]; rfl)]
      exact hmem h hf
    | none =>
      obtain ⟨l, ls, rfl⟩ := List.exists_cons_of_ne_nil hne
      rw [hl n l (by rw [get?_labels ht, hf, hn]; rfl)]
      exact List.mem_cons_self ..

end Code.Ties

end ClassPatch
