-- Slots for temporaries. A splice gives each temporary that is not captured
-- slots of its own past everything that the method uses, and raises the limit
-- past them. So the next splice starts behind them, and no two of a run meet.
import ClassPatch.Proofs.Naming
import Mathlib.Algebra.Ring.Nat
import Mathlib.Data.List.Pairwise

namespace ClassPatch

/-! ## Slots as numbers -/

theorem toNat_saturate (n : Nat) : (saturate n).toNat = min n 65535 :=
  UInt16.toNat_ofNat_of_lt' (Nat.lt_of_le_of_lt (Nat.min_le_right ..) (by decide))

theorem toNat_advance (slot : UInt16) (width : Nat) :
    (advance slot width).toNat = min (slot.toNat + width) 65535 := toNat_saturate _

theorem foldl_max_le {xs : List Nat} {a n : Nat} :
    xs.foldl max a ≤ n ↔ a ≤ n ∧ ∀ x ∈ xs, x ≤ n := by
  induction xs generalizing a with
  | nil => simp
  | cons x xs ih => rw [List.foldl_cons, ih, List.forall_mem_cons, Nat.max_le, and_assoc]

namespace Code

theorem mem_slotAccesses {nodes : List Node} {a : UInt16 × Nat} :
    a ∈ slotAccesses nodes ↔ ∃ i ∈ nodes, i.access? = some (.slot a.1, a.2) := by
  simp only [slotAccesses, accesses, List.mem_filterMap]
  constructor
  · rintro ⟨⟨x, w⟩, ⟨i, hi, hx⟩, ha⟩
    cases x <;> cases ha
    exact ⟨i, hi, hx⟩
  · rintro ⟨i, hi, hx⟩
    exact ⟨_, ⟨i, hi, hx⟩, rfl⟩

theorem mem_tempAccesses {nodes : List Node} {a : UInt16 × Nat} :
    a ∈ tempAccesses nodes ↔ ∃ i ∈ nodes, i.access? = some (.temp a.1, a.2) := by
  simp only [tempAccesses, accesses, List.mem_filterMap]
  constructor
  · rintro ⟨⟨x, w⟩, ⟨i, hi, hx⟩, ha⟩
    cases x <;> cases ha
    exact ⟨i, hi, hx⟩
  · rintro ⟨i, hi, hx⟩
    exact ⟨_, ⟨i, hi, hx⟩, rfl⟩

/-! ## Temporaries in use -/

/-- The temporary is accessed, at most this wide. -/
structure Widest (c : Code) (temp : UInt16) (width : Nat) : Prop where
  used : (temp, width) ∈ tempAccesses c.toList
  widest : ∀ w, (temp, w) ∈ tempAccesses c.toList → w ≤ width

/-- A temporary that is accessed has its widest access noted, and no other has one. -/
theorem foldl_widen (accesses : List (UInt16 × Nat)) (temp : UInt16) :
    ((accesses.foldl widen []).get? temp = none → ∀ w, (temp, w) ∉ accesses) ∧
    ∀ width, (accesses.foldl widen []).get? temp = some width →
      (temp, width) ∈ accesses ∧ ∀ w, (temp, w) ∈ accesses → w ≤ width := by
  induction accesses using List.reverseRecOn with
  | nil => exact ⟨fun _ => nofun, nofun⟩
  | append_singleton accesses a ih =>
    obtain ⟨hnone, hsome⟩ := ih
    rw [List.foldl_concat, widen]
    generalize accesses.foldl widen [] = temps at hnone hsome
    by_cases ht : temp = a.1
    · subst ht
      rw [Dict.get?_insert_self]
      refine ⟨nofun, ?_⟩
      rintro _ ⟨⟩
      cases hold : temps.get? a.1 with
      | none =>
        have hlast : ∀ w, (a.1, w) ∈ accesses ++ [a] → w = a.2 := by
          intro w hw
          rcases List.mem_append.1 hw with hw | hw
          · exact absurd hw (hnone hold w)
          · rw [← List.mem_singleton.1 hw]
        refine ⟨List.mem_append_right _ (by simp), fun w hw => ?_⟩
        rw [hlast w hw]
        exact Nat.le_max_left ..
      | some w₀ =>
        obtain ⟨hmem, hle⟩ := hsome w₀ hold
        refine ⟨?_, fun w hw => ?_⟩
        · rcases Nat.le_total w₀ a.2 with hw | hw
          · rw [Option.getD_some, Nat.max_eq_left hw]
            exact List.mem_append_right _ (by simp)
          · rw [Option.getD_some, Nat.max_eq_right hw]
            exact List.mem_append_left _ hmem
        · rcases List.mem_append.1 hw with hw | hw
          · exact Nat.le_trans (hle w hw) (Nat.le_max_right ..)
          · rw [← List.mem_singleton.1 hw]
            exact Nat.le_max_left ..
    · have hmem : ∀ w, (temp, w) ∈ accesses ++ [a] ↔ (temp, w) ∈ accesses := by
        intro w
        have hne : (temp, w) ≠ a := fun he => ht (he ▸ rfl)
        simp [hne]
      rw [Dict.get?_insert_of_ne ht]
      simp only [hmem]
      exact ⟨hnone, hsome⟩

theorem get?_temps {c : Code} {temp : UInt16} {width : Nat} :
    c.temps.get? temp = some width ↔ c.Widest temp width := by
  obtain ⟨hnone, hsome⟩ := foldl_widen (tempAccesses c.toList) temp
  constructor
  · intro h
    exact ⟨(hsome width h).1, (hsome width h).2⟩
  · intro h
    cases hget : c.temps.get? temp with
    | none => exact absurd h.used (hnone hget width)
    | some w =>
      obtain ⟨hused, hle⟩ := hsome w hget
      rw [Nat.le_antisymm (h.widest w hused) (hle width h.used)]

/-- A temporary that is accessed has a widest access. -/
theorem exists_widest {c : Code} {temp : UInt16} {w : Nat}
    (h : (temp, w) ∈ tempAccesses c.toList) : ∃ width, c.Widest temp width := by
  cases hget : c.temps.get? temp with
  | none => exact absurd h ((foldl_widen _ temp).1 hget w)
  | some width => exact ⟨width, get?_temps.1 hget⟩

theorem pairwise_temps (c : Code) : c.temps.Pairwise fun e e' => e.1 < e'.1 :=
  List.foldlRecOn (motive := fun d : Dict UInt16 Nat => d.Pairwise fun e e' => e.1 < e'.1) _ _
    List.Pairwise.nil fun _ h _ _ => Dict.pairwise_insert h _ _

theorem keys_temps (c : Code) : c.temps.Pairwise (·.1 ≠ ·.1) :=
  c.pairwise_temps.imp fun hlt he => by
    rw [he] at hlt
    exact Std.lt_irrefl hlt

/-- Those of some temporaries that are not captured. -/
def freshTemps (captured : Dict UInt16 UInt16) (temps : List (UInt16 × Nat)) :
    List (UInt16 × Nat) :=
  temps.filter fun e => (captured.get? e.1).isNone

/-- What they take together, each its widest access. -/
def freshWidth (captured : Dict UInt16 UInt16) (temps : List (UInt16 × Nat)) : Nat :=
  ((freshTemps captured temps).map (·.2)).sum

/-! ## Ends of accesses -/

/-- The end of each access of a slot. -/
def slotEnds (nodes : List Node) : List Nat := (slotAccesses nodes).map fun a => a.1.toNat + a.2

/-- The end of each access of a fragment to a slot that is known before it is
spliced: its own slots and the captured ones. -/
def fixedEnds (fragment : Code) : List Nat :=
  (accesses fragment.toList).filterMap fun a =>
    match a.1 with
    | .slot n => some (n.toNat + a.2)
    | .temp t => (fragment.captured.get? t).map fun s => s.toNat + a.2

theorem frontier_le {c : Code} {n : Nat} (h : ∀ stop ∈ slotEnds c.toList, stop ≤ n) :
    c.frontier.toNat ≤ n := by
  refine greatest_le.2 (List.forall_mem_map.2 fun a ha => ?_)
  rw [toNat_advance]
  exact Nat.le_trans (Nat.min_le_left ..) (h _ (List.mem_map_of_mem ha))

/-- Where slot numbers are large enough the frontier is past every access. -/
theorem le_frontier {c : Code} {a : UInt16 × Nat} (ha : a ∈ slotAccesses c.toList)
    (hfit : a.1.toNat + a.2 ≤ 65535) : a.1.toNat + a.2 ≤ c.frontier.toNat := by
  have hle := greatest_le.1 (Nat.le_refl c.frontier.toNat) _
    (List.mem_map_of_mem (f := fun a : UInt16 × Nat => advance a.1 a.2) ha)
  rwa [toNat_advance, Nat.min_eq_left hfit] at hle

end Code

namespace Method

/-! ## One temporary after the other -/

section Give
variable {captured : Dict UInt16 UInt16} {start : Nat} {done : List (UInt16 × Nat)} {s : Slots}

/-- The slots of two temporaries do not meet. -/
def Apart (bound : Dict UInt16 UInt16) (e e' : UInt16 × Nat) : Prop :=
  ∀ slot slot', bound.get? e.1 = some slot → bound.get? e'.1 = some slot' →
    slot.toNat + e.2 ≤ slot'.toNat ∨ slot'.toNat + e'.2 ≤ slot.toNat

instance (bound : Dict UInt16 UInt16) : Std.Symm (Apart bound) :=
  ⟨fun _ _ h slot slot' hs hs' => (h slot' slot hs' hs).symm⟩

/-- What holds once the temporaries in `done` have their slots: those that are
not captured have stretches of their own from `start` on. -/
structure Slots.Given (captured : Dict UInt16 UInt16) (start : Nat) (done : List (UInt16 × Nat))
    (s : Slots) : Prop where
  next : s.next.toNat = start + Code.freshWidth captured done
  fresh : ∀ e ∈ Code.freshTemps captured done, ∃ slot, s.bound.get? e.1 = some slot ∧
    start ≤ slot.toNat ∧ slot.toNat + e.2 ≤ s.next.toNat
  apart : (Code.freshTemps captured done).Pairwise (Apart s.bound)

/-- A slot for a new temporary leaves those that have theirs. -/
theorem get?_bound_of_new {e e' : UInt16 × Nat} (hnew : ∀ e' ∈ done, e'.1 ≠ e.1) (slot : UInt16)
    (he' : e' ∈ Code.freshTemps captured done) :
    (s.bound.insert e.1 slot).get? e'.1 = s.bound.get? e'.1 :=
  Dict.get?_insert_of_ne (hnew e' (List.mem_of_mem_filter he')) ..

theorem Slots.Given.apart_insert (h : s.Given captured start done) {e : UInt16 × Nat}
    (hnew : ∀ e' ∈ done, e'.1 ≠ e.1) (slot : UInt16) :
    (Code.freshTemps captured done).Pairwise (Apart (s.bound.insert e.1 slot)) := by
  refine h.apart.imp_of_mem fun {e₁ e₂} h₁ h₂ he => ?_
  unfold Apart
  rwa [get?_bound_of_new hnew slot h₁, get?_bound_of_new hnew slot h₂]

theorem freshTemps_concat (captured : Dict UInt16 UInt16) (done : List (UInt16 × Nat))
    (e : UInt16 × Nat) : Code.freshTemps captured (done ++ [e]) =
      Code.freshTemps captured done ++ if (captured.get? e.1).isNone then [e] else [] := by
  unfold Code.freshTemps
  rw [List.filter_append, List.filter_singleton, Bool.cond_eq_ite]

theorem Slots.Given.give_captured (h : s.Given captured start done) {e : UInt16 × Nat}
    (hnew : ∀ e' ∈ done, e'.1 ≠ e.1) {slot : UInt16} (he : captured.get? e.1 = some slot) :
    (s.give captured e).Given captured start (done ++ [e]) := by
  have happend := freshTemps_concat captured done e
  rw [he, Option.isNone_some, if_neg Bool.false_ne_true, List.append_nil] at happend
  unfold Slots.give
  rw [he]
  refine ⟨?_, ?_, happend ▸ h.apart_insert hnew slot⟩
  · rw [Code.freshWidth, happend]
    exact h.next
  · intro e' he'
    rw [happend] at he'
    dsimp only
    rw [get?_bound_of_new hnew slot he']
    exact h.fresh e' he'

theorem Slots.Given.give_fresh (h : s.Given captured start done) {e : UInt16 × Nat}
    (hnew : ∀ e' ∈ done, e'.1 ≠ e.1) (he : captured.get? e.1 = none)
    (hroom : start + Code.freshWidth captured (done ++ [e]) ≤ 65535) :
    (s.give captured e).Given captured start (done ++ [e]) := by
  have happend := freshTemps_concat captured done e
  rw [he, Option.isNone_none, if_pos rfl] at happend
  have hwidth : Code.freshWidth captured (done ++ [e]) = Code.freshWidth captured done + e.2 := by
    simp [Code.freshWidth, happend]
  have hstart := h.next
  have hnext : (advance s.next e.2).toNat = s.next.toNat + e.2 := by
    rw [toNat_advance]
    omega
  have hself : (s.bound.insert e.1 s.next).get? e.1 = some s.next := Dict.get?_insert_self ..
  unfold Slots.give
  rw [he]
  refine ⟨by dsimp only; omega, ?_, ?_⟩
  · intro e' he'
    dsimp only
    rw [happend] at he'
    rcases List.mem_append.1 he' with he' | he'
    · obtain ⟨slot, hslot, hge, hle⟩ := h.fresh e' he'
      exact ⟨slot, (get?_bound_of_new hnew s.next he').trans hslot, hge, by omega⟩
    · cases List.mem_singleton.1 he'
      exact ⟨s.next, hself, by omega, by omega⟩
  -- The new stretch starts where all before it have ended.
  · rw [happend]
    refine List.pairwise_append.2 ⟨h.apart_insert hnew s.next, List.pairwise_singleton .., ?_⟩
    intro e₁ h₁ e₂ h₂ s₁ s₂ hs₁ hs₂
    cases List.mem_singleton.1 h₂
    cases hself.symm.trans hs₂
    obtain ⟨slot, hslot, _, hle⟩ := h.fresh e₁ h₁
    rw [get?_bound_of_new hnew s.next h₁, hslot] at hs₁
    cases hs₁
    exact .inl hle

theorem Slots.Given.give (h : s.Given captured start done) {e : UInt16 × Nat}
    (hnew : ∀ e' ∈ done, e'.1 ≠ e.1)
    (hroom : start + Code.freshWidth captured (done ++ [e]) ≤ 65535) :
    (s.give captured e).Given captured start (done ++ [e]) := by
  cases he : captured.get? e.1 with
  | some slot => exact h.give_captured hnew he
  | none => exact h.give_fresh hnew he hroom

theorem Slots.Given.foldl {temps : List (UInt16 × Nat)} (hkeys : temps.Pairwise (·.1 ≠ ·.1))
    (hroom : s.next.toNat + Code.freshWidth captured temps ≤ 65535) :
    (temps.foldl (Slots.give captured) s).Given captured s.next.toNat temps := by
  induction temps using List.reverseRecOn with
  | nil => exact ⟨by simp [Code.freshWidth, Code.freshTemps], nofun, .nil⟩
  | append_singleton temps e ih =>
    obtain ⟨htemps, _, hnew⟩ := List.pairwise_append.1 hkeys
    rw [List.foldl_concat]
    refine (ih htemps ?_).give (fun e' he' => hnew e' he' e (List.mem_singleton_self e)) hroom
    simp [Code.freshWidth, Code.freshTemps, List.filter_append] at hroom ⊢
    omega

end Give

/-! ## One splice -/

/-- The slots that a splice needs: all that are in use, then the fresh ones, and
those that the fragment knows itself. -/
def slotNeeds (m : Method) (fragment : Code) : Nat :=
  fragment.fixedEnds.foldl max
    ((Code.slotEnds m.code.toList).foldl max m.maxLocals.toNat +
      Code.freshWidth fragment.captured fragment.temps)

/-- The splice gives a temporary that is not captured the slots from `slot` on,
as many as its widest access takes. -/
structure Fresh (m : Method) (fragment : Code) (temp slot : UInt16) (width : Nat) : Prop where
  widest : fragment.Widest temp width
  free : fragment.captured.get? temp = none
  given : (m.slotsFor fragment).bound.get? temp = some slot

section Splice
variable {m : Method} {fragment : Code}

theorem given_slotsFor (hneeds : m.slotNeeds fragment ≤ 65535) :
    (m.slotsFor fragment).Given fragment.captured (max m.maxLocals m.code.frontier).toNat
      fragment.temps := by
  obtain ⟨hfresh, _⟩ := foldl_max_le.1 hneeds
  refine Slots.Given.foldl (s := { next := max m.maxLocals m.code.frontier }) fragment.keys_temps ?_
  have hfrontier : m.code.frontier.toNat ≤
      (Code.slotEnds m.code.toList).foldl max m.maxLocals.toNat :=
    Code.frontier_le (foldl_max_le.1 (Nat.le_refl _)).2
  have hlimit := (foldl_max_le.1 (Nat.le_refl
    ((Code.slotEnds m.code.toList).foldl max m.maxLocals.toNat))).1
  dsimp only
  rw [toNat_max]
  omega

theorem mem_freshTemps {temp slot : UInt16} {width : Nat} (h : m.Fresh fragment temp slot width) :
    (temp, width) ∈ Code.freshTemps fragment.captured fragment.temps :=
  List.mem_filter.2 ⟨Dict.mem_of_get? (Code.get?_temps.2 h.widest), by simp [h.free]⟩

/-- Fresh slots start where nothing else is, and end before the next free one. -/
theorem Fresh.bounds (hneeds : m.slotNeeds fragment ≤ 65535) {temp slot : UInt16} {width : Nat}
    (h : m.Fresh fragment temp slot width) :
    (max m.maxLocals m.code.frontier).toNat ≤ slot.toNat ∧
      slot.toNat + width ≤ (m.slotsFor fragment).next.toNat := by
  obtain ⟨slot', hslot, hbounds⟩ := (given_slotsFor hneeds).fresh _ (mem_freshTemps h)
  cases h.given.symm.trans hslot
  exact hbounds

theorem Fresh.apart (hneeds : m.slotNeeds fragment ≤ 65535) {temp slot temp' slot' : UInt16}
    {width width' : Nat} (h : m.Fresh fragment temp slot width)
    (h' : m.Fresh fragment temp' slot' width') (hne : temp ≠ temp') :
    slot.toNat + width ≤ slot'.toNat ∨ slot'.toNat + width' ≤ slot.toNat :=
  (given_slotsFor hneeds).apart.forall (mem_freshTemps h) (mem_freshTemps h')
    (fun he => hne (congrArg Prod.fst he)) slot slot' h.given h'.given

/-- What a splice does about locals. -/
structure Allots (m : Method) (index count : Nat) (fragment : Code) (result : Nat × Method) :
    Prop where
  given : ∀ temp width, fragment.Widest temp width → fragment.captured.get? temp = none →
    ∃ slot, m.Fresh fragment temp slot width
  above : ∀ temp slot width, m.Fresh fragment temp slot width →
    m.maxLocals.toNat ≤ slot.toNat ∧ ∀ stop ∈ Code.slotEnds m.code.toList, stop ≤ slot.toNat
  apart : ∀ temp slot width temp' slot' width', m.Fresh fragment temp slot width →
    m.Fresh fragment temp' slot' width' → temp ≠ temp' →
      slot.toNat + width ≤ slot'.toNat ∨ slot'.toNat + width' ≤ slot.toNat
  captured : ∀ temp width slot, fragment.Widest temp width →
    fragment.captured.get? temp = some slot → (m.slotsFor fragment).bound.get? temp = some slot
  placed : ∃ put relabel, put.length = result.1 ∧
    result.2.code.toList =
      m.code.toList.take index ++ put ++ m.code.toList.drop (index + count) ∧
    (∀ i ∈ put, i.NoTemp) ∧
    realNodes put = (realNodes fragment.toList).map fun i =>
      (i.mapLocal (Code.bindLocal (m.slotsFor fragment).bound)).mapLabels relabel
  limit : ∀ stop ∈ Code.slotEnds result.2.code.toList, stop ≤ result.2.maxLocals.toNat

theorem slotEnds_le_of_needs (hneeds : m.slotNeeds fragment ≤ 65535) :
    ∀ stop ∈ Code.slotEnds m.code.toList,
      stop ≤ (max m.maxLocals m.code.frontier).toNat := by
  obtain ⟨hused, _⟩ := foldl_max_le.1 hneeds
  refine List.forall_mem_map.2 fun a ha => ?_
  have hfit := (foldl_max_le.1 (Nat.le_trans (Nat.le_add_right ..) hused)).2 _
    (List.mem_map_of_mem (f := fun a : UInt16 × Nat => a.1.toNat + a.2) ha)
  have := Code.le_frontier ha hfit
  rw [toNat_max]
  omega

/-- Once its temporaries have their slots, all accesses of a fragment end within
the numbers of slots. -/
theorem slotEnds_bindTemps (hneeds : m.slotNeeds fragment ≤ 65535) {a : UInt16 × Nat}
    (ha : a ∈ Code.slotAccesses (fragment.bindTemps (m.slotsFor fragment).bound).toList) :
    a.1.toNat + a.2 ≤ 65535 := by
  obtain ⟨_, hfixed⟩ := foldl_max_le.1 hneeds
  obtain ⟨i, hi, haccess⟩ := Code.mem_slotAccesses.1 ha
  rw [Code.toList_bindTemps] at hi
  obtain ⟨j, hj, rfl⟩ := List.mem_map.1 hi
  rw [Code.access?_mapLocal, Option.map_eq_some_iff] at haccess
  obtain ⟨⟨x, w⟩, hx, he⟩ := haccess
  obtain ⟨hslot, rfl⟩ := Prod.mk.inj he
  have hknown : ∀ stop, (match x with
      | .slot n => some (n.toNat + a.2)
      | .temp t => (fragment.captured.get? t).map fun s => s.toNat + a.2) = some stop →
        stop ≤ 65535 := fun stop hstop =>
    hfixed _ (List.mem_filterMap.2 ⟨_, List.mem_filterMap.2 ⟨j, hj, hx⟩, hstop⟩)
  cases x with
  | slot n =>
    cases hslot
    exact hknown _ rfl
  | temp t =>
    obtain ⟨slot, hbound⟩ := Option.isSome_iff_exists.1 (m.slotsFor_covers hj hx)
    rw [Code.bindLocal, hbound] at hslot
    cases hslot
    cases hcaptured : fragment.captured.get? t with
    | some slot =>
      cases bound_of_captured hcaptured hbound
      exact hknown _ (congrArg (Option.map fun s => s.toNat + a.2) hcaptured)
    | none =>
      have hused := Code.mem_tempAccesses (a := (t, a.2)) |>.2 ⟨j, hj, hx⟩
      obtain ⟨width, hwidest⟩ := Code.exists_widest hused
      have hend := (Fresh.bounds hneeds ⟨hwidest, hcaptured, hbound⟩).2
      have hle := hwidest.widest a.2 hused
      have hmax := (m.slotsFor fragment).next.toNat_lt
      omega

/-- Every temporary that is accessed gets a slot. -/
theorem exists_slot {temp : UInt16} {width : Nat} (h : fragment.Widest temp width) :
    ∃ slot, (m.slotsFor fragment).bound.get? temp = some slot := by
  obtain ⟨i, hi, ht⟩ := Code.mem_tempAccesses.1 h.used
  exact Option.isSome_iff_exists.1 (m.slotsFor_covers hi ht)

/-- The nodes that are put in are those of the fragment, on slots. -/
theorem placed_splice (h : m.code.Stored) (hb : fragment.Binds m.code) (index count : Nat) :
    ∃ put relabel, put.length = (m.splice index count fragment).1 ∧
      (m.splice index count fragment).2.code.toList =
        m.code.toList.take index ++ put ++ m.code.toList.drop (index + count) ∧
      (∀ i ∈ put, i.NoTemp) ∧
      realNodes put = (realNodes fragment.toList).map fun i =>
        (i.mapLocal (Code.bindLocal (m.slotsFor fragment).bound)).mapLabels relabel := by
  have hbound : (fragment.bindTemps (m.slotsFor fragment).bound).Binds m.code := hb
  have hreal := Code.realNodes_insertion h hbound index count
  rw [Code.toList_bindTemps, realNodes_map (Code.isReal_mapLocal _), List.map_map] at hreal
  refine ⟨_, _, Code.length_insertion h hbound index count, Code.toList_splice h hbound index count,
    fun i hi => ?_, hreal⟩
  by_cases hpseudo : i.isPseudo
  · exact Insn.noTemp_of_pseudo hpseudo
  · have hmem : i ∈ realNodes (Code.insertion m.code index count
        (fragment.bindTemps (m.slotsFor fragment).bound)) :=
      List.mem_filter.2 ⟨hi, by simp [Insn.isReal, hpseudo]⟩
    rw [hreal] at hmem
    obtain ⟨j, hj, rfl⟩ := List.mem_map.1 hmem
    refine Insn.noTemp_mapLabels.2 (Code.noTemp_bindLocal fun t w ht => ?_)
    exact m.slotsFor_covers (List.mem_of_mem_filter hj) ht

/-- After a splice the limit of locals is past every slot that the code accesses. -/
theorem limit_splice (h : m.code.Stored) (hb : fragment.Binds m.code)
    (hneeds : m.slotNeeds fragment ≤ 65535) (index count : Nat) :
    ∀ stop ∈ Code.slotEnds (m.splice index count fragment).2.code.toList,
      stop ≤ (m.splice index count fragment).2.maxLocals.toNat := by
  have hlimit : (m.splice index count fragment).2.maxLocals.toNat =
      max (max m.maxLocals.toNat (m.slotsFor fragment).next.toNat)
        (fragment.bindTemps (m.slotsFor fragment).bound).frontier.toNat := by
    change (max (max _ _) _ : UInt16).toNat = _
    rw [toNat_max, toNat_max]
  have hbound : (fragment.bindTemps (m.slotsFor fragment).bound).Binds m.code := hb
  have hstart := (given_slotsFor hneeds).next
  refine List.forall_mem_map.2 fun a ha => ?_
  obtain ⟨i, hi, haccess⟩ := Code.mem_slotAccesses.1 ha
  rw [hlimit]
  rcases Code.mem_splice h hbound index count hi with hold | ⟨l, rfl⟩ | ⟨j, hj, rfl⟩
  · have hend := slotEnds_le_of_needs hneeds _ (List.mem_map_of_mem
      (f := fun a : UInt16 × Nat => a.1.toNat + a.2) (Code.mem_slotAccesses.2 ⟨i, hold, haccess⟩))
    omega
  · cases haccess
  · rw [Insn.access?_mapLabels] at haccess
    have hmem := Code.mem_slotAccesses.2 ⟨j, hj, haccess⟩
    have := Code.le_frontier hmem (slotEnds_bindTemps hneeds hmem)
    omega

theorem allots_splice (h : m.code.Stored) (hb : fragment.Binds m.code)
    (hneeds : m.slotNeeds fragment ≤ 65535) (index count : Nat) :
    m.Allots index count fragment (m.splice index count fragment) := by
  refine ⟨?_, ?_, ?_, ?_, placed_splice h hb index count, limit_splice h hb hneeds index count⟩
  · intro temp width hwidest hfree
    obtain ⟨slot, hslot⟩ := exists_slot hwidest
    exact ⟨slot, hwidest, hfree, hslot⟩
  · intro temp slot width hfresh
    have hge := (hfresh.bounds hneeds).1
    refine ⟨?_, fun stop hstop => Nat.le_trans (slotEnds_le_of_needs hneeds stop hstop) hge⟩
    rw [toNat_max] at hge
    omega
  · exact fun _ _ _ _ _ _ hfresh hfresh' hne => hfresh.apart hneeds hfresh' hne
  · intro temp width slot hwidest hcaptured
    obtain ⟨slot', hslot⟩ := exists_slot (m := m) hwidest
    rw [hslot, bound_of_captured hcaptured hslot]

end Splice

/-! ## Runs of splices -/

/-- One splice of a run. -/
structure Turn where
  index : Nat
  count : Nat
  fragment : Code

/-- What one splice of a run makes of the method, with the number of nodes put in. -/
def turn (m : Method) (t : Turn) : Nat × Method := m.splice t.index t.count t.fragment

/-- The method after some splices, one after the other. -/
def turns (m : Method) (ts : List Turn) : Method := ts.foldl (fun m t => (m.turn t).2) m

/-- The fragment binds labels of the method that it goes into, and there are slots enough. -/
structure Takes (m : Method) (t : Turn) : Prop where
  binds : t.fragment.Binds m.code
  needs : m.slotNeeds t.fragment ≤ 65535

/-- Every splice of the run finds the method so that it takes the fragment. -/
def TakesAll (m : Method) : List Turn → Prop
  | [] => True
  | t :: ts => m.Takes t ∧ (m.turn t).2.TakesAll ts

theorem takesAll_append {m : Method} {ts us : List Turn} :
    m.TakesAll (ts ++ us) ↔ m.TakesAll ts ∧ (m.turns ts).TakesAll us := by
  induction ts generalizing m with
  | nil => exact ⟨fun h => ⟨trivial, h⟩, fun h => h.2⟩
  | cons t ts ih => exact (and_congr_right fun _ => ih).trans and_assoc.symm

/-- The limit only grows. -/
theorem maxLocals_le_turns (m : Method) (ts : List Turn) :
    m.maxLocals.toNat ≤ (m.turns ts).maxLocals.toNat := by
  induction ts generalizing m with
  | nil => exact Nat.le_refl _
  | cons t ts ih =>
    refine Nat.le_trans ?_ (ih (m.turn t).2)
    change _ ≤ (max (max _ _) _ : UInt16).toNat
    rw [toNat_max, toNat_max]
    omega

/-- The limit is past all slots that were given. -/
theorem Fresh.le_limit {m : Method} {t : Turn} (hneeds : m.slotNeeds t.fragment ≤ 65535)
    {temp slot : UInt16} {width : Nat} (h : m.Fresh t.fragment temp slot width) :
    slot.toNat + width ≤ (m.turn t).2.maxLocals.toNat := by
  refine Nat.le_trans (h.bounds hneeds).2 ?_
  change _ ≤ (max (max _ _) _ : UInt16).toNat
  rw [toNat_max, toNat_max]
  omega

theorem stored_turns {m : Method} (h : m.code.Stored) {ts : List Turn} (hts : m.TakesAll ts) :
    (m.turns ts).code.Stored := by
  induction ts generalizing m with
  | nil => exact h
  | cons t ts ih =>
    have hbound : (t.fragment.bindTemps (m.slotsFor t.fragment).bound).Binds m.code := hts.1.binds
    exact ih (Code.stored_splice h hbound t.index t.count) hts.2

/-- Over any run of splices each fresh temporary has slots of its own: apart
from those of its fragment, past all that the method uses at the time, and so
past those of all splices before. The limit stays past every access. -/
theorem fresh_slots_never_alias {m : Method} (h : m.code.Stored) {before after : List Turn}
    {t : Turn} (hrun : m.TakesAll (before ++ t :: after)) :
    (m.turns before).Allots t.index t.count t.fragment ((m.turns before).turn t) ∧
    ∀ first earlier between, before = first ++ earlier :: between →
      ∀ temp slot width temp' slot' width',
        (m.turns first).Fresh earlier.fragment temp slot width →
        (m.turns before).Fresh t.fragment temp' slot' width' →
        slot.toNat + width ≤ slot'.toNat := by
  obtain ⟨hbefore, ht, _⟩ := takesAll_append.1 hrun
  have hallots := allots_splice (stored_turns h hbefore) ht.binds ht.needs t.index t.count
  refine ⟨hallots, ?_⟩
  rintro first earlier between rfl temp slot width temp' slot' width' hold hnew
  obtain ⟨_, hearlier, _⟩ := takesAll_append.1 hbefore
  have hturns : m.turns (first ++ earlier :: between) =
      ((m.turns first).turn earlier).2.turns between := List.foldl_append ..
  calc slot.toNat + width
      ≤ ((m.turns first).turn earlier).2.maxLocals.toNat := hold.le_limit hearlier.needs
    _ ≤ (m.turns (first ++ earlier :: between)).maxLocals.toNat := by
      rw [hturns]
      exact maxLocals_le_turns _ between
    _ ≤ slot'.toNat := (hallots.above _ _ _ hnew).1

/-- A static method that stores its parameter. -/
def storing : Method :=
  { create 8 "m" "(I)V" with
    code := Code.empty.pushAll [.var .ILOAD (.slot 0), .var .ISTORE (.slot 1), .simple .RETURN]
    maxLocals := 2 }

/-- Stores a number and a wide one in temporaries, the wide one in two slots. -/
def storeBoth : Turn where
  index := 0
  count := 0
  fragment := Code.empty.pushAll
    [.simple .ICONST_0, .var .ISTORE (.temp 0), .simple .LCONST_0, .var .LSTORE (.temp 1)]

theorem storeBoth_twice_never_aliases :
    storing.code.Stored ∧ storing.TakesAll [storeBoth, storeBoth] ∧
    (storing.turns [storeBoth]).Allots 0 0 storeBoth.fragment
      ((storing.turns [storeBoth]).turn storeBoth) := by
  have hstored : storing.code.Stored := by decide
  have hbinds : ∀ host, storeBoth.fragment.Binds host := fun host l i hi => nomatch hi
  have hrun : storing.TakesAll ([storeBoth] ++ storeBoth :: []) :=
    ⟨⟨hbinds _, by decide +kernel⟩, ⟨hbinds _, by decide +kernel⟩, trivial⟩
  exact ⟨hstored, hrun, (fresh_slots_never_alias hstored hrun).1⟩

end Method

end ClassPatch
