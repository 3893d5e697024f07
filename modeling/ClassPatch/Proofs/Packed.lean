-- New slots for the locals of a method. What starts in the parameters stays;
-- every other pair of slot and width gets a stretch of slots of its own, and
-- the stretches follow one another in the order of first use, up to the new
-- limit. So no two locals meet, and none is split or joined.
import ClassPatch.Proofs.Edits
import ClassPatch.Proofs.FreshSlots
import Mathlib.Data.List.Nodup

namespace ClassPatch

/-! ## Changes of nodes in place -/

namespace Code

/-- No node that accesses a local stands in place twice. A marker may: a change of
accesses does nothing to it. -/
def Unshared (c : Code) : Prop :=
  ∀ h ∈ c.order.toList, (c.store[h]?.bind Insn.access?).isSome → c.order.toList.count h = 1

instance (c : Code) : Decidable c.Unshared :=
  inferInstanceAs (Decidable (∀ h ∈ c.order.toList,
    (c.store[h]?.bind Insn.access?).isSome → c.order.toList.count h = 1))

/-- A pushed node is new to the store, unless it is the marker of a label of the code. -/
theorem Unshared.push {c : Code} (h : c.Unshared) (hmade : ∀ k ∈ c.order.toList, k < c.store.size)
    {i : Node} (hi : ∀ l, i = .label l → c.store[l]? = some i) : (c.push i).Unshared := by
  cases i with
  | label l =>
    have horder : (c.push (.label l)).order.toList = c.order.toList ++ [l] := Array.toList_push
    intro k hk ha
    have hne : l ≠ k := by
      rintro rfl
      have ha : ((c.store[l]?).bind Insn.access?).isSome := ha
      rw [hi l rfl] at ha
      cases ha
    rw [horder, List.mem_append, List.mem_singleton] at hk
    rw [horder, List.count_append, List.count_singleton, if_neg (by simpa using hne)]
    exact h k (hk.resolve_right hne.symm) ha
  | _ =>
    intro k hk ha
    simp only [Code.push, Array.toList_push, List.mem_append, List.mem_singleton] at hk ⊢
    rw [List.count_append]
    rcases hk with hk | rfl
    · have hlt := hmade k hk
      simp only [Code.push, Array.getElem?_push_lt hlt] at ha
      rw [List.count_singleton, if_neg (by simpa using Nat.ne_of_gt hlt)]
      exact h k hk (by rwa [Array.getElem?_eq_getElem hlt])
    · have hnew : c.store.size ∉ c.order.toList := fun hk => Nat.lt_irrefl _ (hmade _ hk)
      rw [List.count_eq_zero_of_not_mem hnew, List.count_singleton_self]

/-- Code that is made node by node has each access in place once. -/
theorem unshared_pushAll {n : Nat} {nodes : List Node} (hn : ∀ l ∈ markers nodes, l < n) :
    ((withLabels n).pushAll nodes).Unshared := by
  induction nodes using List.reverseRecOn with
  | nil => exact fun k hk => nomatch hk
  | append_singleton nodes i ih =>
    rw [markers_append] at hn
    have hl := laid_pushAll fun l h => hn l (List.mem_append_left _ h)
    unfold pushAll at ih hl ⊢
    rw [List.foldl_concat]
    refine (ih fun l h => hn l (List.mem_append_left _ h)).push hl.made ?_
    rintro l rfl
    exact hl.labels l (hn l (List.mem_append_right _ (List.mem_singleton_self _)))

/-- A change of accesses only is made once at every node in place. -/
theorem toList_mapNodes_of_unshared {c : Code} (hc : c.Unshared) {f : Node → Node}
    (hf : ∀ i, i.access? = none → f i = i) : (c.mapNodes f).toList = c.toList.map f := by
  have hrep : ∀ n i, i.access? = none → Nat.repeat f n i = i := by
    intro n i hi
    induction n with
    | zero => rfl
    | succ n ih => rw [Nat.repeat, ih, hf i hi]
  unfold toList nodesOf
  rw [List.map_filterMap]
  apply List.filterMap_congr
  intro h hh
  have hh : h ∈ c.order.toList := hh
  rw [getElem?_mapNodes]
  cases hi : c.store[h]? with
  | none => rfl
  | some i =>
    cases ha : i.access? with
    | none => simp [hrep _ i ha, hf i ha]
    | some a =>
      have hone := hc h hh (by simp [hi, ha])
      simp [hone, Nat.repeat]

end Code

namespace Method

/-! ## Slots renamed -/

/-- A slot that is accessed with some width, renamed; a temporary stays. -/
def renameLocal (f : Use → UInt16) (width : Nat) : Local → Local
  | .slot n => .slot (f (n, width))
  | .temp t => .temp t

/-- The node with its slot renamed, by the slot and the width of the access. -/
def renameSlot (f : Use → UInt16) : Node → Node
  | .var op x => .var op (renameLocal f op.slotWidth x)
  | .iinc x delta => .iinc (renameLocal f 1 x) delta
  | i => i

theorem Packing.move_eq (p : Packing) (i : Node) : p.move i = renameSlot p.slot i := by
  cases i with
  | var op x => cases x <;> rfl
  | iinc x delta => cases x <;> rfl
  | _ => rfl

theorem renameSlot_of_no_access (f : Use → UInt16) {i : Node} (h : i.access? = none) :
    renameSlot f i = i := by
  cases i with
  | var op x => cases h
  | iinc x delta => cases h
  | _ => rfl

/-- The second method is the first one with its slots renamed and with a limit of its own. -/
structure Renamed (f : Use → UInt16) (m m' : Method) : Prop where
  nodes : m'.code.toList = m.code.toList.map (renameSlot f)
  locals : m'.locals = m.locals.map fun v => { v with slot := f (v.slot, v.width) }
  rest : m' = { m with
    code := { m.code with store := m'.code.store }
    locals := m'.locals
    maxLocals := m'.maxLocals }

/-! ## Widths -/

theorem slotWidth_pos (op : Opcode) : 0 < op.slotWidth := by
  unfold Opcode.slotWidth
  split <;> decide

theorem scanField_pos {inArray : Bool} {cs rest : List Char} {w : Nat}
    (h : Descriptor.scanField inArray cs = some (w, rest)) : 0 < w := by
  induction cs generalizing inArray with
  | nil => cases h
  | cons c cs ih =>
    unfold Descriptor.scanField at h
    split at h
    · exact ih h
    · split at h
      · split at h
        · cases h
        · split at h <;> cases h
          decide
      · obtain ⟨v, hv, he⟩ := Option.map_eq_some_iff.1 h
        cases he
        split
        · decide
        · unfold Descriptor.baseWidth? at hv
          split at hv <;> cases hv <;> decide

theorem width_pos (v : LocalVar) : 0 < v.width := by
  unfold LocalVar.width Descriptor.fieldWidth?
  split
  · exact scanField_pos ‹_›
  · decide

theorem access_pos {i : Node} {x : Local} {w : Nat} (h : i.access? = some (x, w)) : 0 < w := by
  cases i with
  | var op y =>
    cases h
    exact slotWidth_pos op
  | iinc y delta =>
    cases h
    decide
  | _ => cases h

/-- Every use of a slot takes at least that slot. -/
theorem uses_pos (m : Method) : ∀ u ∈ m.uses, 0 < u.2 := by
  intro u hu
  rcases List.mem_append.1 hu with hu | hu
  · obtain ⟨i, _, ha⟩ := Code.mem_slotAccesses.1 hu
    exact access_pos ha
  · obtain ⟨v, _, rfl⟩ := List.mem_map.1 hu
    exact width_pos v

/-! ## What packing is to give -/

/-- The uses outside the parameters, each once, in the order of first use. -/
def packed (params : Nat) (us : List Use) : List Use :=
  (us.filter fun u => params ≤ u.1.toNat).eraseDups

/-- How far the parameters reach with every use that starts in them. -/
def reach (params : Nat) (us : List Use) : Nat :=
  ((us.filter fun u => u.1.toNat < params).map fun u => u.1.toNat + u.2).foldl max params

/-- The slots that some uses need once they are packed. -/
def packedSize (params : Nat) (us : List Use) : Nat :=
  reach params us + ((packed params us).map (·.2)).sum

/-- Stretches of slots, each with its width, that follow one another without gaps. -/
def Tiles : Nat → List (Nat × Nat) → Nat → Prop
  | start, [], stop => start = stop
  | start, s :: rest, stop => s.1 = start ∧ Tiles (start + s.2) rest stop

/-- Two stretches of slots do not meet. -/
def Separate (s t : Nat × Nat) : Prop := s.1 + s.2 ≤ t.1 ∨ t.1 + t.2 ≤ s.1

/-- The stretch of slots that a use gets. -/
def stretch (f : Use → UInt16) (u : Use) : Nat × Nat := ((f u).toNat, u.2)

/-- What new slots of some uses are to be. -/
structure Packs (params : Nat) (us : List Use) (f : Use → UInt16) (limit : Nat) : Prop where
  stays : ∀ u ∈ us, u.1.toNat < params → f u = u.1
  same : ∀ u ∈ us, ∀ v ∈ us, params ≤ u.1.toNat → params ≤ v.1.toNat → (f u = f v ↔ u = v)
  apart : ∀ u ∈ us, ∀ v ∈ us, params ≤ u.1.toNat → params ≤ v.1.toNat → u ≠ v →
    Separate (stretch f u) (stretch f v)
  clear : ∀ u ∈ us, params ≤ u.1.toNat → params ≤ (f u).toNat ∧
    ∀ v ∈ us, v.1.toNat < params → (f v).toNat + v.2 ≤ (f u).toNat
  tiles : Tiles (reach params us) ((packed params us).map (stretch f)) limit

/-! ## Tilings -/

theorem tiles_append {start stop : Nat} {xs ys : List (Nat × Nat)} :
    Tiles start (xs ++ ys) stop ↔ ∃ mid, Tiles start xs mid ∧ Tiles mid ys stop := by
  induction xs generalizing start with
  | nil => exact ⟨fun h => ⟨start, rfl, h⟩, by rintro ⟨_, rfl, h⟩; exact h⟩
  | cons x xs ih =>
    rw [List.cons_append, Tiles, ih]
    constructor
    · rintro ⟨hx, mid, hxs, hys⟩
      exact ⟨mid, ⟨hx, hxs⟩, hys⟩
    · rintro ⟨mid, ⟨hx, hxs⟩, hys⟩
      exact ⟨hx, mid, hxs, hys⟩

/-- A tiling ends after all its widths. -/
theorem Tiles.stop_eq {start stop : Nat} {xs : List (Nat × Nat)} (h : Tiles start xs stop) :
    stop = start + (xs.map (·.2)).sum := by
  induction xs generalizing start with
  | nil => exact h.symm
  | cons x xs ih =>
    rw [ih h.2, List.map_cons, List.sum_cons, Nat.add_assoc]

theorem Tiles.start_le {start stop : Nat} {xs : List (Nat × Nat)} (h : Tiles start xs stop) :
    ∀ x ∈ xs, start ≤ x.1 := by
  induction xs generalizing start with
  | nil => exact nofun
  | cons x xs ih =>
    refine List.forall_mem_cons.2 ⟨Nat.le_of_eq h.1.symm, fun y hy => ?_⟩
    have := ih h.2 y hy
    omega

/-- Each stretch ends before the next ones start. -/
theorem Tiles.pairwise {start stop : Nat} {xs : List (Nat × Nat)} (h : Tiles start xs stop) :
    xs.Pairwise fun x y => x.1 + x.2 ≤ y.1 := by
  induction xs generalizing start with
  | nil => exact .nil
  | cons x xs ih =>
    refine List.pairwise_cons.2 ⟨fun y hy => ?_, ih h.2⟩
    have := h.2.start_le y hy
    have := h.1
    omega

/-! ## Uses in order of first use -/

section Uses
variable {params : Nat} {us : List Use}

theorem mem_packed {u : Use} : u ∈ packed params us ↔ u ∈ us ∧ params ≤ u.1.toNat := by
  simp [packed]

theorem packed_concat (params : Nat) (us : List Use) (u : Use) :
    packed params (us ++ [u]) = packed params us ++
      if params ≤ u.1.toNat ∧ u ∉ packed params us then [u] else [] := by
  by_cases hu : params ≤ u.1.toNat
  · by_cases hmem : u ∈ us
    · simp [packed, List.eraseDups_append, List.removeAll, hu, hmem]
    · simp [packed, List.eraseDups_append, List.removeAll, hu, hmem]
      rfl
  · simp [packed, hu]

theorem params_le_reach (params : Nat) (us : List Use) : params ≤ reach params us :=
  (foldl_max_le.1 (Nat.le_refl _)).1

theorem le_reach {u : Use} (hu : u ∈ us) (hlt : u.1.toNat < params) :
    u.1.toNat + u.2 ≤ reach params us := by
  have hmem : u ∈ us.filter fun u => u.1.toNat < params :=
    List.mem_filter.2 ⟨hu, by simpa using hlt⟩
  exact (foldl_max_le.1 (Nat.le_refl (reach params us))).2 _ (List.mem_map_of_mem hmem)

end Uses

/-! ## The run over the uses -/

theorem toNat_saturate_of_le {n : Nat} (h : n ≤ 65535) : (saturate n).toNat = n :=
  (toNat_saturate n).trans (Nat.min_eq_left h)

theorem lt_saturate {params : Nat} (hp : params ≤ 65535) {n : UInt16} :
    n < saturate params ↔ n.toNat < params := by
  rw [UInt16.lt_iff_toNat_lt, toNat_saturate_of_le hp]

theorem reach_concat (params : Nat) (us : List Use) (u : Use) : reach params (us ++ [u]) =
    if u.1.toNat < params then max (reach params us) (u.1.toNat + u.2) else reach params us := by
  by_cases hu : u.1.toNat < params <;> simp [reach, List.filter_append, hu]

/-- While slot numbers are large enough, the area of the parameters reaches as far
as the uses that start in it. -/
theorem toNat_paramArea {params : Nat} {us : List Use} (h : reach params us ≤ 65535) :
    (paramArea (saturate params) us).toNat = reach params us := by
  have hp : params ≤ 65535 := Nat.le_trans (params_le_reach params us) h
  induction us using List.reverseRecOn with
  | nil => exact toNat_saturate_of_le hp
  | append_singleton us u ih =>
    rw [reach_concat] at h ⊢
    unfold paramArea at ih ⊢
    rw [List.foldl_concat]
    by_cases hu : u.1.toNat < params
    · rw [if_pos hu] at h ⊢
      rw [if_pos ((lt_saturate hp).2 hu), toNat_max, ih (by omega), toNat_advance]
      omega
    · rw [if_neg hu] at h ⊢
      rw [if_neg (mt (lt_saturate hp).1 hu), ih h]

/-- What holds of the packing once the uses in `done` were met. -/
structure Packing.Met (params start : Nat) (done : List Use) (p : Packing) : Prop where
  keys : ∀ u, p.slots.contains u = true ↔ u ∈ packed params done
  tiles : Tiles start ((packed params done).map (stretch p.slot)) p.next.toNat

section Met
variable {params start : Nat} {done us : List Use} {p : Packing}

theorem Packing.Met.next_eq (h : p.Met params start done) :
    p.next.toNat = start + ((packed params done).map (·.2)).sum := by
  rw [h.tiles.stop_eq, List.map_map]
  rfl

/-- A use that has no slot of its own stays where it is. -/
theorem Packing.Met.slot_eq (h : p.Met params start done) {u : Use}
    (hu : u ∉ packed params done) : p.slot u = u.1 := by
  refine Std.HashMap.getD_eq_fallback fun hc => hu ((h.keys u).1 ?_)
  exact Std.HashMap.contains_iff_mem.2 hc

theorem Packing.slot_insert (p : Packing) (u v : Use) (next : UInt16) :
    Packing.slot { slots := p.slots.insert u p.next, next } v =
      if u = v then p.next else p.slot v := by
  unfold Packing.slot
  rw [Std.HashMap.getD_insert]
  simp only [beq_iff_eq]

/-- A new use gets the slots behind all others. -/
theorem Packing.Met.add_new (h : p.Met params start done) {u : Use} (hu : u ∉ packed params done)
    (hpacked : packed params (done ++ [u]) = packed params done ++ [u])
    (hroom : p.next.toNat + u.2 ≤ 65535) :
    Packing.Met params start (done ++ [u])
      { slots := p.slots.insert u p.next, next := advance p.next u.2 } := by
  refine ⟨fun v => ?_, ?_⟩
  · rw [hpacked, List.mem_append, List.mem_singleton, ← h.keys v, Std.HashMap.contains_insert,
      Bool.or_eq_true, beq_iff_eq, eq_comm (a := u)]
    exact or_comm
  · have hold : ∀ v ∈ packed params done, stretch (Packing.slot
        { slots := p.slots.insert u p.next, next := advance p.next u.2 }) v = stretch p.slot v := by
      intro v hv
      have hne : u ≠ v := fun he => hu (he ▸ hv)
      rw [stretch, Packing.slot_insert, if_neg hne, stretch]
    rw [hpacked, List.map_append, List.map_congr_left hold]
    refine tiles_append.2 ⟨_, h.tiles, ?_, ?_⟩
    · rw [stretch, Packing.slot_insert, if_pos rfl]
    · change p.next.toNat + u.2 = (advance p.next u.2).toNat
      rw [toNat_advance, Nat.min_eq_left hroom]

theorem Packing.Met.add (h : p.Met params start done) (hp : params ≤ 65535) {u : Use}
    (hroom : start + ((packed params (done ++ [u])).map (·.2)).sum ≤ 65535) :
    (p.add (saturate params) u).Met params start (done ++ [u]) := by
  have hkept : (decide (u.1 < saturate params) || p.slots.contains u) = true ↔
      ¬(params ≤ u.1.toNat ∧ u ∉ packed params done) := by
    rw [Bool.or_eq_true, decide_eq_true_eq, lt_saturate hp, h.keys, ← Nat.not_le]
    exact (not_and_or.trans (or_congr_right not_not)).symm
  have hpacked := packed_concat params done u
  unfold Packing.add
  split
  · rename_i hk
    rw [if_neg (hkept.1 hk), List.append_nil] at hpacked
    exact ⟨by rw [hpacked]; exact h.keys, by rw [hpacked]; exact h.tiles⟩
  · rename_i hk
    have hnew := not_not.1 (mt hkept.2 hk)
    rw [if_pos hnew] at hpacked
    refine h.add_new hnew.2 hpacked ?_
    rw [hpacked, List.map_append, List.sum_append, List.map_singleton, List.sum_singleton] at hroom
    rw [h.next_eq]
    omega

/-- Every use has its slot at the end of the run. -/
theorem met_foldl (hp : params ≤ 65535) (next : UInt16)
    (hroom : next.toNat + ((packed params us).map (·.2)).sum ≤ 65535) :
    (us.foldl (Packing.add (saturate params)) { next }).Met params next.toNat us := by
  induction us using List.reverseRecOn with
  | nil => exact ⟨fun u => by simp [packed], rfl⟩
  | append_singleton us u ih =>
    rw [List.foldl_concat]
    refine (ih ?_).add hp hroom
    rw [packed_concat, List.map_append, List.sum_append] at hroom
    omega

theorem met_packing (h : packedSize params us ≤ 65535) :
    (packing (saturate params) us).Met params (reach params us) us := by
  have hreach : reach params us ≤ 65535 := Nat.le_trans (Nat.le_add_right ..) h
  have hp := Nat.le_trans (params_le_reach params us) hreach
  have harea := toNat_paramArea hreach
  rw [← harea]
  exact met_foldl hp _ (by rw [harea]; exact h)

/-- The stretches of two uses outside the parameters do not meet. -/
theorem Packing.Met.apart (h : p.Met params start us) {u v : Use} (hu : u ∈ packed params us)
    (hv : v ∈ packed params us) (hne : u ≠ v) :
    Separate (stretch p.slot u) (stretch p.slot v) := by
  have : Std.Symm fun u v : Use => Separate (stretch p.slot u) (stretch p.slot v) :=
    ⟨fun _ _ => Or.symm⟩
  have hpair : (packed params us).Pairwise fun u v =>
      Separate (stretch p.slot u) (stretch p.slot v) :=
    (List.pairwise_map.1 h.tiles.pairwise).imp Or.inl
  exact hpair.forall hu hv hne

theorem packs_packing (hpos : ∀ u ∈ us, 0 < u.2) (h : packedSize params us ≤ 65535) :
    Packs params us (packing (saturate params) us).slot
      (packing (saturate params) us).next.toNat := by
  have hm := met_packing h
  have hstays : ∀ u ∈ us, u.1.toNat < params → (packing (saturate params) us).slot u = u.1 :=
    fun u _ hlt => hm.slot_eq fun hu => absurd (mem_packed.1 hu).2 (Nat.not_le.2 hlt)
  have hapart : ∀ u ∈ us, ∀ v ∈ us, params ≤ u.1.toNat → params ≤ v.1.toNat → u ≠ v →
      _ := fun u hu v hv hpu hpv => hm.apart (mem_packed.2 ⟨hu, hpu⟩) (mem_packed.2 ⟨hv, hpv⟩)
  refine ⟨hstays, fun u hu v hv hpu hpv => ⟨fun heq => ?_, fun heq => heq ▸ rfl⟩, hapart,
    fun u hu hpu => ?_, hm.tiles⟩
  · refine Decidable.byContradiction fun hne => ?_
    have h := hapart u hu v hv hpu hpv hne
    have hwu := hpos u hu
    have hwv := hpos v hv
    unfold Separate stretch at h
    rw [heq] at h
    omega
  · have hstart := hm.tiles.start_le _ (List.mem_map_of_mem (mem_packed.2 ⟨hu, hpu⟩))
    refine ⟨Nat.le_trans (params_le_reach params us) hstart, fun v hv hlt => ?_⟩
    rw [hstays v hv hlt]
    exact Nat.le_trans (le_reach hv hlt) hstart

end Met

/-! ## Renumbering -/

section Renumber
variable {m : Method}

/-- Renumbering succeeds where the descriptor is valid, and renames slots as packing has them. -/
theorem renumber_eq_ok (h : m.code.Unshared) {params : Nat} (hp : m.paramSlots = .ok params) :
    ∃ m', m.renumber = .ok m' ∧ Renamed (packing (saturate params) m.uses).slot m m' ∧
      m'.maxLocals = (packing (saturate params) m.uses).next := by
  have hf : ∀ i : Node, i.access? = none → (packing (saturate params) m.uses).move i = i :=
    fun i hi => (Packing.move_eq _ i).trans (renameSlot_of_no_access _ hi)
  unfold renumber
  rw [hp]
  refine ⟨_, rfl, ⟨?_, rfl, rfl⟩, rfl⟩
  refine (Code.toList_mapNodes_of_unshared h hf).trans ?_
  exact List.map_congr_left fun i _ => Packing.move_eq _ i

theorem renumber_of_invalid (h : Descriptor.methodShape? m.desc = none) :
    m.renumber = .error (.invalidDescriptor m.desc) := by
  unfold renumber paramSlots methodShape
  rw [h]
  rfl

end Renumber

end Method

/-- A method that cannot be renumbered stays in its class as it is. -/
theorem Patch.run_pack_of_invalid (p : Patch) {k : Patch.Key} {c : Class} {i : Nat} {m : Method}
    (hi : c.spot? k = some i) (hm : c.methods[i]? = some m)
    (h : Descriptor.methodShape? m.desc = none) : ((p.pack k).run.run c).2 = c := by
  have hi : c.methodIndex? k.1 k.2 = some i := hi
  unfold Patch.pack
  rw [Patching.run_get_bind, hi]
  dsimp only
  rw [hm]
  dsimp only
  rw [Method.renumber_of_invalid h]
  split <;> rfl

/-- Renumbering renames the slots of a method and nothing else: uses that start in the
parameters stay, every other pair of slot and width gets a stretch of its own, and the
stretches are packed behind the parameters in the order of first use. Without a valid
descriptor it fails, and the class that has the method stays as it is. -/
theorem Method.renumber_packs (m : Method) :
    (∀ params, m.code.Unshared → m.paramSlots = .ok params → packedSize params m.uses ≤ 65535 →
      ∃ m' f, m.renumber = .ok m' ∧ Renamed f m m' ∧
        Packs params m.uses f m'.maxLocals.toNat) ∧
    (Descriptor.methodShape? m.desc = none →
      m.renumber = .error (.invalidDescriptor m.desc) ∧
      ∀ (p : Patch) k c i, c.spot? k = some i → c.methods[i]? = some m →
        ((p.pack k).run.run c).2 = c) := by
  refine ⟨fun params hc hp hsize => ?_, fun h => ?_⟩
  · obtain ⟨m', hm, hrenamed, hlimit⟩ := renumber_eq_ok hc hp
    exact ⟨m', _, hm, hrenamed, hlimit ▸ packs_packing m.uses_pos hsize⟩
  · exact ⟨renumber_of_invalid h, fun p k c i hi hm => p.run_pack_of_invalid hi hm h⟩

/-- A static method with a wide access of its last parameter slot, one slot at two
widths, and a local that only the debug table knows. -/
def Method.sparse : Method where
  access := 8
  name := "m"
  desc := "(I)V"
  code := (Code.withLabels 1).pushAll
    [.label 0, .var .DLOAD (.slot 0), .var .DSTORE (.slot 7), .var .ISTORE (.slot 7),
      .iinc (.slot 7) 1, .simple .RETURN]
  locals := [⟨"x", "J", 0, 0, 9⟩]

/-- A method whose descriptor does not parse. -/
def Method.torn : Method := { sparse with desc := "(X" }

theorem Method.sparse_is_packed :
    (Method.sparse.code.Unshared ∧ Method.sparse.paramSlots = .ok 1 ∧
      packedSize 1 Method.sparse.uses ≤ 65535 ∧
      ∃ m' f, Method.sparse.renumber = .ok m' ∧ Renamed f Method.sparse m' ∧
        Packs 1 Method.sparse.uses f m'.maxLocals.toNat) ∧
    Descriptor.methodShape? Method.torn.desc = none ∧
      Method.torn.renumber = .error (.invalidDescriptor "(X") ∧
      (((Patch.pack { className := "A" } ("m", "(X")).run.run
        { name := "A", methods := [Method.torn] }).2 : Class) =
          { name := "A", methods := [Method.torn] } := by
  have hcode : Method.sparse.code.Unshared := Code.unshared_pushAll (by decide +kernel)
  have hparams : Method.sparse.paramSlots = .ok 1 := by decide +kernel
  have hsize : packedSize 1 Method.sparse.uses ≤ 65535 := by decide +kernel
  have htorn : Descriptor.methodShape? Method.torn.desc = none := by decide +kernel
  obtain ⟨hfails, hstays⟩ := (Method.renumber_packs Method.torn).2 htorn
  refine ⟨⟨hcode, hparams, hsize, ?_⟩, htorn, hfails, ?_⟩
  · exact (Method.renumber_packs Method.sparse).1 1 hcode hparams hsize
  · exact hstays _ ("m", "(X") { name := "A", methods := [Method.torn] } 0 (by decide +kernel) rfl

end ClassPatch
