-- Locals packed twice. The uses of a renumbered method come in the order in
-- which they came before, each with its old width. So packing them again lays
-- the same stretches behind the same parameters, and every use gets the slot
-- that it has already.
import ClassPatch.Proofs.Transparent

namespace ClassPatch

/-! ## Changes that change nothing -/

/-- Code whose nodes in place stay as they are is left alone. -/
theorem Code.mapNodes_eq_self {c : Code} {f : Node → Node} (h : ∀ i ∈ c.toList, f i = i) :
    c.mapNodes f = c := by
  have hrep : ∀ n i, f i = i → Nat.repeat f n i = i := by
    intro n i hi
    induction n with
    | zero => rfl
    | succ n ih => rw [Nat.repeat, ih, hi]
  have hstore : (c.mapNodes f).store = c.store := by
    refine Array.ext_getElem? fun k => ?_
    rw [getElem?_mapNodes]
    cases hk : c.store[k]? with
    | none => rfl
    | some i =>
      by_cases hplace : k ∈ c.order.toList
      · have hi : i ∈ c.toList := mem_nodesOf.2 ⟨k, hplace, hk⟩
        rw [Option.map_some, hrep _ i (h i hi)]
      · rw [List.count_eq_zero_of_not_mem hplace]
        rfl
  exact congrArg (fun store => { c with store }) hstore

namespace Method

/-! ## Uses of a renumbered method -/

/-- A use at its new slot. -/
def moved (f : Use → UInt16) (u : Use) : Use := (f u, u.2)

theorem slotAccesses_renameSlot (f : Use → UInt16) (nodes : List Node) :
    Code.slotAccesses (nodes.map (renameSlot f)) = (Code.slotAccesses nodes).map (moved f) := by
  unfold Code.slotAccesses Code.accesses
  rw [List.filterMap_map, List.map_filterMap, List.filterMap_filterMap, List.filterMap_filterMap]
  refine List.filterMap_congr fun i _ => ?_
  cases i with
  | var op x => cases x <;> rfl
  | iinc x delta => cases x <;> rfl
  | _ => rfl

theorem Renamed.uses {f : Use → UInt16} {m m' : Method} (h : Renamed f m m') :
    m'.uses = m.uses.map (moved f) := by
  unfold Method.uses
  rw [h.nodes, h.locals, slotAccesses_renameSlot, List.map_append, List.map_map, List.map_map]
  rfl

theorem Renamed.paramSlots {f : Use → UInt16} {m m' : Method} (h : Renamed f m m') :
    m'.paramSlots = m.paramSlots := by
  rw [h.rest]
  rfl

/-! ## Packing again -/

/-- Stretches that follow one another are known by where they start and by their widths. -/
theorem Tiles.unique {start stop stop' : Nat} {xs ys : List (Nat × Nat)} (h : Tiles start xs stop)
    (h' : Tiles start ys stop') (hwidths : xs.map (·.2) = ys.map (·.2)) : xs = ys := by
  induction xs generalizing start ys with
  | nil => exact (List.map_eq_nil_iff.1 hwidths.symm).symm
  | cons x xs ih =>
    cases ys with
    | nil => cases hwidths
    | cons y ys =>
      rw [List.map_cons, List.map_cons, List.cons.injEq] at hwidths
      obtain ⟨hwidth, hwidths⟩ := hwidths
      obtain ⟨hx, hxs⟩ := h
      obtain ⟨hy, hys⟩ := h'
      have hhead : x = y := Prod.ext (hx.trans hy.symm) hwidth
      rw [← hwidth] at hys
      rw [hhead, ih hxs hys hwidths]

section Moved
variable {params : Nat} {us : List Use} {f : Use → UInt16} {u : Use}

theorem Separates.mono {us' : List Use} (h : Separates params us f) (hsub : us' ⊆ us) :
    Separates params us' f :=
  ⟨fun u hu v hv => h.inj u (hsub hu) v (hsub hv), fun u hu => h.low u (hsub hu)⟩

theorem Separates.moved_inj {v : Use} (h : Separates params us f) (hu : u ∈ us) (hv : v ∈ us) :
    moved f u = moved f v ↔ u = v := by
  unfold moved
  rw [Prod.mk.injEq, Prod.ext_iff, and_comm, and_comm (a := u.1 = v.1)]
  exact and_congr_right fun hw => h.inj u hu v hv hw

theorem Separates.stays (h : Separates params us f) (hu : u ∈ us) (hlow : u.1.toNat < params) :
    f u = u.1 := ((h.low u hu u.1 hlow).2 rfl).symm

/-- A use stays on its side of the parameters. -/
theorem Separates.params_le (h : Separates params us f) (hu : u ∈ us) :
    params ≤ (f u).toNat ↔ params ≤ u.1.toNat := by
  rw [← not_iff_not, Nat.not_le, Nat.not_le]
  constructor
  · intro hlow
    rwa [← (h.low u hu (f u) hlow).1 rfl]
  · intro hlow
    rwa [h.stays hu hlow]

/-- Uses that are moved come in the order in which they came. -/
theorem packed_moved (h : Separates params us f) :
    packed params (us.map (moved f)) = (packed params us).map (moved f) := by
  induction us using List.reverseRecOn with
  | nil => rfl
  | append_singleton us u ih =>
    have hu : u ∈ us ++ [u] := List.mem_append_right _ (List.mem_singleton_self _)
    have hmem : moved f u ∈ (packed params us).map (moved f) ↔ u ∈ packed params us := by
      refine ⟨fun hm => ?_, List.mem_map_of_mem⟩
      obtain ⟨v, hv, hvu⟩ := List.mem_map.1 hm
      rwa [← (h.moved_inj (List.mem_append_left _ (mem_packed.1 hv).1) hu).1 hvu]
    have hnew : params ≤ (moved f u).1.toNat ∧ moved f u ∉ (packed params us).map (moved f) ↔
        params ≤ u.1.toNat ∧ u ∉ packed params us := and_congr (h.params_le hu) (not_congr hmem)
    rw [List.map_append, List.map_singleton, packed_concat, packed_concat, List.map_append,
      ih (h.mono (List.subset_append_left ..))]
    simp only [hnew]
    split <;> rfl

theorem reach_moved (h : Separates params us f) :
    reach params (us.map (moved f)) = reach params us := by
  induction us using List.reverseRecOn with
  | nil => rfl
  | append_singleton us u ih =>
    have hu : u ∈ us ++ [u] := List.mem_append_right _ (List.mem_singleton_self _)
    rw [List.map_append, List.map_singleton, reach_concat, reach_concat,
      ih (h.mono (List.subset_append_left ..))]
    by_cases hlow : u.1.toNat < params
    · have hsame : moved f u = u := Prod.ext (h.stays hu hlow) rfl
      rw [hsame]
    · have hhigh : ¬(moved f u).1.toNat < params :=
        Nat.not_lt.2 ((h.params_le hu).2 (Nat.not_lt.1 hlow))
      rw [if_neg hlow, if_neg hhigh]

theorem packedSize_moved (h : Separates params us f) :
    packedSize params (us.map (moved f)) = packedSize params us := by
  unfold packedSize
  rw [reach_moved h, packed_moved h, List.map_map]
  rfl

/-- Uses that are packed again stay at the slots that they have, up to the same limit. -/
theorem packing_moved (hpos : ∀ u ∈ us, 0 < u.2) (hsize : packedSize params us ≤ 65535) :
    let p := packing (saturate params) us
    let p' := packing (saturate params) (us.map (moved p.slot))
    p'.next = p.next ∧ ∀ u ∈ us, p'.slot (moved p.slot u) = p.slot u := by
  intro p p'
  have h : Separates params us p.slot := (packs_packing hpos hsize).separates
  have hm : p.Met params (reach params us) us := met_packing hsize
  have hm' : p'.Met params (reach params us) (us.map (moved p.slot)) := by
    rw [← reach_moved h]
    exact met_packing (packedSize_moved h ▸ hsize)
  have htiles := hm'.tiles
  rw [packed_moved h, List.map_map] at htiles
  have hwidths : ((packed params us).map (stretch p'.slot ∘ moved p.slot)).map (·.2) =
      ((packed params us).map (stretch p.slot)).map (·.2) := by
    rw [List.map_map, List.map_map]
    rfl
  have hsame := htiles.unique hm.tiles hwidths
  constructor
  · rw [hsame] at htiles
    exact UInt16.toNat_inj.1 (htiles.stop_eq.trans hm.tiles.stop_eq.symm)
  · intro u hu
    by_cases hpacked : u ∈ packed params us
    · have hstretch := List.map_inj_left.1 hsame u hpacked
      exact UInt16.toNat_inj.1 (congrArg Prod.fst hstretch)
    · refine hm'.slot_eq fun hmem => hpacked ?_
      have hle := (mem_packed.1 hmem).2
      exact mem_packed.2 ⟨hu, (h.params_le hu).1 hle⟩

end Moved

/-! ## Renumbering again -/

/-- A node whose slot stays is not changed. -/
theorem renameSlot_eq_self {f : Use → UInt16} {i : Node}
    (h : ∀ n w, i.access? = some (.slot n, w) → f (n, w) = n) : renameSlot f i = i := by
  cases i with
  | var op x =>
    cases x with
    | slot n => simp only [renameSlot, renameLocal, h n op.slotWidth rfl]
    | temp t => rfl
  | iinc x delta =>
    cases x with
    | slot n => simp only [renameSlot, renameLocal, h n 1 rfl]
    | temp t => rfl
  | _ => rfl

/-- A method whose uses all keep their slots, up to the limit that it has, is renumbered
to itself. -/
theorem renumber_eq_self {m : Method} {params : Nat} (hp : m.paramSlots = .ok params)
    (hslots : ∀ u ∈ m.uses, (packing (saturate params) m.uses).slot u = u.1)
    (hlimit : (packing (saturate params) m.uses).next = m.maxLocals) : m.renumber = .ok m := by
  have hcode : m.code.mapNodes (packing (saturate params) m.uses).move = m.code := by
    refine Code.mapNodes_eq_self fun i hi => ?_
    rw [Packing.move_eq]
    refine renameSlot_eq_self fun n w ha => hslots (n, w) ?_
    exact List.mem_append_left _ (Code.mem_slotAccesses.2 ⟨i, hi, ha⟩)
  have hlocals : ∀ v ∈ m.locals,
      { v with slot := (packing (saturate params) m.uses).slot (v.slot, v.width) } = v := by
    intro v hv
    rw [hslots _ (List.mem_append_right _ (List.mem_map_of_mem hv))]
  unfold renumber
  refine bind_eq_ok.2 ⟨params, hp, congrArg Except.ok ?_⟩
  rw [hcode, hlimit, List.map_congr_left hlocals, List.map_id']

/-- A renumbered method is renumbered to itself. -/
theorem renumber_is_idempotent {m : Method} {params : Nat} (hc : m.code.Unshared)
    (hp : m.paramSlots = .ok params) (hsize : packedSize params m.uses ≤ 65535) :
    ∃ m', m.renumber = .ok m' ∧ m'.renumber = .ok m' := by
  obtain ⟨m', hm, hr, hlimit⟩ := renumber_eq_ok hc hp
  obtain ⟨hnext, hslots⟩ := packing_moved m.uses_pos hsize
  refine ⟨m', hm, renumber_eq_self (hr.paramSlots.trans hp) ?_ ?_⟩
  · rw [hr.uses]
    exact List.forall_mem_map.2 hslots
  · rw [hr.uses, hnext, hlimit]

theorem sparse_is_packed_once :
    sparse.code.Unshared ∧ sparse.paramSlots = .ok 1 ∧ packedSize 1 sparse.uses ≤ 65535 ∧
      ∃ m', sparse.renumber = .ok m' ∧ m'.renumber = .ok m' := by
  have hcode : sparse.code.Unshared := Code.unshared_pushAll (by decide +kernel)
  have hparams : sparse.paramSlots = .ok 1 := by decide +kernel
  have hsize : packedSize 1 sparse.uses ≤ 65535 := by decide +kernel
  exact ⟨hcode, hparams, hsize, renumber_is_idempotent hcode hparams hsize⟩

end Method

end ClassPatch
