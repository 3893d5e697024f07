-- The layout of the real instructions alone. The layout of a body counts its
-- markers and line numbers too, but they take no bytes, so both come to the
-- same positions round by round.
import ClassPatch.Container.Encode
import ClassPatch.Proofs.Outline

namespace ClassPatch.Layout

/-! ## Positions -/

/-- Where items come to stand, and in the end where the code ends. The first
item has the index `k`. -/
def stopsFrom (wide : Nat → Bool) (pc k : Nat) : List Item → List Nat
  | [] => [pc]
  | item :: items =>
    pc :: stopsFrom wide (pc + Instruction.size pc item.operand (wide k) item.node) (k + 1) items

/-- The position of the item of an index, the end of the code for their number. -/
def stop (wide : Nat → Bool) (items : List Item) (r : Nat) : Nat :=
  (stopsFrom wide 0 0 items).getD r 0

theorem length_stopsFrom (wide : Nat → Bool) (pc k : Nat) (items : List Item) :
    (stopsFrom wide pc k items).length = items.length + 1 := by
  induction items generalizing pc k with
  | nil => rfl
  | cons item items ih => rw [stopsFrom, List.length_cons, ih, List.length_cons]

theorem getElem?_stopsFrom_zero (wide : Nat → Bool) (pc k : Nat) (items : List Item) :
    (stopsFrom wide pc k items)[0]? = some pc := by
  cases items <;> rfl

theorem foldl_add (wide : Std.HashSet Nat) (items : List Item) (p : Placing) :
    (items.foldl (Placing.add wide) p).pcs.toList ++ [(items.foldl (Placing.add wide) p).next] =
      p.pcs.toList ++ stopsFrom wide.contains p.next p.pcs.size items := by
  induction items generalizing p with
  | nil => rfl
  | cons item items ih =>
    rw [List.foldl_cons, ih, stopsFrom]
    simp [Placing.add]

theorem stops_place (wide : Std.HashSet Nat) (items : List Item) :
    (place wide items).pcs.toList ++ [(place wide items).size] =
      stopsFrom wide.contains 0 0 items := foldl_add wide items {}

theorem size_pcs (wide : Std.HashSet Nat) (items : List Item) :
    (place wide items).pcs.size = items.length := by
  have := congrArg List.length (stops_place wide items)
  rw [List.length_append, length_stopsFrom] at this
  simpa using this

theorem pcAt_place {wide : Std.HashSet Nat} {items : List Item} {i : Nat} (hi : i ≤ items.length) :
    (place wide items).pcAt i = stop wide.contains items i := by
  have hsize := size_pcs wide items
  unfold pcAt stop
  rw [← stops_place, List.getD_eq_getElem?_getD, Array.getD_eq_getD_getElem?]
  by_cases h : i < items.length
  · rw [List.getElem?_append_left (by rwa [Array.length_toList, hsize]), Array.getElem?_toList,
      Array.getElem?_eq_getElem (by rwa [hsize])]
    rfl
  · have : i = items.length := by omega
    subst this
    have hend : (place wide items).pcs.toList.length = items.length := by
      rw [Array.length_toList, hsize]
    rw [List.getElem?_append_right (Nat.le_of_eq hend), hend,
      Array.getElem?_eq_none (Nat.le_of_eq hsize), Nat.sub_self]
    rfl

theorem size_place (wide : Std.HashSet Nat) (items : List Item) :
    (place wide items).size = stop wide.contains items items.length := by
  rw [← pcAt_place (Nat.le_refl _)]
  unfold pcAt
  rw [Array.getD_eq_getD_getElem?, Array.getElem?_eq_none (Nat.le_of_eq (size_pcs wide items))]
  rfl

/-- Real instructions stand at ascending positions. -/
theorem pairwise_stopsFrom (wide : Nat → Bool) (pc k : Nat) {items : List Item}
    (h : ∀ item ∈ items, item.node.isReal) :
    (stopsFrom wide pc k items).Pairwise (· < ·) ∧ ∀ p ∈ stopsFrom wide pc k items, pc ≤ p := by
  induction items generalizing pc k with
  | nil =>
    refine ⟨List.pairwise_singleton .., fun p hp => ?_⟩
    exact Nat.le_of_eq (List.mem_singleton.1 hp).symm
  | cons item items ih =>
    obtain ⟨hp, hb⟩ := ih (pc + Instruction.size pc item.operand (wide k) item.node) (k + 1)
      fun i hi => h i (List.mem_cons_of_mem _ hi)
    have hpos := Instruction.size_pos pc item.operand (wide k)
      (h item (List.mem_cons_self ..))
    refine ⟨List.pairwise_cons.2 ⟨fun p h => ?_, hp⟩, fun p h => ?_⟩
    · have := hb p h
      omega
    · rcases List.mem_cons.1 h with rfl | h
      · exact Nat.le_refl _
      · have := hb p h
        omega

theorem getElem?_stops (wide : Nat → Bool) {items : List Item} {r : Nat} (hr : r ≤ items.length) :
    (stopsFrom wide 0 0 items)[r]? = some (stop wide items r) := by
  have hlen := length_stopsFrom wide 0 0 items
  unfold stop
  rw [List.getD_eq_getElem?_getD, List.getElem?_eq_getElem (by omega)]
  rfl

theorem stop_lt_stop (wide : Nat → Bool) {items : List Item}
    (h : ∀ item ∈ items, item.node.isReal) {r s : Nat} (hrs : r < s) (hs : s ≤ items.length) :
    stop wide items r < stop wide items s := by
  have hlen := length_stopsFrom wide 0 0 items
  have hr := getElem?_stops wide (Nat.le_trans (Nat.le_of_lt hrs) hs)
  have hs := getElem?_stops wide hs
  obtain ⟨_, hr⟩ := List.getElem?_eq_some_iff.1 hr
  obtain ⟨_, hs⟩ := List.getElem?_eq_some_iff.1 hs
  have := List.pairwise_iff_getElem.1 (pairwise_stopsFrom wide 0 0 h).1
    r s (by omega) (by omega) hrs
  rwa [hr, hs] at this

/-! ## Real items -/

/-- The real items, with their labels named in another way. -/
def reals (f : Label → Label) (items : List Item) : List Item :=
  (items.filter (·.node.isReal)).map fun item => { item with node := item.node.mapLabels f }

theorem reals_cons (f : Label → Label) (item : Item) (items : List Item) :
    reals f (item :: items) =
      (if item.node.isReal then [{ item with node := item.node.mapLabels f }] else []) ++
        reals f items := by
  unfold reals
  rw [List.filter_cons]
  split <;> rfl

theorem getElem?_reals {f : Label → Label} {items : List Item} {r : Nat} {item' : Item} :
    (reals f items)[r]? = some item' ↔ ∃ i item, items[i]? = some item ∧ item.node.isReal ∧
      realBefore (items.map (·.node)) i = r ∧
        item' = { item with node := item.node.mapLabels f } := by
  induction items generalizing r with
  | nil => simp [reals]
  | cons head items ih =>
    -- An index into the tail is one more in the whole, and counts the head if it is real.
    have tail : ∀ s, (∃ i item, (head :: items)[i + 1]? = some item ∧ item.node.isReal ∧
        realBefore ((head :: items).map (·.node)) (i + 1) =
            s + (if head.node.isReal then 1 else 0) ∧
          item' = { item with node := item.node.mapLabels f }) ↔
        (reals f items)[s]? = some item' := by
      intro s
      rw [ih]
      simp only [List.getElem?_cons_succ, List.map_cons, realBefore_cons_succ,
        Nat.add_right_cancel_iff]
    rw [reals_cons]
    by_cases hreal : head.node.isReal
    · rw [if_pos hreal, List.singleton_append]
      cases r with
      | zero =>
        rw [List.getElem?_cons_zero, Option.some_inj]
        constructor
        · rintro rfl
          exact ⟨0, head, rfl, hreal, rfl, rfl⟩
        · rintro ⟨i, item, hi, hr, hz, rfl⟩
          cases i with
          | zero => cases hi; rfl
          | succ i =>
            rw [List.map_cons, realBefore_cons_succ, if_pos hreal] at hz
            omega
      | succ r =>
        rw [List.getElem?_cons_succ, ← tail, if_pos hreal]
        constructor
        · rintro ⟨i, h⟩
          exact ⟨i + 1, h⟩
        · rintro ⟨i, item, hi, hr, hz, h⟩
          cases i with
          | zero => cases hz
          | succ i => exact ⟨i, item, hi, hr, hz, h⟩
    · rw [if_neg hreal, List.nil_append, ← tail, if_neg hreal]
      constructor
      · rintro ⟨i, h⟩
        exact ⟨i + 1, h⟩
      · rintro ⟨i, item, hi, hr, hz, h⟩
        cases i with
        | zero =>
          cases hi
          exact absurd hr hreal
        | succ i => exact ⟨i, item, hi, hr, hz, h⟩

theorem length_reals (f : Label → Label) (items : List Item) :
    (reals f items).length = (items.map (·.node)).countP Insn.isReal := by
  unfold reals
  rw [List.length_map, List.countP_map, List.countP_eq_length_filter]
  rfl

/-- The two layouts make the same real instructions wide. -/
def Agrees (items : List Item) (wide w : Nat → Bool) : Prop :=
  ∀ i item, items[i]? = some item → item.node.isReal →
    wide i = w (realBefore (items.map (·.node)) i)

/-- The layouts come to the same positions. -/
theorem getElem?_stops_reals {f : Label → Label} {items : List Item} {wide w : Nat → Bool}
    {pc k r : Nat} (h : Agrees items (fun i => wide (k + i)) fun s => w (r + s)) {i : Nat}
    (hi : i ≤ items.length) :
    (stopsFrom wide pc k items)[i]? =
      (stopsFrom w pc r (reals f items))[realBefore (items.map (·.node)) i]? := by
  induction items generalizing pc k r i with
  | nil =>
    cases Nat.le_zero.1 hi
    rfl
  | cons item items ih =>
    have htail : Agrees items (fun i => wide (k + 1 + i))
        fun s => w (r + (if item.node.isReal then 1 else 0) + s) := by
      intro j it hj hr
      have := h (j + 1) it hj hr
      rw [List.map_cons, realBefore_cons_succ] at this
      dsimp only at this ⊢
      rw [show k + 1 + j = k + (j + 1) by omega, this]
      congr 1
      omega
    rw [reals_cons, stopsFrom]
    by_cases hreal : item.node.isReal
    · rw [if_pos hreal, List.singleton_append, stopsFrom]
      cases i with
      | zero => rfl
      | succ i =>
        have hw : wide k = w r := h 0 item rfl hreal
        rw [if_pos hreal] at htail
        rw [List.getElem?_cons_succ, ih htail (Nat.le_of_succ_le_succ hi), List.map_cons,
          realBefore_cons_succ, if_pos hreal, List.getElem?_cons_succ]
        dsimp only
        rw [Instruction.size_mapLabels, hw]
    · rw [if_neg hreal, List.nil_append]
      have hsize : Instruction.size pc item.operand (wide k) item.node = 0 := by
        unfold Insn.isReal at hreal
        cases hn : item.node <;> rw [hn] at hreal <;> first | rfl | exact absurd rfl hreal
      rw [if_neg hreal] at htail
      cases i with
      | zero => exact (getElem?_stopsFrom_zero w pc r _).symm
      | succ i =>
        rw [List.getElem?_cons_succ, hsize, ih htail (Nat.le_of_succ_le_succ hi), List.map_cons,
          realBefore_cons_succ, if_neg hreal]
        rfl

/-! ## Rounds -/

/-- A jump whose distance does not fit two bytes. -/
def isFar (stop : Nat → Nat) (k : Nat) : Node → Bool
  | .jump _ target => !Instruction.fitsI16 ((stop target : Int) - stop k)
  | _ => false

/-- A round makes the far jumps wide, besides those that are. -/
def widened (items : List Item) (wide : Nat → Bool) (k : Nat) : Bool :=
  wide k || items[k]?.any fun item => isFar (stop wide items) k item.node

/-- A round that does not fail: the code is not too long, and only plain
jumps are far. -/
structure Passes (items : List Item) (wide : Nat → Bool) : Prop where
  size : stop wide items items.length ≤ 65535
  far : ∀ k item, items[k]? = some item → isFar (stop wide items) k item.node →
    ∃ l, item.node = .jump .GOTO l

/-- All rounds, from some wide jumps to those of the last round. -/
inductive Settles (items : List Item) : (Nat → Bool) → (Nat → Bool) → Prop
  | done {wide : Nat → Bool} (h : Passes items wide) (hw : widened items wide = wide) :
    Settles items wide wide
  | more {wide last : Nat → Bool} (h : Passes items wide) (hw : widened items wide ≠ wide)
    (hs : Settles items (widened items wide) last) : Settles items wide last

theorem Settles.passes {items : List Item} {wide last : Nat → Bool} (h : Settles items wide last) :
    Passes items last ∧ widened items last = last := by
  induction h with
  | done h hw => exact ⟨h, hw⟩
  | more _ _ _ ih => exact ih

/-- Only plain jumps get wide. -/
theorem Settles.goto {items : List Item} {wide last : Nat → Bool} (h : Settles items wide last)
    (hw : ∀ k item, items[k]? = some item → wide k → ∃ l, item.node = .jump .GOTO l) :
    ∀ k item, items[k]? = some item → last k → ∃ l, item.node = .jump .GOTO l := by
  induction h with
  | done _ _ => exact hw
  | more hp _ _ ih =>
    refine ih fun k item hk h => ?_
    unfold widened at h
    rw [hk, Bool.or_eq_true] at h
    rcases h with h | h
    · exact hw k item hk h
    · exact hp.far k item hk h

/-- How many items are not wide. -/
def narrow (items : List Item) (wide : Nat → Bool) : Nat :=
  (List.range items.length).countP fun k => !wide k

theorem countP_lt_countP {α : Type} {p q : α → Bool} {as : List α} (h : ∀ a, p a → q a) {a : α}
    (ha : a ∈ as) (hp : p a = false) (hq : q a = true) : as.countP p < as.countP q := by
  obtain ⟨before, after, rfl⟩ := List.append_of_mem ha
  have h₁ := List.countP_mono_left (l := before) fun a _ => h a
  have h₂ := List.countP_mono_left (l := after) fun a _ => h a
  rw [List.countP_append, List.countP_append, List.countP_cons, List.countP_cons, hp, hq]
  simp only [if_true, Bool.false_eq_true, if_false]
  omega

/-- Every round but the last makes at least one more jump wide. -/
theorem narrow_widened {items : List Item} {wide : Nat → Bool} (h : widened items wide ≠ wide) :
    narrow items (widened items wide) < narrow items wide := by
  have hle : ∀ k, wide k → widened items wide k := fun k hk => by simp [widened, hk]
  obtain ⟨k, hk⟩ := Function.ne_iff.1 h
  have hnew : wide k = false ∧ widened items wide k = true := by
    cases hw : wide k with
    | true => exact absurd (hle k hw) (by rw [hw] at hk; exact hk)
    | false => exact ⟨rfl, by rw [hw] at hk; simpa using hk⟩
  have hlt : k < items.length := by
    refine Decidable.byContradiction fun hn => ?_
    have := hnew.2
    unfold widened at this
    rw [hnew.1, List.getElem?_eq_none (by omega)] at this
    cases this
  unfold narrow
  refine countP_lt_countP (fun j hj => ?_) (List.mem_range.2 hlt) (by rw [hnew.2]; rfl)
    (by rw [hnew.1]; rfl)
  cases hw : wide j with
  | true =>
    rw [hle j hw] at hj
    cases hj
  | false => rfl

section
variable {items : List Item} {wide : Std.HashSet Nat} {w : Nat → Bool}

/-- The real index of a label among the nodes of the items. -/
abbrev indexIn (items : List Item) : Label → Nat := realIndex (items.map (·.node))

/-- The items of the real instructions, with real indices for labels. -/
abbrev realItems (items : List Item) : List Item := reals (indexIn items) items

theorem pcAt_eq (h : Agrees items wide.contains w) {i : Nat} (hi : i ≤ items.length) :
    (place wide items).pcAt i = stop w (realItems items) (realBefore (items.map (·.node)) i) := by
  have h0 : Agrees items (fun i => wide.contains (0 + i)) fun s => w (0 + s) := by
    simpa only [Nat.zero_add] using h
  have : (stopsFrom wide.contains 0 0 items)[i]? =
      (stopsFrom w 0 0 (realItems items))[realBefore (items.map (·.node)) i]? :=
    getElem?_stops_reals h0 hi
  rw [pcAt_place hi]
  unfold stop
  rw [List.getD_eq_getElem?_getD, List.getD_eq_getElem?_getD, this]

theorem realBefore_length (nodes : List Node) :
    realBefore nodes nodes.length = nodes.countP Insn.isReal := by
  unfold realBefore
  rw [List.take_length]

theorem size_eq (h : Agrees items wide.contains w) :
    (place wide items).size = stop w (realItems items) (realItems items).length := by
  have := pcAt_eq h (Nat.le_refl _)
  rw [pcAt_place (Nat.le_refl _), ← size_place] at this
  rw [this, length_reals, ← List.length_map (f := fun item : Item => item.node), realBefore_length]

theorem placeOf_eq (h : Agrees items wide.contains w) (label : Label) :
    (place wide items).placeOf (markerIndex (items.map (·.node))) label =
      stop w (realItems items) (indexIn items label) := by
  unfold placeOf indexIn realIndex
  rw [Std.HashMap.getD_eq_getD_getElem?]
  cases hl : (markerIndex (items.map (·.node)))[label]? with
  | none =>
    rw [Option.getD_none, realBefore_length, ← length_reals (indexIn items)]
    exact size_eq h
  | some i =>
    have hi := lt_of_markerIndex hl
    rw [List.length_map] at hi
    exact pcAt_eq h (Nat.le_of_lt hi)

theorem mapLabels_eq_goto {f : Label → Label} {i : Node} :
    (∃ l, i.mapLabels f = .jump .GOTO l) ↔ ∃ l, i = .jump .GOTO l := by
  cases i with
  | jump op l =>
    simp only [Insn.mapLabels, Insn.jump.injEq]
    constructor
    · rintro ⟨_, h, _⟩
      exact ⟨l, h, rfl⟩
    · rintro ⟨_, h, _⟩
      exact ⟨f l, h, rfl⟩
  | _ => constructor <;> rintro ⟨l, ⟨⟩⟩

/-- Whether the node is a far jump, by its real index and its labels'. -/
abbrev farAt (items : List Item) (w : Nat → Bool) (i : Nat) (node : Node) : Bool :=
  isFar (stop w (realItems items)) (realBefore (items.map (·.node)) i)
    (node.mapLabels (indexIn items))

/-- A node that is not a jump is left alone, and so is one that is near. -/
theorem widens_eq (h : Agrees items wide.contains w) {i : Nat} {item : Item}
    (hi : items[i]? = some item) {b : Bool} :
    (place wide items).widens (markerIndex (items.map (·.node))) i item.node = .ok b ↔
      (farAt items w i item.node → ∃ l, item.node = .jump .GOTO l) ∧
        b = (farAt items w i item.node && !wide.contains i) := by
  have hlt := (List.getElem?_eq_some_iff.1 hi).1
  cases hn : item.node with
  | jump op l =>
    have hfar : farAt items w i (.jump op l) = !Instruction.fitsI16
        (((place wide items).placeOf (markerIndex (items.map (·.node))) l : Int) -
          (place wide items).pcAt i) := by
      rw [placeOf_eq h, pcAt_eq h (Nat.le_of_lt hlt)]
      rfl
    rw [hfar]
    unfold widens
    dsimp only
    split
    · rename_i hfits
      simp only [hfits, Bool.not_true, Bool.false_and, Bool.false_eq_true, false_implies, true_and,
        Except.ok.injEq]
      exact eq_comm
    · rename_i hfits
      split
      · rename_i hop
        subst hop
        have hb : (!wide.contains i) = b ↔ b = (true && !wide.contains i) := eq_comm
        rw [Bool.eq_false_iff.2 hfits, Except.ok.injEq]
        exact ⟨fun h => ⟨fun _ => ⟨l, rfl⟩, hb.1 h⟩, fun h => hb.2 h.2⟩
      · rename_i hop
        simp [hfits, hop]
  | _ =>
    simp only [widens, farAt, Insn.mapLabels, isFar, Bool.false_and, Bool.false_eq_true,
      false_implies, true_and, Except.ok.injEq]
    exact eq_comm

/-- One step of a search that fails where its test does. -/
def collect {α : Type} (f : α → Except Fault Bool) (g : α → Nat) (found : List Nat) (x : α) :
    Except Fault (List Nat) := do
  if ← f x then return g x :: found else return found

theorem foldlM_collect {α : Type} {f : α → Except Fault Bool} {g : α → Nat} (xs : List α)
    (found : List Nat) :
    (∀ all, xs.foldlM (collect f g) found = .ok all → (∀ x ∈ xs, ∃ b, f x = .ok b) ∧
      ∀ i, i ∈ all ↔ i ∈ found ∨ ∃ x ∈ xs, f x = .ok true ∧ g x = i) ∧
    ((∀ x ∈ xs, ∃ b, f x = .ok b) → ∃ all, xs.foldlM (collect f g) found = .ok all) := by
  induction xs generalizing found with
  | nil =>
    refine ⟨?_, fun _ => ⟨found, rfl⟩⟩
    rintro _ ⟨⟩
    exact ⟨nofun, by simp⟩
  | cons x xs ih =>
    rw [List.foldlM_cons]
    cases hx : f x with
    | error e =>
      have hstep : collect f g found x = .error e := by rw [collect, hx]; rfl
      rw [hstep]
      refine ⟨fun all h => (by cases h), fun h => ?_⟩
      obtain ⟨b, hb⟩ := h x (List.mem_cons_self ..)
      rw [hx] at hb
      cases hb
    | ok b =>
      have hstep : collect f g found x = .ok (if b then g x :: found else found) := by
        rw [collect, hx]
        cases b <;> rfl
      obtain ⟨h₁, h₂⟩ := ih (if b then g x :: found else found)
      rw [hstep]
      refine ⟨fun all h => ?_, fun h => h₂ fun y hy => h y (List.mem_cons_of_mem _ hy)⟩
      obtain ⟨hall, hmem⟩ := h₁ all h
      refine ⟨List.forall_mem_cons.2 ⟨⟨b, hx⟩, hall⟩, fun i => ?_⟩
      rw [hmem, List.exists_mem_cons_iff, hx]
      cases b with
      | true =>
        simp only [if_true, List.mem_cons, true_and]
        rw [eq_comm (a := i), or_assoc, or_left_comm]
      | false => simp

theorem growing_ok {l : Layout} {index : Std.HashMap Label Nat} {found : List Nat}
    (h : l.growing index items = .ok found) :
    (∀ i item, items[i]? = some item → ∃ b, l.widens index i item.node = .ok b) ∧
      ∀ i, i ∈ found ↔ ∃ item, items[i]? = some item ∧ l.widens index i item.node = .ok true := by
  obtain ⟨hall, hmem⟩ := (foldlM_collect (f := fun e : Item × Nat => l.widens index e.2 e.1.node)
    (g := (·.2)) items.zipIdx []).1 found h
  refine ⟨fun i item hi => hall (item, i) (List.mem_zipIdx_iff_getElem?.2 hi), fun i => ?_⟩
  rw [hmem]
  constructor
  · rintro (hi | ⟨e, he, hw, rfl⟩)
    · cases hi
    · exact ⟨e.1, List.mem_zipIdx_iff_getElem?.1 he, hw⟩
  · rintro ⟨item, hi, hw⟩
    exact .inr ⟨(item, i), List.mem_zipIdx_iff_getElem?.2 hi, hw, rfl⟩

theorem growing_total {l : Layout} {index : Std.HashMap Label Nat}
    (h : ∀ i item, items[i]? = some item → ∃ b, l.widens index i item.node = .ok b) :
    ∃ found, l.growing index items = .ok found :=
  (foldlM_collect (f := fun e : Item × Nat => l.widens index e.2 e.1.node) (g := (·.2))
    items.zipIdx []).2 fun e he => h e.2 e.1 (List.mem_zipIdx_iff_getElem?.1 he)

theorem growing_eq_nil {l : Layout} {index : Std.HashMap Label Nat}
    (h : ∀ i item, items[i]? = some item → l.widens index i item.node = .ok false) :
    l.growing index items = .ok [] := by
  obtain ⟨found, hf⟩ := growing_total fun i item hi => ⟨false, h i item hi⟩
  have hnil : found = [] := by
    refine List.eq_nil_iff_forall_not_mem.2 fun i hi => ?_
    obtain ⟨item, hitem, hw⟩ := ((growing_ok hf).2 i).1 hi
    rw [h i item hitem] at hw
    cases hw
  rw [hf, hnil]

theorem isReal_of_far {i : Nat} {node : Node} (h : farAt items w i node = true) : node.isReal := by
  cases node with
  | label l => exact absurd h (by simp [farAt, Insn.mapLabels, isFar])
  | line n => exact absurd h (by simp [farAt, Insn.mapLabels, isFar])
  | _ => rfl

/-- The round's verdict on the real instruction of an index. -/
theorem widened_realBefore (h : Agrees items wide.contains w) {i : Nat} {item : Item}
    (hi : items[i]? = some item) (hr : item.node.isReal) :
    widened (realItems items) w (realBefore (items.map (·.node)) i) =
      (wide.contains i || farAt items w i item.node) := by
  unfold widened
  rw [getElem?_reals.2 ⟨i, item, hi, hr, rfl, rfl⟩, h i item hi hr]
  rfl

/-- A round lists the branches that are far and narrow still. -/
theorem mem_grown (h : Agrees items wide.contains w) {grown : List Nat}
    (hg : (place wide items).growing (markerIndex (items.map (·.node))) items = .ok grown)
    {i : Nat} {item : Item} (hi : items[i]? = some item) :
    i ∈ grown ↔ farAt items w i item.node = true ∧ wide.contains i = false := by
  obtain ⟨hall, hmem⟩ := growing_ok hg
  rw [hmem, ← Bool.not_eq_true', ← Bool.and_eq_true]
  constructor
  · rintro ⟨item', hi', hw⟩
    rw [hi] at hi'
    cases hi'
    exact ((widens_eq h hi).1 hw).2.symm
  · intro hfar
    obtain ⟨b, hb⟩ := hall i item hi
    exact ⟨item, hi, (widens_eq h hi).2 ⟨((widens_eq h hi).1 hb).1, hfar.symm⟩⟩

/-- A round lists no branch exactly when the real instructions keep their sizes. -/
theorem grown_eq_nil_iff (h : Agrees items wide.contains w) {grown : List Nat}
    (hg : (place wide items).growing (markerIndex (items.map (·.node))) items = .ok grown) :
    grown = [] ↔ widened (realItems items) w = w := by
  constructor
  · rintro rfl
    funext k
    cases hk : (realItems items)[k]? with
    | none => simp [widened, hk]
    | some item' =>
      obtain ⟨i, item, hi, hr, rfl, rfl⟩ := getElem?_reals.1 hk
      rw [widened_realBefore h hi hr, ← h i item hi hr]
      have hnone := mem_grown h hg hi
      cases hc : wide.contains i with
      | true => rfl
      | false =>
        rw [hc] at hnone
        simpa using hnone
  · intro hw
    refine List.eq_nil_iff_forall_not_mem.2 fun i hi => ?_
    obtain ⟨item, hitem, _⟩ := ((growing_ok hg).2 i).1 hi
    obtain ⟨hfar, hnarrow⟩ := (mem_grown h hg hitem).1 hi
    have hr := isReal_of_far hfar
    have hwide := widened_realBefore h hitem hr
    rw [hw, ← h i item hitem hr, hfar, hnarrow] at hwide
    cases hwide

/-- What a round of the whole body says about the real instructions. -/
theorem round_ok (h : Agrees items wide.contains w) {grown : List Nat}
    (hsize : (place wide items).size ≤ 65535)
    (hg : (place wide items).growing (markerIndex (items.map (·.node))) items = .ok grown) :
    Passes (realItems items) w ∧
      Agrees items (wide.insertMany grown).contains (widened (realItems items) w) ∧
        (grown = [] ↔ widened (realItems items) w = w) := by
  refine ⟨⟨size_eq h ▸ hsize, ?_⟩, ?_, grown_eq_nil_iff h hg⟩
  · intro k item' hk hfar
    obtain ⟨i, item, hi, _, rfl, rfl⟩ := getElem?_reals.1 hk
    obtain ⟨b, hb⟩ := (growing_ok hg).1 i item hi
    exact mapLabels_eq_goto.2 (((widens_eq h hi).1 hb).1 hfar)
  · intro i item hi hr
    rw [widened_realBefore h hi hr, Bool.eq_iff_iff, Std.HashSet.contains_insertMany_list,
      Bool.or_eq_true, Bool.or_eq_true, List.contains_iff_mem, mem_grown h hg hi]
    cases wide.contains i <;> simp

theorem growing_of_passes (h : Agrees items wide.contains w) (hp : Passes (realItems items) w) :
    (place wide items).size ≤ 65535 ∧ ∃ grown,
      (place wide items).growing (markerIndex (items.map (·.node))) items = .ok grown := by
  refine ⟨size_eq h ▸ hp.size, growing_total fun i item hi => ⟨_, (widens_eq h hi).2 ⟨?_, rfl⟩⟩⟩
  intro hfar
  have hr := isReal_of_far hfar
  exact mapLabels_eq_goto.1 (hp.far _ _ (getElem?_reals.2 ⟨i, item, hi, hr, rfl, rfl⟩) hfar)

/-! ## All rounds -/

theorem settles_of_settle {signature : String} {rounds : Nat} {l : Layout}
    (h : Agrees items wide.contains w)
    (hl : settle signature (markerIndex (items.map (·.node))) items rounds wide = .ok l) :
    ∃ last wide', Settles (realItems items) w last ∧ Agrees items wide'.contains last ∧
      l = place wide' items := by
  induction rounds generalizing wide w with
  | zero => cases hl
  | succ rounds ih =>
    unfold settle at hl
    dsimp only at hl
    split at hl
    · cases hl
    · rename_i hsize
      obtain ⟨grown, hg, hl⟩ := bind_eq_ok.1 hl
      obtain ⟨hpass, hnext, hnil⟩ := round_ok h (Nat.not_lt.1 hsize) hg
      cases grown with
      | nil =>
        cases hl
        exact ⟨w, wide, .done hpass (hnil.1 rfl), h, rfl⟩
      | cons i grown =>
        obtain ⟨last, wide', hs, ha, rfl⟩ := ih hnext hl
        exact ⟨last, wide', .more hpass (fun hw => by cases hnil.2 hw) hs, ha, rfl⟩

theorem settle_of_settles (signature : String) {rounds : Nat} {last : Nat → Bool}
    (hs : Settles (realItems items) w last) (h : Agrees items wide.contains w)
    (hr : narrow (realItems items) w < rounds) :
    ∃ wide', Agrees items wide'.contains last ∧
      settle signature (markerIndex (items.map (·.node))) items rounds wide =
        .ok (place wide' items) := by
  induction hs generalizing wide rounds with
  | done hp hw =>
    obtain ⟨hsize, grown, hg⟩ := growing_of_passes h hp
    obtain ⟨_, _, hnil⟩ := round_ok h hsize hg
    cases hnil.2 hw
    refine ⟨wide, h, ?_⟩
    obtain _ | rounds := rounds
    · exact absurd hr (Nat.not_lt_zero _)
    · unfold settle
      dsimp only
      rw [if_neg (Nat.not_lt.2 hsize), hg]
      rfl
  | more hp hw _ ih =>
    obtain ⟨hsize, grown, hg⟩ := growing_of_passes h hp
    obtain ⟨_, hnext, hnil⟩ := round_ok h hsize hg
    obtain _ | rounds := rounds
    · exact absurd hr (Nat.not_lt_zero _)
    · have := narrow_widened hw
      obtain ⟨wide', ha, hset⟩ := ih hnext (Nat.lt_of_lt_of_le this (Nat.le_of_lt_succ hr))
      refine ⟨wide', ha, ?_⟩
      unfold settle
      dsimp only
      rw [if_neg (Nat.not_lt.2 hsize), hg]
      cases grown with
      | nil => exact absurd (hnil.1 rfl) hw
      | cons i grown => exact hset

end

end ClassPatch.Layout
