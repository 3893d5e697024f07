-- How deep the stack gets. Where each node has one depth on all ways to it, the
-- limit of the stack is the greatest of these depths: depths spread to every
-- node that control reaches and to no other, in whatever order nodes have their
-- turns.
import ClassPatch.Code.Depth
import ClassPatch.Proofs.FreshSlots
import Mathlib.Data.List.Nodup
import Mathlib.Data.List.Perm.Subperm
import Mathlib.Order.Bounds.Basic

namespace ClassPatch.Code

/-! ## What control reaches -/

/-- Where control enters code, and how deep the stack is there. -/
inductive Enters (c : Code) : Nat → Int → Prop where
  | first : c.toList ≠ [] → Enters c 0 0
  | handler {h : Handler} {i : Nat} : h ∈ c.handlers.toList →
      (markerIndex c.toList)[h.target]? = some i → Enters c i 1

/-- Node `j` may follow node `i`: it is where a label stands that `i` branches to, or it is
the next one and `i` does not end the flow. -/
def Follows (c : Code) (i : Nat) (node : Node) (j : Nat) : Prop :=
  (∃ l ∈ node.targets, (markerIndex c.toList)[l]? = some j) ∨
    (node.endsFlow = false ∧ j = i + 1 ∧ j < c.toList.length)

/-- The nodes that control reaches. -/
inductive Reached (c : Code) : Nat → Prop where
  | enter {i : Nat} {x : Int} : Enters c i x → Reached c i
  | next {i j : Nat} {node : Node} : Reached c i → c.toList[i]? = some node →
      c.Follows i node j → Reached c j

/-- Each node that is reached has one depth of the stack, on all ways to it, and no
node takes from the stack what is not there. -/
structure Consistent (c : Code) (depth : Nat → Int) : Prop where
  enter : ∀ {i x}, c.Enters i x → depth i = x
  enough : ∀ {i node}, c.Reached i → c.toList[i]? = some node → 0 ≤ depth i + node.stackDelta
  next : ∀ {i j node}, c.Reached i → c.toList[i]? = some node → c.Follows i node j →
    depth j = depth i + node.stackDelta

/-- The depths before and after the nodes that are reached. -/
def depths (c : Code) (depth : Nat → Int) : Set Int :=
  {x | ∃ i node, c.Reached i ∧ c.toList[i]? = some node ∧
    (x = depth i ∨ x = depth i + node.stackDelta)}

section Ways
variable {c : Code} {depth : Nat → Int}

theorem Enters.lt {i : Nat} {x : Int} (h : c.Enters i x) : i < c.toList.length := by
  cases h with
  | first hne => exact List.length_pos_iff.2 hne
  | handler _ hi => exact lt_of_markerIndex hi

theorem Follows.lt {i j : Nat} {node : Node} (h : c.Follows i node j) : j < c.toList.length := by
  rcases h with ⟨l, _, hl⟩ | ⟨_, _, hlt⟩
  · exact lt_of_markerIndex hl
  · exact hlt

theorem Reached.lt {i : Nat} (h : c.Reached i) : i < c.toList.length := by
  cases h with
  | enter h => exact h.lt
  | next _ _ h => exact h.lt

/-- Depths spread along exactly the ways that control can take. -/
theorem mem_successors {i j : Nat} {node : Node} :
    j ∈ successors (markerIndex c.toList) c.toList.length i node ↔ c.Follows i node j := by
  unfold successors Follows
  rw [List.mem_append, List.mem_filterMap]
  refine or_congr Iff.rfl ?_
  split
  · rename_i hnext
    rw [Bool.and_eq_true, Bool.not_eq_true', decide_eq_true_eq] at hnext
    rw [List.mem_singleton]
    constructor
    · rintro rfl
      exact ⟨hnext.1, rfl, hnext.2⟩
    · exact fun h => h.2.1
  · rename_i hnext
    refine iff_of_false List.not_mem_nil ?_
    rintro ⟨hflow, rfl, hlt⟩
    exact hnext (by rw [hflow, decide_eq_true hlt]; rfl)

end Ways

/-! ## Reaching nodes -/

namespace Spread

/-- The nodes that had their turn. -/
def done (s : Spread) : List Nat := s.reached.toList.take s.turns

/-- The nodes whose turn is still to come. -/
def waiting (s : Spread) : List Nat := s.reached.toList.drop s.turns

/-- Every node that was reached is listed once, and has its depth noted. -/
structure Keyed (depth : Nat → Int) (s : Spread) : Prop where
  nodup : s.reached.toList.Nodup
  noted : ∀ i, s.depth[i]? = if i ∈ s.reached.toList then some (depth i) else none

/-- The nodes `js` were reached besides those of `s`. -/
structure Grown (depth : Nat → Int) (js : List Nat) (s t : Spread) : Prop where
  keyed : t.Keyed depth
  added : ∃ more, t.reached.toList = s.reached.toList ++ more
  mem : ∀ j, j ∈ t.reached.toList ↔ j ∈ s.reached.toList ∨ j ∈ js
  turns : t.turns = s.turns
  deepest : t.deepest = s.deepest

section Growth
variable {depth : Nat → Int} {s t : Spread}

theorem deepest_reach (x : Int) (s : Spread) (i : Nat) : (s.reach x i).deepest = s.deepest := by
  unfold reach
  split <;> rfl

theorem Keyed.contains_iff (h : s.Keyed depth) (i : Nat) :
    s.depth.contains i = true ↔ i ∈ s.reached.toList := by
  rw [Std.HashMap.contains_eq_isSome_getElem?, h.noted]
  split <;> simp_all

theorem Keyed.getD_eq (h : s.Keyed depth) {i : Nat} (hi : i ∈ s.reached.toList) :
    s.depth.getD i 0 = depth i := by
  rw [Std.HashMap.getD_eq_getD_getElem?, h.noted, if_pos hi]
  rfl

theorem Grown.refl (h : s.Keyed depth) : Grown depth [] s s :=
  ⟨h, ⟨[], (List.append_nil _).symm⟩, by simp, rfl, rfl⟩

theorem Grown.trans {u : Spread} {js ks : List Nat} (h : Grown depth js s t)
    (h' : Grown depth ks t u) : Grown depth (js ++ ks) s u := by
  obtain ⟨more, hmore⟩ := h.added
  obtain ⟨more', hmore'⟩ := h'.added
  refine ⟨h'.keyed, ⟨more ++ more', ?_⟩, fun j => ?_, h'.turns.trans h.turns,
    h'.deepest.trans h.deepest⟩
  · rw [hmore', hmore, List.append_assoc]
  · rw [h'.mem, h.mem, List.mem_append, or_assoc]

/-- A node is reached with the one depth that it has. -/
theorem grown_reach (h : s.Keyed depth) (j : Nat) : Grown depth [j] s (s.reach (depth j) j) := by
  unfold reach
  split
  · rename_i hin
    refine ⟨h, ⟨[], (List.append_nil _).symm⟩, fun k => ?_, rfl, rfl⟩
    have := (h.contains_iff j).1 hin
    constructor
    · exact .inl
    · rintro (hk | hk)
      · exact hk
      · exact List.mem_singleton.1 hk ▸ this
  · rename_i hout
    have hnew := mt (h.contains_iff j).2 hout
    refine ⟨⟨?_, fun i => ?_⟩, ⟨[j], Array.toList_push ..⟩, fun k => ?_, rfl, rfl⟩
    · rw [Array.toList_push, List.nodup_append]
      refine ⟨h.nodup, List.nodup_singleton j, fun a ha b hb => ?_⟩
      rw [List.mem_singleton.1 hb]
      exact fun he => hnew (he ▸ ha)
    · rw [Std.HashMap.getElem?_insert, h.noted, Array.toList_push]
      by_cases hij : j = i
      · subst hij
        simp
      · simp [hij, Ne.symm hij]
    · rw [Array.toList_push, List.mem_append]

theorem grown_foldl {x : Int} {js : List Nat} (hjs : ∀ j ∈ js, depth j = x) (h : s.Keyed depth) :
    Grown depth js s (js.foldl (reach x) s) := by
  induction js generalizing s with
  | nil => exact .refl h
  | cons j js ih =>
    obtain ⟨hj, hjs⟩ := List.forall_mem_cons.1 hjs
    have hstep := grown_reach h j
    rw [hj] at hstep
    exact hstep.trans (ih hjs hstep.keyed)

end Growth

/-! ## The invariant of spreading -/

/-- What holds between two turns. -/
structure Sound (c : Code) (depth : Nat → Int) (s : Spread) : Prop where
  keyed : s.Keyed depth
  turns : s.turns ≤ s.reached.toList.length
  reached : ∀ i ∈ s.reached.toList, c.Reached i
  entered : ∀ {i x}, c.Enters i x → i ∈ s.reached.toList
  closed : ∀ {i node j}, i ∈ s.done → c.toList[i]? = some node → c.Follows i node j →
    j ∈ s.reached.toList
  bound : ∀ {i node}, i ∈ s.done → c.toList[i]? = some node →
    depth i ≤ s.deepest ∧ depth i + node.stackDelta ≤ s.deepest
  attained : s.deepest = 0 ∨ s.deepest ∈ c.depths depth

section Soundness
variable {c : Code} {depth : Nat → Int} {s t : Spread}

/-- Control enters at the first node and at the handlers, and nowhere else. -/
theorem grown_start (hc : c.Consistent depth) (hne : c.toList ≠ []) :
    Grown depth (0 :: c.handlers.toList.filterMap fun h => (markerIndex c.toList)[h.target]?) {}
      (start (markerIndex c.toList) c.handlers.toList) := by
  have hempty : Keyed depth {} := ⟨List.nodup_nil, fun i => by simp⟩
  have hfirst := grown_reach hempty 0
  rw [hc.enter (.first hne)] at hfirst
  refine hfirst.trans (grown_foldl (fun j hj => ?_) hfirst.keyed)
  obtain ⟨h, hh, hj⟩ := List.mem_filterMap.1 hj
  exact hc.enter (.handler hh hj)

theorem sound_start (hc : c.Consistent depth) (hne : c.toList ≠ []) :
    Sound c depth (start (markerIndex c.toList) c.handlers.toList) := by
  have hg := grown_start hc hne
  have hturns : (start (markerIndex c.toList) c.handlers.toList).turns = 0 := hg.turns
  have hdone : (start (markerIndex c.toList) c.handlers.toList).done = [] := by
    rw [done, hturns, List.take_zero]
  refine ⟨hg.keyed, by omega, fun i hi => ?_, fun {i x} hi => ?_, ?_, ?_, .inl hg.deepest⟩
  · rcases (hg.mem i).1 hi with hi | hi
    · cases hi
    · rcases List.mem_cons.1 hi with rfl | hi
      · exact .enter (.first hne)
      · obtain ⟨h, hh, hi⟩ := List.mem_filterMap.1 hi
        exact .enter (.handler hh hi)
  · refine (hg.mem i).2 (.inr ?_)
    cases hi with
    | first => exact List.mem_cons_self ..
    | handler hh hi => exact List.mem_cons_of_mem _ (List.mem_filterMap.2 ⟨_, hh, hi⟩)
  · rw [hdone]
    exact nofun
  · rw [hdone]
    exact nofun

/-- The turn of a node reaches the nodes that may follow it. -/
theorem grown_visit (hc : c.Consistent depth) (hs : s.Sound c depth) {i : Nat} {node : Node}
    (hi : i ∈ s.reached.toList) (hn : c.toList[i]? = some node) :
    Grown depth (successors (markerIndex c.toList) c.toList.length i node)
      { s with
        turns := s.turns + 1
        deepest := max s.deepest (max (depth i) (depth i + node.stackDelta)) }
      (s.visit (markerIndex c.toList) c.toList.length i node) := by
  have hr := hs.reached i hi
  have hafter : depthAfter (depth i) node = depth i + node.stackDelta :=
    Int.max_eq_right (hc.enough hr hn)
  unfold visit
  simp only [hs.keyed.getD_eq hi, hafter]
  exact grown_foldl (fun j hj => hc.next hr hn (mem_successors.1 hj)) ⟨hs.keyed.nodup, hs.keyed.noted⟩

theorem Sound.visit (hc : c.Consistent depth) (hs : s.Sound c depth) {i : Nat} {node : Node}
    (hi : s.reached.toList[s.turns]? = some i) (hn : c.toList[i]? = some node) :
    (s.visit (markerIndex c.toList) c.toList.length i node).Sound c depth := by
  have hmem := List.mem_of_getElem? hi
  have hr := hs.reached i hmem
  have hg := grown_visit hc hs hmem hn
  obtain ⟨more, hmore⟩ := hg.added
  have hlt : s.turns < s.reached.toList.length := (List.getElem?_eq_some_iff.1 hi).1
  generalize s.visit (markerIndex c.toList) c.toList.length i node = t at hg hmore
  have hturns : t.turns = s.turns + 1 := hg.turns
  have hdeepest : t.deepest = max s.deepest (max (depth i) (depth i + node.stackDelta)) := hg.deepest
  have hreached : t.reached.toList = s.reached.toList ++ more := hmore
  have hdone : t.done = s.done ++ [i] := by
    rw [done, hturns, hreached, List.take_append_of_le_length hlt, List.take_add_one, hi]
    rfl
  have hold : ∀ {j}, j ∈ s.reached.toList → j ∈ t.reached.toList :=
    fun hj => (hg.mem _).2 (.inl hj)
  refine ⟨hg.keyed, ?_, fun j hj => ?_, fun he => hold (hs.entered he),
    fun {j k l} hj hk hl => ?_, fun {j k} hj hk => ?_, ?_⟩
  · rw [hturns, hreached, List.length_append]
    omega
  · rcases (hg.mem j).1 hj with hj | hj
    · exact hs.reached j hj
    · exact hr.next hn (mem_successors.1 hj)
  · rw [hdone] at hj
    rcases List.mem_append.1 hj with hj | hj
    · exact hold (hs.closed hj hk hl)
    · cases List.mem_singleton.1 hj
      rw [hn] at hk
      cases hk
      exact (hg.mem l).2 (.inr (mem_successors.2 hl))
  · rw [hdone] at hj
    rcases List.mem_append.1 hj with hj | hj
    · have := hs.bound hj hk
      omega
    · cases List.mem_singleton.1 hj
      rw [hn] at hk
      cases hk
      omega
  · have hcases : t.deepest = s.deepest ∨ t.deepest = depth i ∨
        t.deepest = depth i + node.stackDelta := by omega
    rcases hcases with he | he
    · rw [he]
      exact hs.attained
    · exact .inr ⟨i, node, hr, hn, he⟩

/-- The waiting nodes may stand in another order. -/
structure Shuffled (s t : Spread) : Prop where
  rest : t = { s with reached := t.reached }
  done : t.done = s.done
  waiting : t.waiting.Perm s.waiting

theorem Shuffled.perm (h : Shuffled s t) : t.reached.toList.Perm s.reached.toList := by
  have hp := h.waiting.append_left t.done
  rw [h.done] at hp
  have hs : s.done ++ s.waiting = s.reached.toList := List.take_append_drop ..
  have ht : t.done ++ t.waiting = t.reached.toList := List.take_append_drop ..
  rwa [← h.done, ht, h.done, hs] at hp

theorem Sound.shuffled (hs : s.Sound c depth) (h : Shuffled s t) : t.Sound c depth := by
  have hp := h.perm
  have hdepth : t.depth = s.depth := by rw [h.rest]
  have hturns : t.turns = s.turns := by rw [h.rest]
  have hdeepest : t.deepest = s.deepest := by rw [h.rest]
  refine ⟨⟨hp.nodup_iff.2 hs.keyed.nodup, fun i => ?_⟩, ?_, fun i hi => ?_, fun he => ?_,
    fun hi hn hj => ?_, fun hi hn => ?_, ?_⟩
  · rw [hdepth, hs.keyed.noted]
    simp only [hp.mem_iff]
  · rw [hturns, hp.length_eq]
    exact hs.turns
  · exact hs.reached i (hp.mem_iff.1 hi)
  · exact hp.mem_iff.2 (hs.entered he)
  · rw [h.done] at hi
    exact hp.mem_iff.2 (hs.closed hi hn hj)
  · rw [h.done] at hi
    rw [hdeepest]
    exact hs.bound hi hn
  · rw [hdeepest]
    exact hs.attained

/-! ## Whole runs -/

/-- The spreads that come up when waiting nodes have their turns in any order. -/
inductive Arises (c : Code) : Spread → Prop where
  | start : Arises c (start (markerIndex c.toList) c.handlers.toList)
  | shuffle {s t : Spread} : Arises c s → Shuffled s t → Arises c t
  | visit {s : Spread} {i : Nat} {node : Node} : Arises c s →
      s.reached.toList[s.turns]? = some i → c.toList[i]? = some node →
      Arises c (s.visit (markerIndex c.toList) c.toList.length i node)

theorem Arises.sound (hc : c.Consistent depth) (hne : c.toList ≠ []) (h : Arises c s) :
    s.Sound c depth := by
  induction h with
  | start => exact sound_start hc hne
  | shuffle _ h ih => exact ih.shuffled h
  | visit _ hi hn ih => exact ih.visit hc hi hn

/-- There are not more turns than nodes. -/
theorem Sound.length_le (hs : s.Sound c depth) : s.reached.toList.length ≤ c.toList.length := by
  have hsub : s.reached.toList ⊆ List.range c.toList.length :=
    fun i hi => List.mem_range.2 (hs.reached i hi).lt
  have hle := (hs.keyed.nodup.subperm hsub).length_le
  rwa [List.length_range] at hle

/-- When nobody waits any more, every node that control reaches was reached. -/
theorem Sound.complete (hs : s.Sound c depth) (hw : s.waiting = []) {i : Nat} (hi : c.Reached i) :
    i ∈ s.done := by
  have hall : s.done = s.reached.toList := by
    have happ : s.done ++ s.waiting = s.reached.toList := List.take_append_drop ..
    rwa [hw, List.append_nil] at happ
  rw [hall]
  induction hi with
  | enter he => exact hs.entered he
  | next _ hn hj ih => exact hs.closed (hall ▸ ih) hn hj

/-- When nobody waits any more, the greatest of all depths was seen. -/
theorem Sound.isGreatest (hc : c.Consistent depth) (hne : c.toList ≠ []) (hs : s.Sound c depth)
    (hw : s.waiting = []) : IsGreatest (c.depths depth) s.deepest := by
  constructor
  · rcases hs.attained with h | h
    · obtain ⟨node, nodes, hl⟩ := List.exists_cons_of_ne_nil hne
      have hnode : c.toList[0]? = some node := by rw [hl]; rfl
      rw [h, ← hc.enter (.first hne)]
      exact ⟨0, node, .enter (.first hne), hnode, .inl rfl⟩
    · exact h
  · rintro x ⟨i, node, hi, hn, hx⟩
    have hb := hs.bound (hs.complete hw hi) hn
    rcases hx with rfl | rfl
    · exact hb.1
    · exact hb.2

/-- With a round for each node that may still be reached, nobody waits in the end. -/
theorem run_ends (hc : c.Consistent depth) (hne : c.toList ≠ []) {rounds : Nat} (h : Arises c s)
    (hr : c.toList.length ≤ s.turns + rounds) :
    Arises c (run c.toList.toArray (markerIndex c.toList) rounds s) ∧
      (run c.toList.toArray (markerIndex c.toList) rounds s).waiting = [] := by
  induction rounds generalizing s with
  | zero =>
    have := (h.sound hc hne).length_le
    exact ⟨h, List.drop_eq_nil_iff.2 (by rw [run]; omega)⟩
  | succ rounds ih =>
    have hs := h.sound hc hne
    rw [run]
    cases hi : s.reached[s.turns]? with
    | none =>
      rw [← Array.getElem?_toList, List.getElem?_eq_none_iff] at hi
      exact ⟨h, List.drop_eq_nil_iff.2 hi⟩
    | some i =>
      rw [← Array.getElem?_toList] at hi
      have hlt := (hs.reached i (List.mem_of_getElem? hi)).lt
      have hn := List.getElem?_eq_getElem hlt
      simp only [List.getElem?_toArray, hn, List.size_toArray]
      refine ih (h.visit hi hn) ?_
      have hturns := (grown_visit hc hs (List.mem_of_getElem? hi) hn).turns
      change (visit ..).turns = s.turns + 1 at hturns
      omega

end Soundness

end Spread

/-- The limit is the greatest depth that any order of turns comes to. -/
theorem maxStack_of_arises {c : Code} {depth : Nat → Int} (hc : c.Consistent depth)
    (hne : c.toList ≠ []) {s : Spread} (h : s.Arises c) (hw : s.waiting = []) :
    IsGreatest (c.depths depth) s.deepest ∧ c.maxStack = saturate s.deepest.toNat := by
  have hgreatest := (h.sound hc hne).isGreatest hc hne hw
  refine ⟨hgreatest, ?_⟩
  obtain ⟨hrun, hends⟩ := Spread.run_ends hc hne .start (Nat.le_add_left ..)
  have heq := ((hrun.sound hc hne).isGreatest hc hne hends).unique hgreatest
  have hempty : c.isEmpty = false := by
    rw [Bool.eq_false_iff]
    exact fun he => hne (toList_of_isEmpty he)
  unfold maxStack
  simp only [hempty, Bool.false_eq_true, if_false, heq]

theorem maxStack_of_nil {c : Code} (h : c.toList = []) : c.maxStack = 0 := by
  have hentries : c.handlers.toList.filterMap
      (fun h => (markerIndex ([] : List Node))[h.target]?) = [] :=
    List.filterMap_eq_nil_iff.2 fun h _ => by simp [markerIndex]
  unfold maxStack
  split
  · rfl
  · simp only [h, List.length_nil, Spread.run, Spread.start, hentries, List.foldl_nil,
      Spread.deepest_reach]
    rfl

/-! ## Other orders of handlers and pairs -/

/-- The nodes are the same, but for the order of a switch's pairs. -/
inductive SamePairs : Node → Node → Prop where
  | refl (i : Node) : SamePairs i i
  | pairs {otherwise : Label} {ps qs : List (Int32 × Label)} : ps.Perm qs →
      SamePairs (.lookupSwitch otherwise ps) (.lookupSwitch otherwise qs)

/-- The code is the same, but for the order of handlers and of the pairs of switches. -/
structure Reordered (c c' : Code) : Prop where
  nodes : List.Forall₂ SamePairs c.toList c'.toList
  handlers : c.handlers.toList.Perm c'.handlers.toList

namespace SamePairs
variable {i j : Node}

theorem symm (h : SamePairs i j) : SamePairs j i := by
  cases h with
  | refl => exact .refl i
  | pairs h => exact .pairs h.symm

theorem marker?_eq (h : SamePairs i j) : i.marker? = j.marker? := by cases h <;> rfl

theorem stackDelta_eq (h : SamePairs i j) : i.stackDelta = j.stackDelta := by cases h <;> rfl

theorem endsFlow_eq (h : SamePairs i j) : i.endsFlow = j.endsFlow := by cases h <;> rfl

theorem mem_targets (h : SamePairs i j) (l : Label) : l ∈ i.targets ↔ l ∈ j.targets := by
  cases h with
  | refl => exact Iff.rfl
  | pairs h =>
    unfold Insn.targets
    rw [List.mem_cons, List.mem_cons, (h.map _).mem_iff]

end SamePairs

namespace Reordered
variable {c c' : Code} {depth : Nat → Int}

theorem symm (h : c.Reordered c') : c'.Reordered c :=
  ⟨h.nodes.flip.imp fun _ _ => SamePairs.symm, h.handlers.symm⟩

theorem markerIndex_eq (h : c.Reordered c') : markerIndex c.toList = markerIndex c'.toList := by
  apply markerIndex_congr
  have hmarkers : List.Forall₂ (· = ·) (c.toList.map Insn.marker?) (c'.toList.map Insn.marker?) :=
    List.forall₂_map_left_iff.2 <| List.forall₂_map_right_iff.2 <|
      h.nodes.imp fun _ _ => SamePairs.marker?_eq
  rwa [List.forall₂_eq_eq_eq] at hmarkers

theorem exists_node (h : c.Reordered c') {i : Nat} {node : Node} (hn : c.toList[i]? = some node) :
    ∃ node', c'.toList[i]? = some node' ∧ SamePairs node node' := by
  have hnodes := h.nodes
  generalize c.toList = nodes at hnodes hn
  generalize c'.toList = nodes' at hnodes
  induction hnodes generalizing i with
  | nil => cases hn
  | cons hab _ ih =>
    cases i with
    | zero =>
      cases hn
      exact ⟨_, rfl, hab⟩
    | succ i => exact ih hn

theorem follows_iff (h : c.Reordered c') {i j : Nat} {node node' : Node}
    (hn : SamePairs node node') : c.Follows i node j ↔ c'.Follows i node' j := by
  unfold Follows
  simp only [hn.mem_targets, hn.endsFlow_eq, h.markerIndex_eq, h.nodes.length_eq]

theorem enters (h : c.Reordered c') {i : Nat} {x : Int} (hi : c.Enters i x) : c'.Enters i x := by
  cases hi with
  | first hne =>
    refine .first fun hnil => hne ?_
    rw [← List.length_eq_zero_iff, h.nodes.length_eq, hnil, List.length_nil]
  | handler hh hi => exact .handler (h.handlers.mem_iff.1 hh) (h.markerIndex_eq ▸ hi)

theorem reached (h : c.Reordered c') {i : Nat} (hi : c.Reached i) : c'.Reached i := by
  induction hi with
  | enter hi => exact .enter (h.enters hi)
  | next _ hn hj ih =>
    obtain ⟨node', hn', hs⟩ := h.exists_node hn
    exact ih.next hn' ((h.follows_iff hs).1 hj)

theorem consistent (h : c.Reordered c') (hc : c.Consistent depth) : c'.Consistent depth := by
  refine ⟨fun hi => hc.enter (h.symm.enters hi), fun hi hn => ?_, fun hi hn hj => ?_⟩
  · obtain ⟨node, hnode, hs⟩ := h.symm.exists_node hn
    rw [hs.stackDelta_eq]
    exact hc.enough (h.symm.reached hi) hnode
  · obtain ⟨node, hnode, hs⟩ := h.symm.exists_node hn
    rw [hs.stackDelta_eq]
    exact hc.next (h.symm.reached hi) hnode ((h.symm.follows_iff hs).1 hj)

theorem depths_subset (h : c.Reordered c') : c.depths depth ⊆ c'.depths depth := by
  rintro x ⟨i, node, hi, hn, hx⟩
  obtain ⟨node', hn', hs⟩ := h.exists_node hn
  exact ⟨i, node', h.reached hi, hn', hs.stackDelta_eq ▸ hx⟩

/-- Neither order makes a difference to the limit. -/
theorem maxStack_eq (h : c.Reordered c') (hc : c.Consistent depth) : c'.maxStack = c.maxStack := by
  by_cases hne : c.toList = []
  · have hnil : c'.toList = [] := by
      rw [← List.length_eq_zero_iff, ← h.nodes.length_eq, hne, List.length_nil]
    rw [maxStack_of_nil hne, maxStack_of_nil hnil]
  · have hne' : c'.toList ≠ [] := fun hnil => hne <| by
      rw [← List.length_eq_zero_iff, h.nodes.length_eq, hnil, List.length_nil]
    obtain ⟨hrun, hends⟩ := Spread.run_ends hc hne .start (Nat.le_add_left ..)
    obtain ⟨hrun', hends'⟩ := Spread.run_ends (h.consistent hc) hne' .start (Nat.le_add_left ..)
    obtain ⟨hmax, heq⟩ := maxStack_of_arises hc hne hrun hends
    obtain ⟨hmax', heq'⟩ := maxStack_of_arises (h.consistent hc) hne' hrun' hends'
    have hdepths : c'.depths depth = c.depths depth :=
      Set.Subset.antisymm h.symm.depths_subset h.depths_subset
    rw [hdepths] at hmax'
    rw [heq, heq', hmax.unique hmax']

end Reordered

/-- The limit of the stack is the greatest depth before or after a node that control
reaches, as far as slot numbers go. It does not depend on the order of handlers, of
pairs, or of turns; and there are at most as many turns as there are nodes. -/
theorem maxStack_is_greatest {c : Code} {depth : Nat → Int} (hc : c.Consistent depth) :
    (c.toList = [] → c.maxStack = 0) ∧
    (c.toList ≠ [] →
      (∃ n : Nat, IsGreatest (c.depths depth) n ∧ c.maxStack.toNat = min 65535 n) ∧
      ∀ s : Spread, s.Arises c → s.turns ≤ c.toList.length ∧
        (s.waiting = [] → saturate s.deepest.toNat = c.maxStack)) ∧
    ∀ c', c.Reordered c' → c'.maxStack = c.maxStack := by
  refine ⟨maxStack_of_nil, fun hne => ⟨?_, fun s hs => ⟨?_, fun hw => ?_⟩⟩,
    fun c' h => h.maxStack_eq hc⟩
  · obtain ⟨hrun, hends⟩ := Spread.run_ends hc hne .start (Nat.le_add_left ..)
    obtain ⟨hmax, heq⟩ := maxStack_of_arises hc hne hrun hends
    have hnonneg : 0 ≤ Spread.deepest _ :=
      hc.enter (.first hne) ▸ hmax.2 ⟨0, _, .enter (.first hne),
        List.getElem?_eq_getElem (List.length_pos_iff.2 hne), .inl rfl⟩
    refine ⟨_, (Int.toNat_of_nonneg hnonneg).symm ▸ hmax, ?_⟩
    rw [heq, toNat_saturate, Nat.min_comm]
  · have hsound := hs.sound hc hne
    exact Nat.le_trans hsound.turns hsound.length_le
  · exact (maxStack_of_arises hc hne hs hw).2.symm

/-- A loop around a switch, and a handler that throws on. -/
def dispatching : Code :=
  { (withLabels 3).pushAll
      [.label 0, .simple .ICONST_1, .lookupSwitch 1 [(5, 0), (7, 1)], .label 1, .simple .RETURN,
        .label 2, .simple .ATHROW] with
    handlers := #[⟨0, 1, 2, none⟩] }

/-- The switch and the handler have one value on the stack. -/
def dispatchingDepth (i : Nat) : Int := if i = 2 ∨ i = 5 ∨ i = 6 then 1 else 0

theorem toList_dispatching : dispatching.toList =
    [.label 0, .simple .ICONST_1, .lookupSwitch 1 [(5, 0), (7, 1)], .label 1, .simple .RETURN,
      .label 2, .simple .ATHROW] := by decide +kernel

theorem markerIndex_dispatching (l : Label) : (markerIndex dispatching.toList)[l]? =
    if l = 0 then some 0 else if l = 1 then some 3 else if l = 2 then some 5 else none := by
  rw [toList_dispatching]
  simp only [markerIndex, Insn.marker?, List.foldl_cons, List.foldl_nil,
    Std.HashMap.getElem?_insert, Std.HashMap.getElem?_empty, beq_iff_eq]
  grind

theorem consistent_dispatching : dispatching.Consistent dispatchingDepth := by
  refine ⟨fun {i x} hi => ?_, fun {i node} _ hn => ?_, fun {i j node} _ hn hj => ?_⟩
  · cases hi with
    | first => rfl
    | handler hh hi =>
      cases List.mem_singleton.1 hh
      rw [markerIndex_dispatching] at hi
      cases hi
      rfl
  · rw [toList_dispatching] at hn
    rcases i with _ | _ | _ | _ | _ | _ | _ | i <;> cases hn <;> decide
  · rw [← mem_successors] at hj
    unfold successors at hj
    simp only [markerIndex_dispatching] at hj
    rw [toList_dispatching] at hn hj
    rcases i with _ | _ | _ | _ | _ | _ | _ | i <;> cases hn <;> revert j <;> decide

theorem maxStack_dispatching :
    dispatching.Consistent dispatchingDepth ∧ dispatching.toList ≠ [] ∧
    (∃ n : Nat, IsGreatest (dispatching.depths dispatchingDepth) n ∧
      dispatching.maxStack.toNat = min 65535 n) ∧
    ∀ c', dispatching.Reordered c' → c'.maxStack = dispatching.maxStack := by
  have hne : dispatching.toList ≠ [] := by
    rw [toList_dispatching]
    exact List.cons_ne_nil _ _
  obtain ⟨_, hmax, horder⟩ := maxStack_is_greatest consistent_dispatching
  exact ⟨consistent_dispatching, hne, (hmax hne).1, horder⟩

end ClassPatch.Code
