-- What every list of nodes keeps to, whatever was done to it: handles lead to
-- what is stored, labels to their own markers, and the list names no labels but
-- its own. So nothing that reads a list, changes it in place or splices it ever
-- asks a store for a handle that it does not have.
import ClassPatch.Container.Encode
import ClassPatch.Listing
import ClassPatch.Proofs.Edits
import Mathlib.Logic.Relation

namespace ClassPatch

/-! ## Checked access -/

/-- The nodes that some handles stand for, if each of them stands for one. -/
def nodesOf? (store : Array Node) (handles : List Handle) : Option (List Node) :=
  handles.mapM (store[·]?)

theorem nodesOf?_of_made {store : Array Node} {handles : List Handle}
    (h : ∀ k ∈ handles, k < store.size) :
    nodesOf? store handles = some (nodesOf store handles) := by
  induction handles with
  | nil => rfl
  | cons k ks ih =>
    have hk := Array.getElem?_eq_getElem (h k (List.mem_cons_self ..))
    have hks := ih fun j hj => h j (List.mem_cons_of_mem k hj)
    unfold nodesOf? at hks ⊢
    rw [List.mapM_cons, hk, hks, nodesOf_cons hk]
    rfl

namespace Code

/-- The nodes in place, as an iteration finds them. -/
def toList? (c : Code) : Option (List Node) := nodesOf? c.store c.order.toList

/-- The list with nothing stored but some nodes, all of them in place. -/
def rebuilt (c : Code) (nodes : List Node) : Code :=
  { c with store := nodes.toArray, order := Array.range nodes.length }

/-- The list rebuilt from what an iteration finds. -/
def reread? (c : Code) : Option Code := c.toList?.map c.rebuilt

/-- Changes the nodes in place, if each of them is stored. -/
def mapNodes? (f : Node → Node) (c : Code) : Option Code := do
  let store ← c.order.toList.foldlM
    (fun (store : Array Node) h => if h < store.size then some (store.modify h f) else none) c.store
  return { c with store }

/-- The removed markers that the segment does not have, if each removed node is stored. -/
def Segment.hoisted? (s : Segment) (removed : List Handle) : Option (List Handle) := do
  let nodes ← nodesOf? s.store removed
  let loose := (removed.zip nodes).filter fun e => e.2.marker?.any fun l => !s.marked.contains l
  return loose.map (·.1)

/-- A splice, if all nodes of the fragment and all removed ones are stored. -/
def splice? (host : Code) (index count : Nat) (fragment : Code) : Option (Nat × Code) := do
  let order := host.order.toList
  let before := order.take index
  let removed := (order.drop index).take count
  let after := order.drop (index + count)
  let adoption := adopt host fragment
  let nodes ← fragment.toList?
  let segment := nodes.foldl
    (Segment.add adoption.map fragment.imports (Std.HashSet.ofList (before ++ after))
      (runTable (nodesOf host.store removed)))
    { store := adoption.host.store }
  let hoisted ← segment.hoisted? removed
  let inserted := hoisted ++ segment.handles.reverse
  return ( inserted.length,
    { host with
      store := segment.store
      order := (before ++ inserted ++ after).toArray
      handlers := fragment.handlers.map (Handler.mapLabels adoption.map) ++ host.handlers } )

/-- All that looks at a list finds a node under each handle that it looks up: what goes
through the nodes, takes one of them or changes them in place. For listings, for the search
for a needle, on either side, and for the writer the nodes that an iteration finds are enough. -/
structure Served (c : Code) : Prop where
  nodes : c.toList? = some c.toList
  index : ∀ n < c.size, (c.get? n).isSome
  change : ∀ f, c.mapNodes? f = some (c.mapNodes f)
  enough : ∃ d, c.reread? = some d ∧ d.text = c.text ∧
    (∀ e : Code, d.findAll e = c.findAll e ∧ e.findAll d = e.findAll c) ∧
    ∀ m : Method, ({ m with code := d } : Method).encode = ({ m with code := c } : Method).encode

section
variable {c : Code}

theorem toList?_of_stored (h : c.Stored) : c.toList? = some c.toList := nodesOf?_of_made h.made

/-- A handle that stands for nothing is noticed. -/
example : Code.toList? { order := #[0] } = none := rfl

theorem isSome_get?_of_stored (h : c.Stored) {index : Nat} (hi : index < c.size) :
    (c.get? index).isSome := by
  have hk : c.order[index] ∈ c.order.toList := Array.getElem_mem_toList hi
  have hlt : c.order[index] < c.store.size := h.made _ hk
  unfold get?
  rw [Array.getElem?_eq_getElem hi, Option.bind_some, Array.getElem?_eq_getElem hlt]
  rfl

theorem mapNodes?_of_stored (h : c.Stored) (f : Node → Node) :
    c.mapNodes? f = some (c.mapNodes f) := by
  have key : ∀ (handles : List Handle) (store : Array Node), (∀ k ∈ handles, k < store.size) →
      handles.foldlM (fun (store : Array Node) h =>
        if h < store.size then some (store.modify h f) else none) store =
      some (handles.foldl (fun store h => store.modify h f) store) := by
    intro handles
    induction handles with
    | nil => exact fun _ _ => rfl
    | cons k ks ih =>
      intro store hm
      rw [List.foldlM_cons, if_pos (hm k (List.mem_cons_self ..)), List.foldl_cons]
      refine ih _ fun j hj => ?_
      rw [Array.size_modify]
      exact hm j (List.mem_cons_of_mem k hj)
  unfold mapNodes? mapNodes
  rw [key _ _ h.made, ← Array.foldl_toList]
  rfl

theorem toList_rebuilt (c : Code) (nodes : List Node) : (c.rebuilt nodes).toList = nodes := by
  have hrange : (c.rebuilt nodes).toList = nodesOf nodes.toArray (List.range nodes.length) := by
    rw [toList, rebuilt, Array.toList_range]
  rw [hrange]
  clear hrange
  induction nodes using List.reverseRecOn with
  | nil => rfl
  | append_singleton nodes i ih =>
    have hlt : ∀ k ∈ List.range nodes.length, k < nodes.toArray.size :=
      fun k hk => by simpa using hk
    have hlast : (nodes.toArray.push i)[nodes.length]? = some i := by simp
    rw [List.length_append, List.length_singleton, List.range_succ, nodesOf_append,
      ← List.push_toArray, nodesOf_push i hlt, ih, nodesOf_singleton hlast]

theorem isEmpty_rebuilt (h : c.Stored) : (c.rebuilt c.toList).isEmpty = c.isEmpty := by
  have hsize : (c.rebuilt c.toList).order.size = c.order.size := by
    rw [rebuilt, Array.size_range]
    exact length_nodesOf h.made
  rw [isEmpty, isEmpty, Array.isEmpty, Array.isEmpty, hsize]

/-- Lists with the same nodes and handlers are written alike. -/
theorem encode_congr {d : Code} (hempty : d.isEmpty = c.isEmpty) (hnodes : d.toList = c.toList)
    (hhandlers : d.handlers = c.handlers) (m : Method) :
    ({ m with code := d } : Method).encode = ({ m with code := c } : Method).encode := by
  have hstack : d.maxStack = c.maxStack := by rw [maxStack, maxStack, hempty, hnodes, hhandlers]
  have hfrontier : d.frontier = c.frontier := by rw [frontier, frontier, hnodes]
  simp only [Method.encode, Method.encodeBody, Method.checkLabels, Method.neededLocals,
    hempty, hnodes, hhandlers, hstack, hfrontier]
  rfl

theorem served_of_stored (h : c.Stored) : c.Served := by
  have hread : c.reread? = some (c.rebuilt c.toList) := by
    rw [reread?, toList?_of_stored h, Option.map_some]
  have hnodes := c.toList_rebuilt c.toList
  refine ⟨toList?_of_stored h, fun _ => isSome_get?_of_stored h, mapNodes?_of_stored h,
    _, hread, ?_, fun e => ⟨?_, ?_⟩, encode_congr (isEmpty_rebuilt h) hnodes rfl⟩
  · rw [text, text, lines, lines, hnodes]
    rfl
  · rw [findAll, findAll, hnodes]
    rfl
  · rw [findAll, findAll, hnodes]

end

theorem Segment.hoisted?_of_made {s : Segment} {removed : List Handle}
    (h : ∀ k ∈ removed, k < s.store.size) : s.hoisted? removed = some (s.hoisted removed) := by
  have key : ((removed.zip (nodesOf s.store removed)).filter fun e =>
      e.2.marker?.any fun l => !s.marked.contains l).map (·.1) = s.hoisted removed := by
    unfold hoisted
    induction removed with
    | nil => rfl
    | cons k ks ih =>
      obtain ⟨i, hi⟩ : ∃ i, s.store[k]? = some i :=
        ⟨_, Array.getElem?_eq_getElem (h k (List.mem_cons_self ..))⟩
      have hks := ih fun j hj => h j (List.mem_cons_of_mem k hj)
      rw [nodesOf_cons hi, List.zip_cons_cons, List.filter_cons, List.filter_cons, hi,
        Option.bind_some, ← hks]
      cases i.marker? with
      | none => rfl
      | some l => cases hl : s.marked.contains l <;> simp [hl]
  unfold hoisted?
  rw [nodesOf?_of_made h, ← key]
  rfl

/-- A splice into a list never misses a node, its own or the fragment's. -/
theorem splice?_of_stored {host fragment : Code} (h : host.Stored) (hf : fragment.Stored)
    (hb : fragment.Binds host) (index count : Nat) :
    host.splice? index count fragment = some (host.splice index count fragment) := by
  have hremoved : ∀ k ∈ removed host index count,
      k < (segment host index count fragment).store.size := by
    intro k hk
    have hlt : k < host.store.size := h.made k (mem_order_of_removed hk)
    exact Nat.lt_of_lt_of_le hlt (retains_splice h hb index count).size_le
  have hhoisted := Segment.hoisted?_of_made hremoved
  unfold segment removed kept at hhoisted
  unfold splice?
  rw [toList?_of_stored hf]
  simp only [Option.bind_eq_bind, Option.bind_some]
  rw [hhoisted]
  rfl

/-! ## Intact lists -/

/-- Handles in place lead to nodes, and markers are stored under their own labels.
Branches, handlers and names have only labels that are stored here, and no node
but a marker stands in place twice. -/
structure Intact (c : Code) : Prop extends c.SelfContained where
  ranges : ∀ r ∈ c.handlers.toList, ∀ l ∈ r.labels, l ∈ c.issued
  names : ∀ e ∈ c.names, e.2 ∈ c.issued
  once : ∀ h ∈ c.order.toList, h ∉ c.issued → c.order.toList.count h = 1

theorem mem_issued_of_retains {c d : Code} (hr : Retains c.store d.store) {l : Label}
    (hl : l ∈ c.issued) : l ∈ d.issued := by
  rw [issued, mem_markers, Array.mem_toList_iff, Array.mem_iff_getElem?] at hl ⊢
  exact hl.imp fun h hh => hr h _ hh

theorem intact_withLabels (n : Nat) : (withLabels n).Intact := by
  have hl := laid_withLabels n
  refine ⟨⟨⟨hl.own, hl.made⟩, ?_⟩, ?_, ?_, ?_⟩
  all_goals
    intro x hx
    cases hx

theorem intact_empty : Code.empty.Intact := by
  refine ⟨by decide, ?_, ?_, ?_⟩
  all_goals
    intro x hx
    cases hx

/-! ## Building -/

section
variable {c : Code}

theorem SelfContained.push (h : c.SelfContained) {i : Node} (hi : ∀ l ∈ i.labels, l ∈ c.issued) :
    (c.push i).SelfContained := by
  have hmarker : ∀ l, i = .label l → l ∈ c.issued := by
    rintro l rfl
    exact hi l (List.mem_singleton_self l)
  have hstored : ∀ l, i = .label l → c.store[l]? = some i := by
    rintro l rfl
    exact (mem_issued h.own).1 (hmarker l rfl)
  refine ⟨h.toStored.push hmarker, fun j hj l hl => ?_⟩
  rw [toList_push h.made hstored, List.mem_append, List.mem_singleton] at hj
  rw [issued_push]
  rcases hj with hj | rfl
  · exact h.branches j hj l hl
  · exact hi l (Insn.mem_labels_of_mem_targets hl)

theorem Intact.push (h : c.Intact) {i : Node} (hi : ∀ l ∈ i.labels, l ∈ c.issued) :
    (c.push i).Intact := by
  obtain ⟨hhandlers, hnames, -⟩ := push_other i c
  refine ⟨h.toSelfContained.push hi, ?_, ?_, fun k hk hnew => ?_⟩
  · rw [hhandlers, issued_push]
    exact h.ranges
  · rw [hnames, issued_push]
    exact h.names
  · -- The last handle is a label or was not there before.
    rw [issued_push] at hnew
    rw [order_push, List.mem_append, List.mem_singleton] at hk
    rw [order_push, List.count_append]
    by_cases hlast : k = i.marker?.getD c.store.size
    · have hnot : k ∉ c.order.toList := by
        intro hin
        cases i with
        | label l => exact hnew (hlast ▸ hi l (List.mem_singleton_self l))
        | _ => exact Nat.lt_irrefl _ (hlast ▸ h.made k hin)
      rw [List.count_eq_zero.2 hnot, ← hlast, List.count_singleton_self]
    · rw [h.once k (hk.resolve_right hlast) hnew, List.count_eq_zero.2 (by simpa using hlast)]

theorem Intact.newLabel (h : c.Intact) : c.newLabel.2.Intact := by
  have hretains : Retains c.store c.newLabel.2.store := retains_push _ _
  have hkeep : ∀ l ∈ c.issued, l ∈ c.newLabel.2.issued := fun l => mem_issued_of_retains hretains
  have hlist : c.newLabel.2.toList = c.toList := nodesOf_push _ h.made
  refine ⟨⟨⟨h.own.push (by rintro _ ⟨⟩; rfl), fun k hk => ?_⟩, ?_⟩, ?_, ?_, ?_⟩
  · exact Nat.lt_of_lt_of_le (h.made k hk) hretains.size_le
  · rw [hlist]
    exact fun i hi l hl => hkeep l (h.branches i hi l hl)
  · exact fun r hr l hl => hkeep l (h.ranges r hr l hl)
  · exact fun e he => hkeep _ (h.names e he)
  · exact fun k hk hnew => h.once k hk fun hold => hnew (hkeep k hold)

theorem newLabel_issued (c : Code) : c.newLabel.1 ∈ c.newLabel.2.issued := by
  rw [issued, mem_markers]
  simp [newLabel]

theorem retains_labelNamed (name : String) (c : Code) :
    Retains c.store (c.labelNamed name).2.store := by
  unfold labelNamed
  split
  · exact .refl _
  · exact retains_push _ _

theorem Intact.labelNamed (h : c.Intact) (name : String) : (c.labelNamed name).2.Intact := by
  unfold Code.labelNamed
  split
  · exact h
  · have hn := h.newLabel
    refine ⟨⟨⟨hn.own, hn.made⟩, hn.branches⟩, hn.ranges, fun e he => ?_, hn.once⟩
    rcases Dict.mem_insert he with rfl | he
    · exact c.newLabel_issued
    · exact hn.names e he

theorem Intact.labelNamed_issued (h : c.Intact) (name : String) :
    (c.labelNamed name).1 ∈ (c.labelNamed name).2.issued := by
  unfold Code.labelNamed
  split
  · rename_i l hl
    exact h.names _ (Dict.mem_of_get? hl)
  · exact c.newLabel_issued

/-- A marker or a branch goes in with the label of a name. -/
theorem Intact.pushNamed (h : c.Intact) (name : String) {i : Label → Node}
    (hi : ∀ l, (i l).labels = [l]) :
    ((c.labelNamed name).2.push (i (c.labelNamed name).1)).Intact := by
  refine (h.labelNamed name).push fun l hl => ?_
  rw [hi, List.mem_singleton] at hl
  exact hl ▸ h.labelNamed_issued name

theorem Intact.addHandler (h : c.Intact) {r : Handler} (hr : ∀ l ∈ r.labels, l ∈ c.issued) :
    (c.addHandler r).Intact := by
  refine ⟨⟨⟨h.own, h.made⟩, h.branches⟩, fun q hq => ?_, h.names, h.once⟩
  rw [Code.addHandler, Array.toList_push, List.mem_append, List.mem_singleton] at hq
  rcases hq with hq | rfl
  · exact h.ranges q hq
  · exact hr

theorem Intact.pushAll (h : c.Intact) {nodes : List Node}
    (hn : ∀ i ∈ nodes, ∀ l ∈ i.labels, l ∈ c.issued) : (c.pushAll nodes).Intact := by
  induction nodes generalizing c with
  | nil => exact h
  | cons i nodes ih =>
    rw [List.forall_mem_cons] at hn
    refine ih (h.push hn.1) ?_
    rw [issued_push]
    exact hn.2

/-! ## Copies, bindings and slots -/

/-- Whatever the code was given, its copy is intact. -/
theorem intact_copy (c : Code) : c.copy.Intact := by
  have hnodes : ((withLabels c.numbering.size).pushAll
      (c.toList.map (Insn.mapLabels c.relabel))).Intact := by
    refine (intact_withLabels _).pushAll fun i hi l hl => ?_
    obtain ⟨j, hj, rfl⟩ := List.mem_map.1 hi
    rw [Insn.labels_mapLabels] at hl
    obtain ⟨k, hk, rfl⟩ := List.mem_map.1 hl
    rw [issued_withLabels, List.mem_range]
    apply relabel_lt
    exact List.mem_append_left _ (List.mem_append_left _ (List.mem_flatMap.2 ⟨j, hj, hk⟩))
  refine ⟨⟨⟨hnodes.own, hnodes.made⟩, hnodes.branches⟩, fun r hr l hl => ?_, fun e he => ?_,
    hnodes.once⟩
  · rw [handlers_copy] at hr
    obtain ⟨q, hq, rfl⟩ := List.mem_map.1 hr
    obtain ⟨k, hk, rfl⟩ := List.mem_map.1 (show l ∈ q.labels.map c.relabel from hl)
    apply issued_copy
    exact List.mem_append_left _ (List.mem_append_right _ (List.mem_flatMap.2 ⟨q, hq, hk⟩))
  · have he : e ∈ c.names.map fun e => (e.1, c.relabel e.2) := he
    obtain ⟨d, hd, rfl⟩ := List.mem_map.1 he
    exact issued_copy (List.mem_append_right _ (List.mem_map_of_mem hd))

theorem Intact.bind (h : c.Intact) (pulled : Bool) (b : Binding) : (c.bind pulled b).Intact := by
  obtain ⟨hstore, horder, hhandlers, hnames⟩ := bind_other pulled b c
  have hissued : (c.bind pulled b).issued = c.issued := by rw [issued, hstore]; rfl
  refine ⟨h.toSelfContained.bind pulled b, ?_, ?_, ?_⟩
  · rw [hhandlers, hissued]
    exact h.ranges
  · rw [hnames, hissued]
    exact h.names
  · rw [horder, hissued]
    exact h.once

theorem Intact.mapNodes (h : c.Intact) {f : Node → Node} (hf : KeepsLabels f) :
    (c.mapNodes f).Intact := by
  refine ⟨h.toSelfContained.mapNodes hf, ?_, ?_, ?_⟩
  · exact fun r hr l hl => (mem_issued_mapNodes hf).2 (h.ranges r hr l hl)
  · exact fun e he => (mem_issued_mapNodes hf).2 (h.names e he)
  · exact fun k hk hnew => h.once k hk fun hold => hnew ((mem_issued_mapNodes hf).2 hold)

end

/-! ## Splices -/

/-- A splice puts no node in place twice but markers. -/
theorem Intact.once_splice {host fragment : Code} (h : host.Intact) (hb : fragment.Binds host)
    (index count : Nat) {k : Handle} (hk : k ∈ (host.splice index count fragment).2.order.toList)
    (hnew : k ∉ (host.splice index count fragment).2.issued) :
    (host.splice index count fragment).2.order.toList.count k = 1 := by
  have hs := sound_segment h.own hb index count
  have hold : k ∉ host.issued := fun hold =>
    hnew (mem_issued_of_retains (retains_splice h.toStored hb index count) hold)
  have hhoisted : k ∉ (segment host index count fragment).hoisted (removed host index count) := by
    intro hin
    have hm := (List.mem_filter.1 hin).2
    split at hm
    · rename_i l hl
      obtain ⟨i, hi, hil⟩ := Option.bind_eq_some_iff.1 hl
      rw [eq_label_of_marker? hil] at hi
      cases hs.own k l hi
      exact hnew ((mem_issued hs.own).2 hi)
    · exact Bool.noConfusion hm
  rw [(order_splice index count).mem_iff, List.mem_append, List.mem_append] at hk
  rw [(order_splice index count).count_eq, List.count_append, List.count_append,
    List.count_eq_zero.2 hhoisted]
  by_cases hin : k ∈ (segment host index count fragment).handles
  · -- The node was made for the segment, so the host did not have it.
    have hkept : k ∉ kept host index count := by
      intro hkept
      have hlt := h.made k ((order_perm host index count).mem_iff.2 (List.mem_append_left _ hkept))
      rcases hs.origin k hin with ⟨_, hl⟩ | ⟨hle, _⟩
      · exact hnew ((mem_issued hs.own).2 hl)
      · have hgrown := (settled_adopt h.own fragment).retains.size_le
        exact Nat.not_lt_of_le (Nat.le_trans hgrown hle) hlt
    rw [List.count_eq_zero.2 hkept, hs.once.count, if_pos hin]
  · have hkept : k ∈ kept host index count :=
      hk.resolve_right fun hk => hk.elim hhoisted hin
    have honce := h.once k
      ((order_perm host index count).mem_iff.2 (List.mem_append_left _ hkept)) hold
    rw [(order_perm host index count).count_eq, List.count_append] at honce
    have hpos : 0 < (kept host index count).count k := List.count_pos_iff.2 hkept
    rw [List.count_eq_zero.2 hin]
    omega

theorem Intact.splice {host fragment : Code} (h : host.Intact) (hf : fragment.Intact)
    (hb : fragment.Binds host) (index count : Nat) :
    (host.splice index count fragment).2.Intact := by
  have hretains := retains_splice h.toStored hb index count
  have hkeep : ∀ l ∈ host.issued, l ∈ (host.splice index count fragment).2.issued :=
    fun l => mem_issued_of_retains hretains
  refine ⟨h.toSelfContained.splice hf.toSelfContained hb index count, fun r hr l hl => ?_, ?_,
    fun k hk hnew => h.once_splice hb index count hk hnew⟩
  · have hr : r ∈ fragment.handlers.toList.map (Handler.mapLabels (adopt host fragment).map) ∨
        r ∈ host.handlers.toList := by
      simpa [Code.splice] using hr
    rcases hr with hr | hr
    · obtain ⟨q, hq, rfl⟩ := List.mem_map.1 hr
      obtain ⟨k, hk, rfl⟩ :=
        List.mem_map.1 (show l ∈ q.labels.map (adopt host fragment).map from hl)
      have hstored := stored_map h.own hb (hf.ranges q hq k hk)
      have hown := (h.toSelfContained.splice hf.toSelfContained hb index count).own
      exact (mem_issued hown).2 ((sound_segment h.own hb index count).retains _ _ hstored)
    · exact hkeep l (h.ranges r hr l hl)
  · exact fun e he => hkeep _ (h.names e he)

/-! ## Runs -/

/-- What is done to one list. A name stands for the label that the list has
for it, and gets one if it has none. -/
inductive Op
  | newLabel
  | label (name : String)
  | push (node : Node)
  | mark (name : String)
  | jump (op : Opcode) (name : String)
  | handler (r : Handler)
  | tryCatch (start stop target : String) (caught : Option String)
  | clear
  | bind (pulled : Bool) (b : Binding)
  | bindTemps (slots : Dict UInt16 UInt16)
  /-- As the code of a method. -/
  | renumber (m : Method)

def Op.run (c : Code) : Op → Code
  | .newLabel => c.newLabel.2
  | .label name => (c.labelNamed name).2
  | .push node => c.push node
  | .mark name => c.mark name
  | .jump op name =>
    let (l, c) := c.labelNamed name
    c.push (.jump op l)
  | .handler r => c.addHandler r
  | .tryCatch start stop target caught =>
    let (start, c) := c.labelNamed start
    let (stop, c) := c.labelNamed stop
    let (target, c) := c.labelNamed target
    c.addHandler { start, stop, target, caught }
  | .clear => .empty
  | .bind pulled b => c.bind pulled b
  | .bindTemps slots => c.bindTemps slots
  | .renumber m =>
    match ({ m with code := c } : Method).renumber with
    | .ok m => m.code
    | .error _ => c

/-- The labels that are handed to the list are its own. -/
def Op.Own (c : Code) : Op → Prop
  | .push node => ∀ l ∈ node.labels, l ∈ c.issued
  | .handler r => ∀ l ∈ r.labels, l ∈ c.issued
  | _ => True

/-- One step with some lists at hand, in whatever order: a list is started, edited,
cloned or copied, or it goes into another one, to whose labels it is bound. What a
method does to its code is made of such steps. -/
inductive Step : List Code → List Code → Prop
  | start (cs : List Code) : Step cs (.empty :: cs)
  | edit {cs rest : List Code} {c : Code} (hc : cs.Perm (c :: rest)) (op : Op) (own : op.Own c) :
    Step cs (op.run c :: rest)
  | clone {cs : List Code} {c : Code} (hc : c ∈ cs) : Step cs (c :: cs)
  | copy {cs : List Code} {c : Code} (hc : c ∈ cs) : Step cs (c.copy :: cs)
  | splice {cs rest : List Code} {host fragment : Code}
    (hc : cs.Perm (host :: fragment :: rest)) (hb : fragment.Binds host) (index count : Nat) :
    Step cs ((host.splice index count fragment).2 :: rest)

theorem Intact.run {c : Code} (h : c.Intact) {op : Op} (own : op.Own c) : (op.run c).Intact := by
  cases op with
  | newLabel => exact h.newLabel
  | label name => exact h.labelNamed name
  | push node => exact h.push own
  | mark name => exact h.pushNamed name (i := .label) fun _ => rfl
  | jump op name => exact h.pushNamed name (i := .jump op) fun _ => rfl
  | handler r => exact h.addHandler own
  | tryCatch start stop target caught =>
    have hstart := h.labelNamed start
    have hstop := hstart.labelNamed stop
    refine (hstop.labelNamed target).addHandler ?_
    simp only [Handler.labels, List.forall_mem_cons]
    refine ⟨?_, ?_, hstop.labelNamed_issued target, by simp⟩
    · apply mem_issued_of_retains (retains_labelNamed target _)
      exact mem_issued_of_retains (retains_labelNamed stop _) (h.labelNamed_issued start)
    · exact mem_issued_of_retains (retains_labelNamed target _) (hstart.labelNamed_issued stop)
  | clear => exact intact_empty
  | bind pulled b => exact h.bind pulled b
  | bindTemps slots => exact h.mapNodes (keepsLabels_mapLocal _)
  | renumber m =>
    cases hr : ({ m with code := c } : Method).renumber with
    | ok m' =>
      simp only [Op.run, hr]
      obtain ⟨n, -, rfl⟩ := Method.renumber_ok hr
      exact h.mapNodes (Method.keepsLabels_move _)
    | error f =>
      simp only [Op.run, hr]
      exact h

/-- One step leaves all lists intact. -/
theorem Step.intact {cs ds : List Code} (h : Step cs ds) (hcs : ∀ c ∈ cs, c.Intact) :
    ∀ d ∈ ds, d.Intact := by
  cases h with
  | start => exact List.forall_mem_cons.2 ⟨intact_empty, hcs⟩
  | edit hc op own =>
    obtain ⟨hc, hrest⟩ := List.forall_mem_cons.1 fun d hd => hcs d (hc.mem_iff.2 hd)
    exact List.forall_mem_cons.2 ⟨hc.run own, hrest⟩
  | clone hc => exact List.forall_mem_cons.2 ⟨hcs _ hc, hcs⟩
  | copy hc => exact List.forall_mem_cons.2 ⟨intact_copy _, hcs⟩
  | splice hc hb index count =>
    obtain ⟨hhost, hrest⟩ := List.forall_mem_cons.1 fun d hd => hcs d (hc.mem_iff.2 hd)
    obtain ⟨hfragment, hrest⟩ := List.forall_mem_cons.1 hrest
    exact List.forall_mem_cons.2 ⟨hhost.splice hfragment hb index count, hrest⟩

/-- However lists came about, all of them are intact. -/
theorem intact_of_steps {cs : List Code} (h : Relation.ReflTransGen Step [] cs) :
    ∀ c ∈ cs, c.Intact := by
  induction h with
  | refl => exact fun _ hc => nomatch hc
  | tail _ step ih => exact step.intact ih

/-- Whatever lists come about by being built, copied, bound, renumbered and spliced,
they are intact. So no store is ever asked for what it does not have, neither while a list is
read or changed nor in a splice. -/
theorem every_list_stays_intact {cs : List Code} (h : Relation.ReflTransGen Step [] cs) :
    ∀ c ∈ cs, c.Intact ∧ c.Served ∧
      ∀ fragment ∈ cs, fragment.Binds c → ∀ index count,
        c.splice? index count fragment = some (c.splice index count fragment) := by
  intro c hc
  have hintact := intact_of_steps h
  have hstored : c.Stored := (hintact c hc).toStored
  exact ⟨hintact c hc, served_of_stored hstored,
    fun fragment hf hb => splice?_of_stored hstored (hintact fragment hf).toStored hb⟩

/-- A loop. -/
def looping : Code := (Code.empty.mark "top").push (.jump .GOTO 0)

/-- The loop inside itself: the copy's label is the host's, whose marker moves with it. -/
def relooped : Code := (looping.splice 0 1 (looping.copy.bind true ⟨[("top", 0)], []⟩)).2

theorem relooped_is_intact :
    Relation.ReflTransGen Step [] [relooped] ∧ relooped.Intact ∧ relooped.Served := by
  have hbinds : (looping.copy.bind true ⟨[("top", 0)], []⟩).Binds looping :=
    binds_bind fun e he => by cases List.mem_singleton.1 he; decide
  have hown : ∀ l ∈ [0], l ∈ (Code.empty.mark "top").issued := by decide
  have hbuilt : Relation.ReflTransGen Step [] [looping] :=
    .tail (.tail (.single (.start [])) (.edit (.refl _) (.mark "top") trivial))
      (.edit (.refl _) (.push (.jump .GOTO 0)) hown)
  have hcopied := hbuilt.tail (.copy (List.mem_singleton_self looping))
  have hbound := hcopied.tail (.edit (.refl _) (.bind true ⟨[("top", 0)], []⟩) trivial)
  have hsteps : Relation.ReflTransGen Step [] [relooped] :=
    hbound.tail (.splice (.swap ..) hbinds 0 1)
  obtain ⟨hintact, hserved, -⟩ :=
    every_list_stays_intact hsteps relooped (List.mem_singleton_self relooped)
  exact ⟨hsteps, hintact, hserved⟩

end Code

end ClassPatch
