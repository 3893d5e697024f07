-- What writing a class can be blamed on. Each part of a container has its
-- own reasons to fail; a class fails for those of its parts and no others.
-- How the pool answers is left open: one supply of entries lets every part
-- be written, whatever its own faults are.
import ClassPatch.Proofs.Contents
import ClassPatch.Proofs.Writing

namespace ClassPatch

/-! ## Computations and their faults -/

/-- The computation gives a result that `p` allows or fails for a fault that
`q` allows. -/
def Yields {α : Type} (q : Fault → Prop) (x : Except Fault α) (p : α → Prop) : Prop :=
  match x with
  | .ok a => p a
  | .error f => q f

namespace Yields
variable {α β : Type} {q : Fault → Prop}

theorem mono {q' : Fault → Prop} {x : Except Fault α} {p : α → Prop} (h : Yields q x p)
    (hq : ∀ f, q f → q' f) : Yields q' x p := by
  cases x with
  | ok a => exact h
  | error f => exact hq f h

theorem fault {x : Except Fault α} {p : α → Prop} {f : Fault} (h : Yields q x p)
    (hx : x = .error f) : q f := by
  rw [hx] at h
  exact h

theorem bind {x : Except Fault α} {f : α → Except Fault β} {p : α → Prop} {r : β → Prop}
    (hx : Yields q x p) (hf : ∀ a, p a → Yields q (f a) r) : Yields q (x >>= f) r := by
  cases x with
  | ok a => exact hf a hx
  | error f => exact hx

theorem forM {f : α → Except Fault Unit} {xs : List α}
    (h : ∀ x ∈ xs, Yields q (f x) fun _ => True) : Yields q (xs.forM f) fun _ => True := by
  induction xs with
  | nil => trivial
  | cons x xs ih =>
    refine bind (h x (List.mem_cons_self ..)) fun _ _ => ?_
    exact ih fun y hy => h y (List.mem_cons_of_mem _ hy)

theorem foldlM {f : β → α → Except Fault β} (h : ∀ b x, Yields q (f b x) fun _ => True)
    (xs : List α) (b : β) : Yields q (xs.foldlM f b) fun _ => True := by
  induction xs generalizing b with
  | nil => trivial
  | cons x xs ih =>
    rw [List.foldlM_cons]
    exact bind (h b x) fun b _ => ih b

end Yields

/-- A width is refused only where the descriptor does not parse. -/
theorem yields_fieldWidth {q : Fault → Prop} {desc : String}
    (h : Descriptor.fieldWidth? desc = none → q (.invalidDescriptor desc)) :
    Yields q (fieldWidth desc) fun _ => True := by
  unfold fieldWidth
  cases hw : Descriptor.fieldWidth? desc with
  | some w => trivial
  | none => exact h hw

theorem yields_methodShape {q : Fault → Prop} {desc : String}
    (h : Descriptor.methodShape? desc = none → q (.invalidDescriptor desc)) :
    Yields q (methodShape desc) fun _ => True := by
  unfold methodShape
  cases hs : Descriptor.methodShape? desc with
  | some shape => trivial
  | none => exact h hs

/-- The computation keeps the invariant of the pool and gives a result that
`p` allows, or fails for a fault that `q` allows. -/
def Builder.Yields {α : Type} (inv : PoolBuilder → Prop) (q : Fault → Prop) (x : Builder α)
    (p : α → Prop) : Prop :=
  ∀ b, inv b → ClassPatch.Yields q (x b) fun r => inv r.2 ∧ p r.1

namespace Builder.Yields
variable {α β : Type} {inv : PoolBuilder → Prop} {q : Fault → Prop}

theorem pure {a : α} {p : α → Prop} (h : p a) : Builder.Yields inv q (pure a) p :=
  fun _ hb => ⟨hb, h⟩

theorem lift {x : Except Fault α} {p : α → Prop} (h : ClassPatch.Yields q x p) :
    Builder.Yields inv q (liftM x) p :=
  fun _ hb => ClassPatch.Yields.bind h fun _ ha => ⟨hb, ha⟩

theorem bind {x : Builder α} {f : α → Builder β} {p : α → Prop} {r : β → Prop}
    (hx : Builder.Yields inv q x p) (hf : ∀ a, p a → Builder.Yields inv q (f a) r) :
    Builder.Yields inv q (x >>= f) r :=
  fun b hb => ClassPatch.Yields.bind (hx b hb) fun a ha => hf a.1 ha.2 a.2 ha.1

theorem mapM {f : α → Builder β} {p : α → β → Prop} {xs : List α}
    (h : ∀ x ∈ xs, Builder.Yields inv q (f x) (p x)) :
    Builder.Yields inv q (xs.mapM f) fun ys => List.Forall₂ p xs ys := by
  induction xs with
  | nil => exact pure .nil
  | cons x xs ih =>
    rw [List.mapM_cons]
    refine bind (h x (List.mem_cons_self ..)) fun y hy => ?_
    refine bind (ih fun z hz => h z (List.mem_cons_of_mem _ hz)) fun ys hys => ?_
    exact pure (.cons hy hys)

theorem forM {f : α → Builder Unit} {xs : List α}
    (h : ∀ x ∈ xs, Builder.Yields inv q (f x) fun _ => True) :
    Builder.Yields inv q (xs.forM f) fun _ => True := by
  induction xs with
  | nil => exact pure trivial
  | cons x xs ih =>
    refine bind (h x (List.mem_cons_self ..)) fun _ _ => ?_
    exact ih fun y hy => h y (List.mem_cons_of_mem _ hy)

end Builder.Yields

/-! ## Layouts -/

/-- What a class may be refused for whatever its pool is: two members that
are the same, a branch that leads too far, or code that is too long. -/
def Fault.isInherent : Fault → Bool
  | duplicateMember .. | branchOutOfRange .. | codeTooLarge .. => true
  | _ => false

namespace Layout

theorem yields_growing (l : Layout) (index : Std.HashMap Label Nat) (items : List Item) :
    Yields (·.isInherent) (l.growing index items) fun _ => True := by
  refine Yields.foldlM (fun found e => ?_) _ _
  refine Yields.bind (p := fun _ => True) ?_ fun wide _ => ?_
  · unfold widens
    split
    · dsimp only
      split
      · trivial
      · split
        · trivial
        · exact rfl
    · trivial
  · split <;> trivial

/-- Every round that goes on makes a jump wide, and there are as many rounds
as there can be narrow ones. -/
theorem yields_settle {items : List Item} {wide : Std.HashSet Nat} {w : Nat → Bool}
    (signature : String) {rounds : Nat} (h : Agrees items wide.contains w)
    (hr : narrow (realItems items) w < rounds) :
    Yields (·.isInherent) (settle signature (markerIndex (items.map (·.node))) items rounds wide)
      fun _ => True := by
  induction rounds generalizing wide w with
  | zero => exact absurd hr (Nat.not_lt_zero _)
  | succ rounds ih =>
    have hgrowing := yields_growing (place wide items) (markerIndex (items.map (·.node))) items
    unfold settle
    dsimp only
    split
    · exact rfl
    · rename_i hsize
      change Yields _ ((growing _ _ items).bind _) _
      cases hg : (place wide items).growing (markerIndex (items.map (·.node))) items with
      | error f =>
        rw [hg] at hgrowing
        exact hgrowing
      | ok grown =>
        obtain ⟨_, hnext, hnil⟩ := round_ok h (Nat.not_lt.1 hsize) hg
        cases grown with
        | nil => trivial
        | cons i grown =>
          have hlt := narrow_widened fun hw => by cases hnil.2 hw
          exact ih hnext (Nat.lt_of_lt_of_le hlt (Nat.le_of_lt_succ hr))

/-- The rounds always suffice. -/
theorem yields_layOut (signature : String) (items : List Item) :
    Yields (·.isInherent) (layOut signature (markerIndex (items.map (·.node))) items)
      fun _ => True :=
  yields_settle signature (Method.agrees_start items) (Method.narrow_lt items _)

end Layout

/-! ## Labels and tables -/

namespace Method

/-- Labels that are marked make the check of labels pass. -/
theorem checkLabels_of_linked {m : Method} (h : m.Linked) :
    m.checkLabels (markerIndex m.code.toList) = .ok () := by
  have hmark : ∀ l ∈ markers m.code.toList,
      requireMarker (markerIndex m.code.toList) l = .ok () := by
    intro l hl
    unfold requireMarker
    rw [if_pos (mem_markerIndex.2 hl)]
  have hnodes : m.code.toList.forM (checkNode (markerIndex m.code.toList)) = .ok () := by
    refine forM_ok.2 fun i hi => ?_
    unfold checkNode
    split
    · rename_i t w ht
      exact absurd ht (h.code.slots i hi t w)
    · exact forM_ok.2 fun l hl => hmark l (h.code.branches i hi l hl)
  have hranges : (m.code.handlers.toList.forM fun r =>
      r.labels.forM (requireMarker (markerIndex m.code.toList))) = .ok () :=
    forM_ok.2 fun r hr => forM_ok.2 fun l hl => hmark l (h.code.ranges r hr l hl)
  have hlocals : (m.locals.forM fun v =>
      [v.start, v.stop].forM (requireMarker (markerIndex m.code.toList))) = .ok () := by
    refine forM_ok.2 fun v hv => forM_ok.2 fun l hl => hmark l ?_
    have := h.locals v hv
    rcases List.mem_cons.1 hl with rfl | hl
    · exact this.1
    · exact List.mem_singleton.1 hl ▸ this.2
  unfold checkLabels
  change (m.code.toList.forM (checkNode _)).bind (fun _ => Except.bind _ fun _ => _) = _
  rw [hnodes]
  dsimp only [Except.bind]
  rw [hranges]
  exact hlocals

theorem map_node_of_forall₂ {nodes : List Node} {items : List Item}
    (h : List.Forall₂ (fun i item => item.node = i) nodes items) : items.map (·.node) = nodes := by
  induction h with
  | nil => rfl
  | cons hi _ ih => rw [List.map_cons, hi, ih]

theorem length_flatten_le {α β : Type} {xs : List α} {outs : List (List β)}
    (h : List.Forall₂ (fun _ out => out.length ≤ 1) xs outs) :
    outs.flatten.length ≤ xs.length := by
  induction h with
  | nil => exact Nat.le_refl _
  | cons h _ ih =>
    rw [List.flatten_cons, List.length_append, List.length_cons]
    omega

theorem length_filterMap_lines_le {α : Type} {f : Node × Nat → Option α}
    (hf : ∀ e a, f e = some a → ∃ n, e.1 = .line n) (nodes : List Node) (k r : Nat) :
    ((nodes.zipIdx k).filterMap f).length ≤ (lineMarks r nodes).length := by
  induction nodes generalizing k r with
  | nil => exact Nat.le_refl _
  | cons i nodes ih =>
    have := ih (k + 1) (r + if i.isReal then 1 else 0)
    rw [List.zipIdx_cons, List.filterMap_cons, lineMarks_cons, List.length_append]
    cases hi : f (i, k) with
    | none =>
      dsimp only
      omega
    | some a =>
      obtain ⟨n, rfl⟩ := hf _ _ hi
      simp only [List.length_cons, List.length_nil]
      omega

/-- A method has no more entries in its table of lines than it has lines. -/
theorem length_lineBytes_le (l : Layout) (nodes : List Node) :
    (lineBytes l nodes).length ≤ (lineMarks 0 nodes).length := by
  refine length_filterMap_lines_le (fun e a h => ?_) nodes 0 0
  split at h
  · exact ⟨_, ‹_›⟩
  · cases h

end Method

theorem Class.yields_checkUnique (members : List (String × String)) :
    Yields (·.isInherent) (Class.checkUnique members) fun _ => True := by
  refine Yields.bind (Yields.foldlM (fun seen m => ?_) _ _) fun _ _ => trivial
  split
  · exact rfl
  · trivial

/-! ## What the parts of a class ask for -/

/-- Contents of the pool that a field asks for. -/
structure Field.Asks (held : Content → Prop) (f : Field) : Prop where
  name : held (.utf8 f.name)
  desc : held (.utf8 f.desc)
  value : ∀ v, f.value = some v → held (.loadable v)

/-- Contents of the pool and counts that a method asks for. -/
structure Method.Asks (held : Content → Prop) (few : Nat → Prop) (m : Method) : Prop where
  name : held (.utf8 m.name)
  desc : held (.utf8 m.desc)
  exceptions : ∀ e ∈ m.exceptions, held (.loadable (.classRef e))
  nodes : ∀ i ∈ m.code.toList, ∀ c, i.content? = some c → held c
  caught : ∀ h ∈ m.code.handlers.toList, ∀ e, h.caught = some e → held (.loadable (.classRef e))
  locals : ∀ v ∈ m.locals, held (.utf8 v.name) ∧ held (.utf8 v.desc)
  fewExceptions : few m.exceptions.length
  fewHandlers : few m.code.handlers.toList.length
  fewLocals : few m.locals.length
  fewLines : few (lineMarks 0 m.code.toList).length

/-- Contents of the pool and counts that a class asks for. -/
structure Class.Asks (held : Content → Prop) (few : Nat → Prop) (c : Class) : Prop where
  name : held (.loadable (.classRef c.name))
  superName : ∀ s, c.superName = some s → held (.loadable (.classRef s))
  interfaces : ∀ s ∈ c.interfaces, held (.loadable (.classRef s))
  fields : ∀ f ∈ c.fields, f.Asks held
  methods : ∀ m ∈ c.methods, m.Asks held few
  fewInterfaces : few c.interfaces.length
  fewFields : few c.fields.length
  fewMethods : few c.methods.length

/-- What is asked for is there, or its want is one of the faults allowed. -/
structure Supply (inv : PoolBuilder → Prop) (q : Fault → Prop) (held : Content → Prop)
    (few : Nat → Prop) : Prop where
  utf8 : ∀ s, held (.utf8 s) → Builder.Yields inv q (PoolBuilder.utf8 s) fun _ => True
  constant : ∀ v, held (.loadable v) →
    Builder.Yields inv q (PoolBuilder.constant v) fun _ => True
  field : ∀ m, held (.field m) → Builder.Yields inv q (PoolBuilder.field m) fun _ => True
  method : ∀ m, held (.method m) → Builder.Yields inv q (PoolBuilder.method m) fun _ => True
  count : ∀ n k what, few n → k ≤ n → Yields q (countBytes k what) fun _ => True
  inherent : ∀ f : Fault, f.isInherent → q f

section
open Builder.Yields

variable {inv : PoolBuilder → Prop} {q : Fault → Prop} {held : Content → Prop} {few : Nat → Prop}
  (hs : Supply inv q held few)
include hs

/-! ## Pool entries and counts -/

theorem Supply.className {name : String} (h : held (.loadable (.classRef name))) :
    Builder.Yields inv q (PoolBuilder.className name) fun _ => True :=
  hs.constant (.classRef name) h

theorem Supply.className? {name : Option String}
    (h : ∀ s, name = some s → held (.loadable (.classRef s))) :
    Builder.Yields inv q (PoolBuilder.className? name) fun _ => True := by
  cases name with
  | none => exact pure trivial
  | some name => exact hs.className (h name rfl)

theorem Supply.table {what : String} {n : Nat} {entries : List (List UInt8)} (hn : few n)
    (hle : entries.length ≤ n) : Yields q (Method.tableBytes what entries) fun _ => True :=
  Yields.bind (hs.count n _ what hn hle) fun _ _ => trivial

/-! ## Fields -/

theorem Field.yields_encode {f : Field} (h : f.Asks held) :
    Builder.Yields inv q f.encode fun _ => True := by
  unfold Field.encode
  refine bind (hs.utf8 _ h.name) fun _ _ => bind (hs.utf8 _ h.desc) fun _ _ => ?_
  dsimp only
  split
  · rename_i v hv
    exact bind (hs.constant v (h.value v hv)) fun _ _ => pure trivial
  · exact pure trivial

/-! ## Methods -/

namespace Method

theorem yields_itemOf {i : Node} (h : ∀ c, i.content? = some c → held c) :
    Builder.Yields inv q (itemOf i) fun item => item.node = i := by
  refine bind (p := fun _ => True) ?_ fun _ _ => pure rfl
  cases i with
  | ldc v => exact hs.constant v (h _ rfl)
  | field op m => exact hs.field m (h _ rfl)
  | method op m => exact hs.method m (h _ rfl)
  | type op name => exact hs.className (h _ rfl)
  | _ => exact pure trivial

theorem yields_handlerBytes (place : Label → Nat) {h : Handler}
    (hc : ∀ e, h.caught = some e → held (.loadable (.classRef e))) :
    Builder.Yields inv q (handlerBytes place h) fun out => out.length ≤ 1 := by
  unfold handlerBytes
  split
  · exact pure (Nat.zero_le _)
  · exact bind (hs.className? hc) fun _ _ => pure (Nat.le_refl _)

theorem yields_localBytes (place : Label → Nat) {v : LocalVar}
    (hv : held (.utf8 v.name) ∧ held (.utf8 v.desc)) :
    Builder.Yields inv q (localBytes place v) fun out => out.length ≤ 1 := by
  unfold localBytes
  split
  · exact pure (Nat.zero_le _)
  · refine bind (hs.utf8 _ hv.1) fun _ _ => bind (hs.utf8 _ hv.2) fun _ _ => ?_
    exact pure (Nat.le_refl _)

theorem yields_encodeBody {m : Method} (hl : m.Linked) (h : m.Asks held few)
    (hc : ∀ i ∈ m.code.toList, Yields q (Instruction.check i) fun _ => True) :
    Builder.Yields inv q m.encodeBody fun _ => True := by
  unfold encodeBody
  refine bind (lift (p := fun _ => True) ?_) fun _ _ => ?_
  · rw [checkLabels_of_linked hl]
    trivial
  refine bind (mapM fun i hi => yields_itemOf hs (h.nodes i hi)) fun items hitems => ?_
  have hnodes := map_node_of_forall₂ hitems
  refine bind (lift (p := fun _ => True) ?_) fun l _ => ?_
  · have := (Layout.yields_layOut m.signature items).mono hs.inherent
    rwa [hnodes] at this
  refine bind (forM fun i hi => lift (hc i hi)) fun _ _ => ?_
  refine bind (mapM fun r hr => yields_handlerBytes hs _ (h.caught r hr)) fun handlers hr => ?_
  refine bind (lift (hs.table h.fewHandlers (length_flatten_le hr))) fun _ _ => ?_
  refine bind (mapM fun v hv => yields_localBytes hs _ (h.locals v hv)) fun locals hv => ?_
  refine bind (lift (hs.table h.fewLocals (length_flatten_le hv))) fun _ _ => ?_
  exact bind (lift (hs.table h.fewLines (length_lineBytes_le l _))) fun _ _ => pure trivial

theorem yields_encode {m : Method} (hl : m.Linked) (h : m.Asks held few)
    (hc : ∀ i ∈ m.code.toList, Yields q (Instruction.check i) fun _ => True) :
    Builder.Yields inv q m.encode fun _ => True := by
  unfold Method.encode
  refine bind (hs.utf8 _ h.name) fun _ _ => bind (hs.utf8 _ h.desc) fun _ _ => ?_
  refine bind (lift (hs.count _ _ _ h.fewExceptions (Nat.le_refl _))) fun _ _ => ?_
  refine bind (mapM fun e he => hs.className (h.exceptions e he)) fun _ _ => ?_
  dsimp only
  split
  · exact pure trivial
  · exact bind (yields_encodeBody hs hl h hc) fun _ _ => pure trivial

end Method

/-! ## Classes -/

namespace Class

theorem yields_encodeBody {c : Class} (hl : ∀ m ∈ c.methods, m.Linked) (h : c.Asks held few)
    (hc : ∀ m ∈ c.methods, ∀ i ∈ m.code.toList, Yields q (Instruction.check i) fun _ => True) :
    Builder.Yields inv q c.encodeBody fun _ => True := by
  unfold encodeBody
  refine bind (hs.className h.name) fun _ _ => bind (hs.className? h.superName) fun _ _ => ?_
  refine bind (lift (hs.count _ _ _ h.fewInterfaces (Nat.le_refl _))) fun _ _ => ?_
  refine bind (mapM fun s hi => hs.className (h.interfaces s hi)) fun _ _ => ?_
  refine bind (lift (hs.count _ _ _ h.fewFields (Nat.le_refl _))) fun _ _ => ?_
  refine bind (mapM fun f hf => f.yields_encode hs (h.fields f hf)) fun _ _ => ?_
  refine bind (lift (hs.count _ _ _ h.fewMethods (Nat.le_refl _))) fun _ _ => ?_
  exact bind (mapM fun m hm => Method.yields_encode hs (hl m hm) (h.methods m hm) (hc m hm))
    fun _ _ => pure trivial

/-- A class is written, or refused for one of the faults that its parts may have. -/
theorem yields_encode {c : Class} (hinv : inv {}) (hl : ∀ m ∈ c.methods, m.Linked)
    (h : c.Asks held few)
    (hc : ∀ m ∈ c.methods, ∀ i ∈ m.code.toList, Yields q (Instruction.check i) fun _ => True) :
    Yields q c.encode fun _ => True := by
  unfold encode
  refine Yields.bind ((yields_checkUnique _).mono hs.inherent) fun _ _ => ?_
  refine Yields.bind ((yields_checkUnique _).mono hs.inherent) fun _ _ => ?_
  exact Yields.bind (yields_encodeBody hs hl h hc {} hinv) fun _ _ => trivial

end Class

end

end ClassPatch
