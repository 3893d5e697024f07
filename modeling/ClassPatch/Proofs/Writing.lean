-- What is written for the code of a method is a matter of its outline: the
-- pool entries, the layout and the tables name real instructions only.
import ClassPatch.Proofs.Placing
import ClassPatch.Proofs.Bodies

namespace ClassPatch

/-! ## Computations that build -/

namespace PoolBuilder
variable {α β : Type}

theorem bind_ok {x : Builder α} {f : α → Builder β} {b b' : PoolBuilder} {c : β} :
    (x >>= f) b = .ok (c, b') ↔ ∃ a b₁, x b = .ok (a, b₁) ∧ f a b₁ = .ok (c, b') := by
  change (x b).bind (fun r => f r.1 r.2) = _ ↔ _
  rw [bind_eq_ok, Prod.exists]

theorem bind_of_ok {x : Builder α} {f : α → Builder β} {a : α}
    {b b' : PoolBuilder} (h : x b = .ok (a, b')) : (x >>= f) b = f a b' := by
  change (x b).bind _ = _
  rw [h]
  rfl

theorem lift_ok {x : Except Fault α} {b b' : PoolBuilder} {a : α} :
    (liftM x : Builder α) b = .ok (a, b') ↔ x = .ok a ∧ b' = b := by
  cases x with
  | error e => exact ⟨nofun, fun h => nomatch h.1⟩
  | ok c => exact ⟨by rintro ⟨⟩; exact ⟨rfl, rfl⟩, by rintro ⟨⟨⟩, rfl⟩; rfl⟩

theorem pure_eq (a : α) (b : PoolBuilder) : (StateT.pure a : Builder α) b = .ok (a, b) := rfl

theorem pure_ok {a c : α} {b b' : PoolBuilder} :
    (pure a : Builder α) b = .ok (c, b') ↔ c = a ∧ b' = b :=
  ⟨by rintro ⟨⟩; exact ⟨rfl, rfl⟩, by rintro ⟨rfl, rfl⟩; rfl⟩

/-- Checks of a list change no pool. -/
theorem forM_lift_ok {f : α → Except Fault Unit} {xs : List α} {b b' : PoolBuilder} :
    (xs.forM fun x => (liftM (f x) : Builder Unit)) b = .ok ((), b') ↔
      (∀ x ∈ xs, f x = .ok ()) ∧ b' = b := by
  induction xs with
  | nil => exact pure_ok.trans ⟨fun h => ⟨nofun, h.2⟩, fun h => ⟨rfl, h.2⟩⟩
  | cons x xs ih =>
    rw [List.forall_mem_cons]
    change ((liftM (f x) : Builder Unit) >>= fun _ => xs.forM _) b = _ ↔ _
    rw [bind_ok]
    constructor
    · rintro ⟨_, _, h, hrest⟩
      obtain ⟨hx, rfl⟩ := lift_ok.1 h
      obtain ⟨hxs, rfl⟩ := ih.1 hrest
      exact ⟨⟨hx, hxs⟩, rfl⟩
    · rintro ⟨⟨hx, hxs⟩, rfl⟩
      exact ⟨(), _, lift_ok.2 ⟨hx, rfl⟩, ih.2 ⟨hxs, rfl⟩⟩

/-- What gives nothing can as well be left out. -/
theorem mapM_filter_flatten {γ : Type} {f : α → Builder (List β)} {p : α → Bool} {xs : List α}
    (h : ∀ x ∈ xs, p x = false → f x = pure []) (k : List β → Builder γ) :
    ((xs.filter p).mapM f >>= fun ys => k ys.flatten) = xs.mapM f >>= fun ys => k ys.flatten := by
  induction xs generalizing k with
  | nil => rfl
  | cons x xs ih =>
    have ih := ih fun y hy => h y (List.mem_cons_of_mem _ hy)
    rw [List.filter_cons]
    split
    · simp only [List.mapM_cons, bind_assoc, pure_bind, List.flatten_cons]
      exact congrArg _ (funext fun y => ih fun ys => k (y ++ ys))
    · rename_i hp
      rw [ih, List.mapM_cons, h x (List.mem_cons_self ..) (Bool.eq_false_iff.2 hp)]
      simp only [bind_assoc, pure_bind, List.flatten_cons, List.nil_append]

end PoolBuilder

/-! ## Items -/

namespace Layout

/-- The items with their nodes changed. -/
def mapNodes (f : Node → Node) (items : List Item) : List Item :=
  items.map fun item => { item with node := f item.node }

end Layout

namespace Method
open Layout

theorem operandOf_mapLabels (f : Label → Label) (i : Node) :
    operandOf (i.mapLabels f) = operandOf i := by
  cases i <;> rfl

theorem mapM_itemOf_real (f : Label → Label) (nodes : List Node) :
    ((realNodes nodes).map (Insn.mapLabels f)).mapM itemOf = reals f <$> nodes.mapM itemOf := by
  induction nodes with
  | nil => rfl
  | cons i nodes ih =>
    unfold realNodes at ih ⊢
    rw [List.filter_cons]
    split
    · rename_i hr
      simp only [List.map_cons, List.mapM_cons, ih, itemOf, operandOf_mapLabels, bind_assoc,
        pure_bind, map_eq_pure_bind, reals_cons, hr, if_true, List.singleton_append]
    · rename_i hr
      have hop : operandOf i = pure 0 := by
        unfold Insn.isReal at hr
        cases hn : i <;> rw [hn] at hr <;> first | rfl | exact absurd rfl hr
      simp only [ih, List.mapM_cons, itemOf, hop, bind_assoc, pure_bind, map_eq_pure_bind,
        reals_cons, hr, Bool.false_eq_true, if_false, List.nil_append]

/-- The items of nodes that ask for what they asked for before. -/
theorem mapM_itemOf_map {f : Node → Node} (hf : ∀ i, operandOf (f i) = operandOf i)
    (nodes : List Node) : (nodes.map f).mapM itemOf = mapNodes f <$> nodes.mapM itemOf := by
  induction nodes with
  | nil => rfl
  | cons i nodes ih =>
    simp only [List.map_cons, List.mapM_cons, ih, itemOf, hf, bind_assoc, pure_bind,
      map_eq_pure_bind]
    rfl

theorem node_of_mapM_itemOf {nodes : List Node} {items : List Item} {b b' : PoolBuilder}
    (h : nodes.mapM itemOf b = .ok (items, b')) : items.map (·.node) = nodes := by
  induction nodes generalizing items b b' with
  | nil =>
    rw [List.mapM_nil] at h
    rw [(PoolBuilder.pure_ok.1 h).1]
    rfl
  | cons i nodes ih =>
    rw [List.mapM_cons] at h
    obtain ⟨item, b₁, hi, h⟩ := PoolBuilder.bind_ok.1 h
    obtain ⟨rest, b₂, hrest, h⟩ := PoolBuilder.bind_ok.1 h
    obtain ⟨op, b₃, _, hi⟩ := PoolBuilder.bind_ok.1 hi
    rw [(PoolBuilder.pure_ok.1 h).1, (PoolBuilder.pure_ok.1 hi).1, List.map_cons, ih hrest]

/-! ## Bytes of the layout -/

/-- Items that give nothing can be left out, and the others counted anew. -/
theorem flatMap_reals {f : Label → Label} {items : List Item} {g g' : Item × Nat → List UInt8}
    {k r : Nat} (hpseudo : ∀ item i, ¬item.node.isReal → g (item, i) = [])
    (hreal : ∀ i item, items[i]? = some item → item.node.isReal → g (item, k + i) =
      g' ({ item with node := item.node.mapLabels f }, r + realBefore (items.map (·.node)) i)) :
    (items.zipIdx k).flatMap g = ((reals f items).zipIdx r).flatMap g' := by
  induction items generalizing k r with
  | nil => rfl
  | cons item items ih =>
    have htail := ih (k := k + 1) (r := r + if item.node.isReal then 1 else 0) fun i it hi hr => by
      have := hreal (i + 1) it hi hr
      rw [List.map_cons, realBefore_cons_succ] at this
      rw [show k + 1 + i = k + (i + 1) by omega, this]
      congr 2
      omega
    rw [List.zipIdx_cons, List.flatMap_cons, htail, reals_cons]
    by_cases hr : item.node.isReal
    · have hhead := hreal 0 item rfl hr
      rw [if_pos hr, if_pos hr, List.singleton_append, List.zipIdx_cons, List.flatMap_cons]
      exact congrArg (· ++ _) hhead
    · rw [if_neg hr, if_neg hr, hpseudo _ _ hr]
      rfl

theorem filterMap_lineMarks {β : Type} {nodes : List Node} {g q : Nat → UInt16 → Option β}
    {k r : Nat} (h : ∀ i ≤ nodes.length, g (k + i) = q (r + realBefore nodes i)) :
    (nodes.zipIdx k).filterMap (fun e => match e.1 with | .line n => g e.2 n | _ => none) =
      (lineMarks r nodes).filterMap fun l => q l.1 l.2 := by
  induction nodes generalizing k r with
  | nil => rfl
  | cons i nodes ih =>
    have htail := ih (k := k + 1) (r := r + if i.isReal then 1 else 0) fun j hj => by
      have := h (j + 1) (Nat.succ_le_succ hj)
      rw [realBefore_cons_succ] at this
      rw [show k + 1 + j = k + (j + 1) by omega, this]
      congr 1
      omega
    have hhead : g k = q r := h 0 (Nat.zero_le _)
    rw [List.zipIdx_cons, lineMarks_cons, List.filterMap_append, ← htail, List.filterMap_cons]
    cases i with
    | line n =>
      dsimp only
      rw [hhead, List.filterMap_cons, List.filterMap_nil]
      cases q r n <;> rfl
    | _ => rfl

end Method

/-! ## Outlines -/

namespace Outline
open Layout

/-- The bytes of all instructions. -/
def codeBytes (wide : Nat → Bool) (items : List Item) : List UInt8 :=
  items.zipIdx.flatMap fun e =>
    Instruction.bytes (stop wide items e.2) e.1.operand (wide e.2)
      (e.1.node.mapLabels fun r => (stop wide items r : Int))

/-- The line numbers with their positions; those at the end of the code are left out. -/
def lineBytes (wide : Nat → Bool) (items : List Item) (lines : List (Nat × UInt16)) :
    List (List UInt8) :=
  lines.filterMap fun l =>
    if stop wide items l.1 < stop wide items items.length then
      some (bytesOf 2 (stop wide items l.1) ++ wordBytes l.2)
    else none

/-- The code and the tables, after the limits. -/
def finish (o : Outline) (wide : Nat → Bool) (items : List Item) : Builder (List UInt8) := do
  let handlers ← o.handlers.mapM (Method.handlerBytes (stop wide items))
  let handlers ← Method.tableBytes "handlers" handlers.flatten
  let locals ← o.locals.mapM (Method.localBytes (stop wide items))
  let locals ← Method.tableBytes "local variables" locals.flatten
  let lines ← Method.tableBytes "line numbers" (lineBytes wide items o.lines)
  return bytesOf 4 (stop wide items items.length) ++ codeBytes wide items ++ handlers ++ locals
    ++ lines

/-- What is written for an outline, and the pool before and after. -/
def Writes (o : Outline) (b b' : PoolBuilder) (bytes : List UInt8) : Prop :=
  ∃ items b₁ wide, o.insns.mapM Method.itemOf b = .ok (items, b₁) ∧
    Settles items (fun _ => false) wide ∧ (∀ i ∈ o.insns, Instruction.check i = .ok ()) ∧
      o.finish wide items b₁ = .ok (bytes, b')

end Outline

namespace Method
open Layout

variable {items : List Item} {wide : Std.HashSet Nat} {w : Nat → Bool}

theorem codeBytes_eq (h : Agrees items wide.contains w) :
    codeBytes (place wide items) (markerIndex (items.map (·.node))) items =
      Outline.codeBytes w (realItems items) := by
  refine flatMap_reals (k := 0) (r := 0) ?_ ?_
  · intro item i hr
    unfold Insn.isReal at hr
    cases hn : item.node <;> rw [hn] at hr <;> first | rfl | exact absurd rfl hr
  · intro i item hi hr
    have hlt := (List.getElem?_eq_some_iff.1 hi).1
    simp only [Nat.zero_add]
    rw [pcAt_eq h (Nat.le_of_lt hlt), Insn.mapLabels_mapLabels, ← h i item hi hr]
    congr 2
    funext label
    exact congrArg Int.ofNat (placeOf_eq h label)

theorem lineBytes_eq (h : Agrees items wide.contains w) :
    lineBytes (place wide items) (items.map (·.node)) =
      Outline.lineBytes w (realItems items) (lineMarks 0 (items.map (·.node))) := by
  refine filterMap_lineMarks (k := 0) (r := 0)
    (g := fun i n => if (place wide items).pcAt i < (place wide items).size then
      some (bytesOf 2 ((place wide items).pcAt i) ++ wordBytes n) else none)
    (q := fun s n =>
      if stop w (realItems items) s < stop w (realItems items) (realItems items).length
      then some (bytesOf 2 (stop w (realItems items) s) ++ wordBytes n) else none) fun i hi => ?_
  rw [List.length_map] at hi
  rw [Nat.zero_add, Nat.zero_add, pcAt_eq h hi, size_eq h]

theorem handlerBytes_mapLabels (place : Nat → Nat) (f : Label → Label) (h : Handler) :
    handlerBytes place (h.mapLabels f) = handlerBytes (fun l => place (f l)) h := rfl

theorem localBytes_mapLabels (place : Nat → Nat) (f : Label → Label) (v : LocalVar) :
    localBytes place (v.mapLabels f) = localBytes (fun l => place (f l)) v := rfl

/-- What is written after the layout is a matter of the outline. -/
theorem finish_eq {m : Method} (h : Agrees items wide.contains w)
    (hn : items.map (·.node) = m.code.toList) :
    (do
      let handlers ← m.code.handlers.toList.mapM
        (handlerBytes ((place wide items).placeOf (markerIndex m.code.toList)))
      let handlers ← tableBytes "handlers" handlers.flatten
      let locals ← m.locals.mapM
        (localBytes ((place wide items).placeOf (markerIndex m.code.toList)))
      let locals ← tableBytes "local variables" locals.flatten
      let lines ← tableBytes "line numbers" (lineBytes (place wide items) m.code.toList)
      return wordBytes m.code.maxStack ++ wordBytes m.neededLocals
        ++ bytesOf 4 (place wide items).size
        ++ codeBytes (place wide items) (markerIndex m.code.toList) items
        ++ handlers ++ locals ++ lines : Builder (List UInt8)) =
      m.outline.finish w (realItems items) >>= fun bytes =>
        pure (wordBytes m.code.maxStack ++ wordBytes m.neededLocals ++ bytes) := by
  have hplace : (place wide items).placeOf (markerIndex m.code.toList) =
      fun l => stop w (realItems items) (realIndex m.code.toList l) := by
    funext l
    have := placeOf_eq h l
    rwa [indexIn, hn] at this
  have hlines := lineBytes_eq h
  have hcode := codeBytes_eq h
  rw [hn] at hlines hcode
  unfold Outline.finish outline
  simp only [hplace, hlines, hcode, size_eq h, List.mapM_map, handlerBytes_mapLabels,
    localBytes_mapLabels, Function.comp_def, bind_assoc, pure_bind, List.append_assoc]

theorem check_mapLabels (f : Label → Label) (i : Node) :
    Instruction.check (i.mapLabels f) = .ok () ↔ Instruction.check i = .ok () := by
  cases i with
  | tableSwitch low otherwise ts =>
    have hok : ∀ i : Node, (if Instruction.encodable i then .ok () else
        throw (Fault.operandOutOfRange (Instruction.detail i)) : Except Fault Unit) = .ok () ↔
          Instruction.encodable i := by
      intro i
      split
      · exact iff_of_true rfl ‹_›
      · exact iff_of_false nofun ‹_›
    refine (hok _).trans (Iff.trans ?_ (hok _).symm)
    simp [Insn.mapLabels, Instruction.encodable]
  | _ => exact Iff.rfl

theorem check_nodes (m : Method) :
    (∀ i ∈ m.outline.insns, Instruction.check i = .ok ()) ↔
      ∀ i ∈ m.code.toList, Instruction.check i = .ok () := by
  unfold outline realNodes
  simp only [List.forall_mem_map, check_mapLabels, List.mem_filter]
  refine ⟨fun h i hi => ?_, fun h i hi => h i hi.1⟩
  by_cases hr : i.isReal
  · exact h i ⟨hi, hr⟩
  · unfold Insn.isReal at hr
    cases i <;> first | rfl | exact absurd rfl hr

theorem mapM_itemOf_outline (m : Method) :
    m.outline.insns.mapM itemOf = reals (realIndex m.code.toList) <$> m.code.toList.mapM itemOf :=
  mapM_itemOf_real _ _

theorem agrees_start (items : List Item) :
    Agrees items (∅ : Std.HashSet Nat).contains fun _ => false :=
  fun _ _ _ _ => Std.HashSet.contains_empty

theorem narrow_lt (items : List Item) (w : Nat → Bool) :
    narrow (realItems items) w < items.length + 1 := by
  have h₁ : narrow (realItems items) w ≤ (realItems items).length := by
    have := List.countP_le_length (p := fun k => !w k) (l := List.range (realItems items).length)
    rwa [List.length_range] at this
  have h₂ : (realItems items).length ≤ items.length := by
    unfold realItems reals
    rw [List.length_map]
    exact List.length_filter_le _ _
  exact Nat.lt_succ_of_le (Nat.le_trans h₁ h₂)

/-- A body that was written is written for its outline. -/
theorem writes_of_encodeBody {m : Method} {b b' : PoolBuilder} {bytes : List UInt8}
    (h : m.encodeBody b = .ok (bytes, b')) :
    m.checkLabels (markerIndex m.code.toList) = .ok () ∧ ∃ rest, m.outline.Writes b b' rest ∧
      bytes = wordBytes m.code.maxStack ++ wordBytes m.neededLocals ++ rest := by
  unfold encodeBody at h
  obtain ⟨_, _, hl, h₁⟩ := PoolBuilder.bind_ok.1 h
  obtain ⟨hlabels, rfl⟩ := PoolBuilder.lift_ok.1 hl
  obtain ⟨items, b₁, hitems, h₂⟩ := PoolBuilder.bind_ok.1 h₁
  obtain ⟨l, _, hl', h₃⟩ := PoolBuilder.bind_ok.1 h₂
  obtain ⟨hlayout, rfl⟩ := PoolBuilder.lift_ok.1 hl'
  obtain ⟨_, _, hc, h₄⟩ := PoolBuilder.bind_ok.1 h₃
  obtain ⟨hchecks, rfl⟩ := PoolBuilder.forM_lift_ok.1 hc
  have hn := node_of_mapM_itemOf hitems
  rw [← hn] at hlayout
  obtain ⟨last, wide, hs, ha, rfl⟩ := settles_of_settle (agrees_start items) hlayout
  have h₅ := (congrFun (finish_eq ha hn) _).symm.trans h₄
  obtain ⟨rest, _, hfinish, h₆⟩ := PoolBuilder.bind_ok.1 h₅
  obtain ⟨rfl, rfl⟩ := PoolBuilder.pure_ok.1 h₆
  refine ⟨hlabels, rest, ⟨realItems items, _, last, ?_, hs, m.check_nodes.2 hchecks, hfinish⟩, rfl⟩
  rw [mapM_itemOf_outline, map_eq_pure_bind]
  exact PoolBuilder.bind_ok.2 ⟨items, _, hitems, by rw [realItems, indexIn, hn]; rfl⟩

/-- What is written for an outline is written for a method that has it. -/
theorem encodeBody_of_writes {m : Method} {b b' : PoolBuilder} {rest : List UInt8}
    (hlabels : m.checkLabels (markerIndex m.code.toList) = .ok ())
    (h : m.outline.Writes b b' rest) :
    m.encodeBody b =
      .ok (wordBytes m.code.maxStack ++ wordBytes m.neededLocals ++ rest, b') := by
  obtain ⟨its, b₁, last, hits, hs, hchecks, hfinish⟩ := h
  rw [mapM_itemOf_outline, map_eq_pure_bind] at hits
  obtain ⟨items, _, hitems, h⟩ := PoolBuilder.bind_ok.1 hits
  obtain ⟨rfl, rfl⟩ := PoolBuilder.pure_ok.1 h
  have hn := node_of_mapM_itemOf hitems
  rw [← hn] at hs hfinish
  obtain ⟨wide, ha, hlayout⟩ := settle_of_settles m.signature hs
    (agrees_start items) (narrow_lt items _)
  unfold encodeBody
  refine PoolBuilder.bind_ok.2 ⟨(), b, PoolBuilder.lift_ok.2 ⟨hlabels, rfl⟩, ?_⟩
  refine PoolBuilder.bind_ok.2 ⟨items, b₁, hitems, ?_⟩
  refine PoolBuilder.bind_ok.2 ⟨place wide items, b₁, PoolBuilder.lift_ok.2 ⟨hn ▸ hlayout, rfl⟩, ?_⟩
  refine PoolBuilder.bind_ok.2
    ⟨(), b₁, PoolBuilder.forM_lift_ok.2 ⟨m.check_nodes.1 hchecks, rfl⟩, ?_⟩
  have hfinal := finish_eq (m := m) ha hn
  refine (congrFun hfinal b₁).trans (PoolBuilder.bind_ok.2 ⟨rest, b', hfinish, rfl⟩)

end Method

/-! ## Changes that no byte shows -/

/-- A change of nodes that the bytes written for them do not show. -/
structure Unseen (f : Node → Node) : Prop where
  size : ∀ pc operand wide i,
    Instruction.size pc operand wide (f i) = Instruction.size pc operand wide i
  far : ∀ stop k i, Layout.isFar stop k (f i) = Layout.isFar stop k i
  goto : ∀ i l, i = .jump .GOTO l → f i = .jump .GOTO l
  operand : ∀ i, Method.operandOf (f i) = Method.operandOf i
  check : ∀ i, Instruction.check (f i) = Instruction.check i
  bytes : ∀ pc operand wide (place : Label → Int) i,
    Instruction.bytes pc operand wide ((f i).mapLabels place) =
      Instruction.bytes pc operand wide (i.mapLabels place)

/-- The outline with its instructions changed. -/
def Outline.mapInsns (f : Node → Node) (o : Outline) : Outline :=
  { o with insns := o.insns.map f }

namespace Unseen
open Layout

variable {f : Node → Node} {items : List Item}

theorem stopsFrom (hf : Unseen f) (wide : Nat → Bool) (pc k : Nat) :
    stopsFrom wide pc k (mapNodes f items) = stopsFrom wide pc k items := by
  induction items generalizing pc k with
  | nil => rfl
  | cons item items ih =>
    unfold mapNodes at ih ⊢
    rw [List.map_cons, Layout.stopsFrom, Layout.stopsFrom, ih, hf.size]

theorem stop (hf : Unseen f) (wide : Nat → Bool) :
    stop wide (mapNodes f items) = stop wide items := by
  funext r
  unfold Layout.stop
  rw [hf.stopsFrom]

theorem widened (hf : Unseen f) (wide : Nat → Bool) :
    widened (mapNodes f items) wide = widened items wide := by
  funext k
  unfold Layout.widened
  rw [hf.stop, mapNodes, List.getElem?_map, Option.any_map]
  simp only [hf.far]

theorem passes (hf : Unseen f) {wide : Nat → Bool} (h : Passes items wide) :
    Passes (mapNodes f items) wide := by
  have hlen : (mapNodes f items).length = items.length := List.length_map ..
  refine ⟨?_, fun k item' hk hfar => ?_⟩
  · rw [hlen, hf.stop]
    exact h.size
  · unfold mapNodes at hk
    rw [List.getElem?_map, Option.map_eq_some_iff] at hk
    obtain ⟨item, hk, rfl⟩ := hk
    rw [hf.stop, hf.far] at hfar
    obtain ⟨l, hl⟩ := h.far k item hk hfar
    exact ⟨l, hf.goto _ l hl⟩

theorem settles (hf : Unseen f) {wide last : Nat → Bool} (h : Settles items wide last) :
    Settles (mapNodes f items) wide last := by
  induction h with
  | done hp hw => exact .done (hf.passes hp) (by rw [hf.widened, hw])
  | more hp hw _ ih =>
    refine .more (hf.passes hp) (by rwa [hf.widened]) ?_
    rwa [hf.widened]

theorem codeBytes (hf : Unseen f) (wide : Nat → Bool) :
    Outline.codeBytes wide (mapNodes f items) = Outline.codeBytes wide items := by
  unfold Outline.codeBytes
  rw [hf.stop, mapNodes, List.zipIdx_map, List.flatMap_map]
  exact List.flatMap_congr fun e _ => hf.bytes ..

theorem finish (hf : Unseen f) (o : Outline) (wide : Nat → Bool) :
    (o.mapInsns f).finish wide (mapNodes f items) = o.finish wide items := by
  have hlen : (mapNodes f items).length = items.length := List.length_map ..
  have hlines : ∀ lines, Outline.lineBytes wide (mapNodes f items) lines =
      Outline.lineBytes wide items lines := by
    intro lines
    unfold Outline.lineBytes
    rw [hf.stop, hlen]
  unfold Outline.finish
  rw [hf.codeBytes, hf.stop, hlines, hlen]
  rfl

/-- What is written for an outline is written for it after the change. -/
theorem writes (hf : Unseen f) {o : Outline} {b b' : PoolBuilder} {bytes : List UInt8}
    (h : o.Writes b b' bytes) : (o.mapInsns f).Writes b b' bytes := by
  obtain ⟨items, b₁, wide, hitems, hs, hchecks, hfinish⟩ := h
  refine ⟨mapNodes f items, b₁, wide, ?_, hf.settles hs, ?_, ?_⟩
  · unfold Outline.mapInsns
    rw [Method.mapM_itemOf_map hf.operand, map_eq_pure_bind]
    exact PoolBuilder.bind_ok.2 ⟨items, b₁, hitems, rfl⟩
  · refine List.forall_mem_map.2 fun i hi => ?_
    rw [hf.check]
    exact hchecks i hi
  · rwa [hf.finish]

end Unseen

namespace Instruction

theorem sortPairs_sortPairs {α : Type} (ps : List (Int32 × α)) :
    sortPairs (sortPairs ps) = sortPairs ps := by
  refine List.mergeSort_of_pairwise
    (List.pairwise_mergeSort (fun a b c hab hbc => ?_) (fun a b => ?_) ps)
  · simp only [decide_eq_true_eq] at hab hbc ⊢
    exact Int32.le_trans hab hbc
  · simp only [Bool.or_eq_true, decide_eq_true_eq]
    exact Int32.le_total a.1 b.1

/-- A switch has the same bytes whether its pairs are sorted before or not. -/
theorem bytes_sortKeys (pc : Nat) (operand : UInt16) (wide : Bool) (place : Label → Int) (i : Node) :
    bytes pc operand wide (i.sortKeys.mapLabels place) =
      bytes pc operand wide (i.mapLabels place) := by
  cases i with
  | lookupSwitch otherwise ps =>
    have hlen : ∀ ps : List (Int32 × Int), (sortPairs ps).length = ps.length :=
      fun ps => List.length_mergeSort ps
    simp only [Insn.sortKeys, Insn.mapLabels, bytes, ← sortPairs_map, sortPairs_sortPairs, hlen,
      List.length_map]
  | _ => rfl

end Instruction

theorem unseen_sortKeys : Unseen (Insn.sortKeys : Node → Node) where
  size _ _ _ i := Instruction.size_sortKeys i
  far _ _ i := by cases i <;> rfl
  goto i l h := by rw [h]; rfl
  operand i := by cases i <;> rfl
  check i := by cases i <;> rfl
  bytes := Instruction.bytes_sortKeys

/-! ## Settled outlines -/

namespace Outline

/-- The outline without what is not written: empty ranges, inverted debug
entries and line numbers at the end. -/
def trimmed (o : Outline) : Outline where
  insns := o.insns
  handlers := o.handlers.filter fun h => h.start < h.stop
  locals := o.locals.filter fun v => v.start ≤ v.stop
  lines := o.lines.filter fun l => l.1 < o.insns.length

end Outline

namespace Outline
open Layout Method

variable {o : Outline} {items : List Item} {wide : Nat → Bool}

/-- Positions are in the order of the real indices. -/
theorem stop_mono (hr : ∀ item ∈ items, item.node.isReal) {r s : Nat} (hrs : r ≤ s)
    (hs : s ≤ items.length) : stop wide items r ≤ stop wide items s := by
  rcases Nat.lt_or_eq_of_le hrs with h | rfl
  · exact Nat.le_of_lt (stop_lt_stop _ hr h hs)
  · exact Nat.le_refl _

/-- The entries that reading drops are not written either. -/
theorem finish_trimmed (hb : o.Bounded) (hn : items.map (·.node) = o.insns) :
    o.trimmed.finish wide items = o.finish wide items := by
  have hlen : items.length = o.insns.length := by rw [← hn, List.length_map]
  have hr : ∀ item ∈ items, item.node.isReal := fun item hi =>
    hb.real _ (hn ▸ List.mem_map_of_mem hi)
  have hhandlers : ∀ h ∈ o.handlers, decide (h.start < h.stop) = false →
      handlerBytes (stop wide items) h = pure [] := by
    intro h hh hd
    rw [decide_eq_false_iff_not, Nat.not_lt] at hd
    have hstart := hb.ranges h hh h.start (by simp [Handler.labels])
    unfold handlerBytes
    rw [if_pos (stop_mono hr hd (hlen ▸ hstart))]
  have hlocals : ∀ v ∈ o.locals, decide (v.start ≤ v.stop) = false →
      localBytes (stop wide items) v = pure [] := by
    intro v hv hd
    rw [decide_eq_false_iff_not, Nat.not_le] at hd
    unfold localBytes
    rw [if_pos (stop_lt_stop _ hr hd (hlen ▸ (hb.locals v hv).1))]
  have hlines : lineBytes wide items o.trimmed.lines = lineBytes wide items o.lines := by
    unfold lineBytes trimmed
    rw [List.filterMap_filter]
    refine List.filterMap_congr fun l hl => ?_
    by_cases hlt : l.1 < o.insns.length
    · rw [if_pos (decide_eq_true hlt)]
    · have : l.1 = items.length := by
        have := hb.lines l hl
        omega
      rw [if_neg (by simpa using hlt), this, if_neg (Nat.lt_irrefl _)]
  unfold finish
  rw [hlines]
  refine (PoolBuilder.mapM_filter_flatten hhandlers fun handlers => (do
    let handlers ← tableBytes "handlers" handlers
    let locals ← o.trimmed.locals.mapM (localBytes (stop wide items))
    let locals ← tableBytes "local variables" locals.flatten
    let lines ← tableBytes "line numbers" (lineBytes wide items o.lines)
    return bytesOf 4 (stop wide items items.length) ++ codeBytes wide items ++ handlers ++ locals
      ++ lines)).trans ?_
  refine bind_congr fun _ => bind_congr fun handlers => ?_
  exact PoolBuilder.mapM_filter_flatten hlocals fun locals => (do
    let locals ← tableBytes "local variables" locals
    let lines ← tableBytes "line numbers" (lineBytes wide items o.lines)
    return bytesOf 4 (stop wide items items.length) ++ codeBytes wide items ++ handlers ++ locals
      ++ lines)

theorem Writes.trimmed {b b' : PoolBuilder} {bytes : List UInt8} (h : o.Writes b b' bytes)
    (hb : o.Bounded) : o.trimmed.Writes b b' bytes := by
  obtain ⟨items, b₁, wide, hitems, hs, hchecks, hfinish⟩ := h
  refine ⟨items, b₁, wide, hitems, hs, hchecks, ?_⟩
  rwa [finish_trimmed hb (node_of_mapM_itemOf hitems)]

/-- What is written for an outline is written for what is read of it. -/
theorem Writes.settled {b b' : PoolBuilder} {bytes : List UInt8} (h : o.Writes b b' bytes)
    (hb : o.Bounded) : o.settled.Writes b b' bytes :=
  unseen_sortKeys.writes (h.trimmed hb)

end Outline

end ClassPatch
