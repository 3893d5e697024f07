-- Listings show places and not handles: code with its labels renamed one to
-- one has the same listing, so far as what it names is marked. A copy is such
-- code, and stores nothing else. A name without a marker shows its handle.
import ClassPatch.Listing
import ClassPatch.Proofs.Naming
import ClassPatch.Proofs.Relabelled
import ClassPatch.Proofs.Tight

namespace ClassPatch

/-! ## Numbers -/

namespace Code

/-- Every number below the next one was given to a label of the list. -/
theorem exists_numbered {ls : List Label} {k : Nat} (hk : k < (ls.foldl number ∅).size) :
    ∃ l ∈ ls, (ls.foldl number ∅)[l]? = some k := by
  induction ls using List.reverseRecOn with
  | nil => simp at hk
  | append_singleton ls l ih =>
    rw [List.foldl_append] at hk ⊢
    generalize ls.foldl number ∅ = m at hk ih ⊢
    simp only [List.foldl_cons, List.foldl_nil] at hk ⊢
    have hold : k < m.size → ∃ j ∈ ls ++ [l], m[j]? = some k := fun hk =>
      (ih hk).imp fun _ hj => ⟨List.mem_append_left _ hj.1, hj.2⟩
    unfold number at hk ⊢
    split
    · rename_i hc
      rw [if_pos hc] at hk
      exact hold hk
    · rename_i hnew
      rw [if_neg hnew, Std.HashMap.size_insert,
        if_neg (Std.HashMap.mem_iff_contains.not.2 hnew)] at hk
      rcases Nat.lt_succ_iff_lt_or_eq.1 hk with hk | rfl
      · obtain ⟨j, hj, hjk⟩ := hold hk
        have hne : l ≠ j := by
          rintro rfl
          rw [Std.HashMap.contains_eq_isSome_getElem?, hjk] at hnew
          exact hnew rfl
        exact ⟨j, hj, by rw [Std.HashMap.getElem?_insert, if_neg (by simpa using hne), hjk]⟩
      · exact ⟨l, by simp, Std.HashMap.getElem?_insert_self⟩

/-- Numbers go by place: a label under a new name of its own keeps its number. -/
theorem renames_numbers {f : Label → Label} {ls : List Label} (hf : Set.InjOn f {l | l ∈ ls}) :
    ((ls.map f).foldl number ∅).size = (ls.foldl number ∅).size ∧
      ∀ l, (∀ k ∈ ls, f k = f l → k = l) →
        Renames f (ls.foldl number ∅) ((ls.map f).foldl number ∅) l := by
  induction ls using List.reverseRecOn with
  | nil => exact ⟨rfl, fun l _ => by simp [Renames]⟩
  | append_singleton ls k ih =>
    obtain ⟨hsize, hrenames⟩ := ih (hf.mono fun l hl => List.mem_append_left _ hl)
    have hk : Renames f (ls.foldl number ∅) ((ls.map f).foldl number ∅) k :=
      hrenames k fun j hj h => hf (List.mem_append_left _ hj) (by simp) h
    have hold : ∀ l, (∀ j ∈ ls ++ [k], f j = f l → j = l) →
        Renames f (ls.foldl number ∅) ((ls.map f).foldl number ∅) l :=
      fun l hl => hrenames l fun j hj => hl j (List.mem_append_left _ hj)
    have hcontains := hk.contains
    rw [List.map_append, List.foldl_append, List.foldl_append]
    generalize ls.foldl number ∅ = m, (ls.map f).foldl number ∅ = m' at hsize hold hcontains ⊢
    simp only [List.map_cons, List.map_nil, List.foldl_cons, List.foldl_nil, number, hcontains]
    split
    · exact ⟨hsize, hold⟩
    · rename_i hnew
      refine ⟨?_, fun l hl => ?_⟩
      · simp only [Std.HashMap.size_insert, Std.HashMap.mem_iff_contains, hcontains, hsize]
      · have hl' := hold l hl
        unfold Renames at hl' ⊢
        rw [Std.HashMap.getElem?_insert, Std.HashMap.getElem?_insert, hl', hsize]
        by_cases hkl : k = l
        · simp [hkl]
        · have hne : f k ≠ f l := fun h => hkl (hl k (by simp) h)
          simp [hkl, hne]

end Code

/-! ## Lines -/

section
variable {f : Label → Label} {name newName : Label → String}

theorem switchCases_map (low : Int32) (ts : List Label) :
    switchCases low (ts.map f) = (switchCases low ts).map fun c => (c.1, f c.2) := by
  unfold switchCases
  rw [List.zipIdx_map, List.map_map, List.map_map]
  rfl

theorem casesText_map {cases : List (Int × Label)} {otherwise : Label}
    (hcases : ∀ c ∈ cases, newName (f c.2) = name c.2)
    (hother : newName (f otherwise) = name otherwise) :
    casesText newName (cases.map fun c => (c.1, f c.2)) (f otherwise) =
      casesText name cases otherwise := by
  have hfold : (cases.map fun c => (c.1, f c.2)).foldl
      (fun out c => out ++ s!" {c.1}: {newName c.2}") "" =
        cases.foldl (fun out c => out ++ s!" {c.1}: {name c.2}") "" := by
    rw [List.foldl_map]
    exact List.foldl_ext _ _ _ fun out c hc => by rw [hcases c hc]
  rw [casesText, casesText, hfold, hother]

/-- A line is the same when its labels have the same names. -/
theorem Insn.text_mapLabels {i : Node} (h : ∀ l ∈ i.labels, newName (f l) = name l) :
    (i.mapLabels f).text newName = i.text name := by
  cases i with
  | label l => exact h l (List.mem_singleton_self l)
  | jump op l =>
    exact congrArg (fun text => s!"  {op.mnemonic} {text}") (h l (List.mem_singleton_self l))
  | tableSwitch low otherwise ts =>
    refine congrArg ("  TABLESWITCH" ++ ·) ?_
    rw [switchCases_map, casesText_map _ (h otherwise (List.mem_cons_self ..))]
    intro c hc
    obtain ⟨t, ht, rfl⟩ := List.mem_map.1 hc
    exact h t.1 (List.mem_cons_of_mem _ (List.mem_of_getElem? (List.mem_zipIdx_iff_getElem?.1 ht)))
  | lookupSwitch otherwise ps =>
    have hcases : (ps.map fun p => (p.1, f p.2)).map (fun p => (p.1.toInt, p.2)) =
        (ps.map fun p => (p.1.toInt, p.2)).map fun c => (c.1, f c.2) := by
      rw [List.map_map, List.map_map]
      rfl
    refine congrArg ("  LOOKUPSWITCH" ++ ·) ?_
    rw [hcases, casesText_map _ (h otherwise (List.mem_cons_self ..))]
    intro c hc
    obtain ⟨p, hp, rfl⟩ := List.mem_map.1 hc
    exact h p.2 (List.mem_cons_of_mem _ (List.mem_map_of_mem hp))
  | _ => rfl

theorem Handler.text_mapLabels {r : Handler} (h : ∀ l ∈ r.labels, newName (f l) = name l) :
    (r.mapLabels f).text newName = r.text name := by
  simp only [Handler.labels, List.forall_mem_cons] at h
  obtain ⟨hstart, hstop, htarget, -⟩ := h
  unfold Handler.text Handler.mapLabels
  rw [hstart, hstop, htarget]

theorem LocalVar.text_mapLabels {v : LocalVar} (hstart : newName (f v.start) = name v.start)
    (hstop : newName (f v.stop) = name v.stop) : (v.mapLabels f).text newName = v.text name := by
  unfold LocalVar.text LocalVar.mapLabels
  rw [hstart, hstop]

end

/-! ## Code under other labels -/

namespace Code

/-- The labels at nodes and in handlers. -/
def labels (c : Code) : List Label :=
  c.toList.flatMap Insn.labels ++ c.handlers.toList.flatMap Handler.labels

/-- The second code is the first one with its labels renamed, each to one of
its own. What is stored but not in place, names and bindings may be anything. -/
structure Relabelled (f : Label → Label) (c d : Code) : Prop where
  nodes : d.toList = c.toList.map (Insn.mapLabels f)
  handlers : d.handlers = c.handlers.map (Handler.mapLabels f)
  injective : Set.InjOn f {l | l ∈ c.labels}

/-- What the listing of the code calls a label. -/
def labelName (c : Code) : Label → String := labelText (labelNumbers c.toList)

namespace Relabelled
variable {f : Label → Label} {c d : Code}

/-- A marked label keeps its name in the listing. -/
theorem labelName (h : Relabelled f c d) {l : Label} (hl : l ∈ markers c.toList) :
    d.labelName (f l) = c.labelName l := by
  have hmem : ∀ k ∈ markers c.toList, k ∈ c.labels := fun k hk =>
    List.mem_append_left _ (List.mem_flatMap.2 ⟨_, mem_markers.1 hk, List.mem_singleton_self k⟩)
  have hinj : Set.InjOn f {l | l ∈ markers c.toList} := h.injective.mono hmem
  have hnumber : Renames f (labelNumbers c.toList) (labelNumbers d.toList) l := by
    rw [h.nodes]
    unfold labelNumbers
    rw [markers_map]
    exact (renames_numbers hinj).2 l fun k hk hkl => hinj hk hl hkl
  have hsome : l ∈ labelNumbers c.toList := mem_foldl_number hl
  unfold Code.labelName labelText
  rw [hnumber, Std.HashMap.getElem?_eq_some_getElem hsome]

/-- The lines are the same if all that nodes and handlers name is marked. -/
theorem lines (h : Relabelled f c d) (hm : ∀ l ∈ c.named, l ∈ markers c.toList) :
    d.lines d.labelName = c.lines c.labelName := by
  unfold Code.lines
  rw [h.nodes, h.handlers, Array.toList_map, List.map_map, List.map_map]
  refine congrArg₂ (· ++ ·) ?_ ?_
  · apply List.map_congr_left
    intro i hi
    apply Insn.text_mapLabels
    intro l hl
    apply h.labelName
    cases i with
    | label k => exact mem_markers.2 (List.mem_singleton.1 hl ▸ hi)
    | _ => exact hm l (List.mem_append_left _ (List.mem_flatMap.2 ⟨_, hi, hl⟩))
  · apply List.map_congr_left
    intro r hr
    apply Handler.text_mapLabels
    intro l hl
    exact h.labelName (hm l (List.mem_append_right _ (List.mem_flatMap.2 ⟨r, hr, hl⟩)))

theorem text (h : Relabelled f c d) (hm : ∀ l ∈ c.named, l ∈ markers c.toList) :
    d.text = c.text := congrArg (ClassPatch.lines "") (h.lines hm)

end Relabelled

end Code

theorem Method.Relabelled.body {f : Label → Label} {m n : Method} (h : m.Relabelled f n) :
    m.code.Relabelled f n.code :=
  ⟨h.nodes, h.handlers, h.injective.mono fun _ hl => List.mem_append_left _ hl⟩

/-- Renamed methods with the same limit of the stack have the same listing, if
all that their code and their debug entries name is marked. -/
theorem Method.Relabelled.text {f : Label → Label} {m n : Method} (h : m.Relabelled f n)
    (hstack : n.maxStack = m.maxStack) (hm : ∀ l ∈ m.references, l ∈ markers m.code.toList) :
    n.text = m.text := by
  have hnames : ∀ l ∈ m.references, n.code.labelName (f l) = m.code.labelName l :=
    fun l hl => h.body.labelName (hm l hl)
  have hcode : n.code.lines n.code.labelName = m.code.lines m.code.labelName :=
    h.body.lines fun l hl => hm l (List.mem_append_left _ hl)
  have hlocals : n.locals.map (LocalVar.text n.code.labelName) =
      m.locals.map (LocalVar.text m.code.labelName) := by
    rw [h.locals, List.map_map]
    apply List.map_congr_left
    intro v hv
    have hmem : ∀ l ∈ [v.start, v.stop], l ∈ m.references := fun l hl =>
      List.mem_append_right _ (List.mem_flatMap.2 ⟨v, hv, hl⟩)
    exact LocalVar.text_mapLabels (hnames _ (hmem _ (by simp))) (hnames _ (hmem _ (by simp)))
  unfold Code.labelName at hcode hlocals
  unfold Method.text
  simp only [h.access, h.name, h.desc, h.exceptions, h.maxLocals, h.isEmpty, hstack, hcode, hlocals]

/-! ## Copies -/

namespace Code

/-- Whatever is pushed is stored, but for markers. -/
theorem store_pushAll (nodes : List Node) (c : Code) :
    (c.pushAll nodes).store.toList = c.store.toList ++ nodes.filter (·.marker?.isNone) := by
  induction nodes generalizing c with
  | nil => simp [pushAll]
  | cons i nodes ih =>
    refine (ih _).trans ?_
    cases i <;> simp [push, Insn.marker?]

/-- A faithful copy: all is as it was but for the labels, each of which has a
label of its own for it. There is no binding, and nothing is stored but markers
of those labels and the nodes in place. -/
structure Copied (f : Label → Label) (c d : Code) : Prop where
  nodes : d.toList = c.toList.map (Insn.mapLabels f)
  handlers : d.handlers = c.handlers.map (Handler.mapLabels f)
  names : d.names = c.names.map fun e => (e.1, f e.2)
  injective : Set.InjOn f {l | l ∈ c.mentioned}
  imports : d.imports = []
  captured : d.captured = []
  stored : ∃ n, d.store.toList =
    (List.range n).map Insn.label ++ d.toList.filter (·.marker?.isNone)
  issued : ∀ l ∈ d.issued, l ∈ c.mentioned.map f

theorem store_copy (c : Code) : c.copy.store.toList =
    (List.range c.numbering.size).map Insn.label ++ c.copy.toList.filter (·.marker?.isNone) := by
  rw [toList_copy]
  refine (store_pushAll _ _).trans ?_
  rw [withLabels, Array.toList_map, Array.toList_range]
  rfl

/-- The labels of a copy are there for labels that the code mentions. -/
theorem mem_of_issued_copy {c : Code} {l : Label} (hl : l ∈ c.copy.issued) :
    l ∈ c.mentioned.map c.relabel := by
  have hissued : c.copy.issued = List.range c.numbering.size :=
    (issued_pushAll ..).trans (issued_withLabels _)
  have hlt : l < c.numbering.size := List.mem_range.1 (hissued ▸ hl)
  obtain ⟨k, hk, hkl⟩ := exists_numbered hlt
  have hrelabel := (getElem?_numbering hk).symm.trans hkl
  exact Option.some.inj hrelabel ▸ List.mem_map_of_mem hk

theorem copied_copy (c : Code) : c.Copied c.relabel c.copy :=
  ⟨c.toList_copy, rfl, rfl, fun _ hl _ hk => relabel_inj hl hk, c.imports_copy,
    c.captured_copy, ⟨_, c.store_copy⟩, fun _ => mem_of_issued_copy⟩

theorem Copied.relabelled {f : Label → Label} {c d : Code} (h : c.Copied f d) :
    c.Relabelled f d :=
  ⟨h.nodes, h.handlers, h.injective.mono fun _ hl => List.mem_append_left _ hl⟩

end Code

/-- A copy is the code under other labels and nothing more. Where all that is
named is marked, by debug entries too, listings do not depend on labels: a copy
has the listing of the code, and so has whatever differs from it by a renaming. -/
theorem listings_go_by_place :
    (∀ c : Code, (∃ f, c.Copied f c.copy) ∧
      ((∀ l ∈ c.named, l ∈ markers c.toList) → c.copy.text = c.text)) ∧
    (∀ f (c d : Code), c.Relabelled f d → (∀ l ∈ c.named, l ∈ markers c.toList) →
      d.text = c.text) ∧
    ∀ f (m n : Method), m.Relabelled f n → n.maxStack = m.maxStack →
      (∀ l ∈ m.references, l ∈ markers m.code.toList) → n.text = m.text :=
  ⟨fun c => ⟨⟨_, c.copied_copy⟩, fun hm => c.copied_copy.relabelled.text hm⟩,
    fun _ _ _ h hm => h.text hm, fun _ _ _ h hstack hm => h.text hstack hm⟩

theorem respin_is_listed_as_spin :
    (∃ f, Method.respin.code.Copied f Method.respin.code.copy) ∧
    Method.respin.code.copy.text = Method.respin.code.text ∧
    Method.respin.code.text = Method.spin.code.text ∧ Method.respin.text = Method.spin.text := by
  obtain ⟨hcopy, hcode, hmethod⟩ := listings_go_by_place
  have hspin : Method.spin.Relabelled (· + 1) .respin := Method.relabelled_respin
  have hmarked : ∀ l ∈ Method.spin.references, l ∈ markers Method.spin.code.toList := by decide
  have hmarked' : ∀ l ∈ Method.respin.code.named, l ∈ markers Method.respin.code.toList := by
    decide
  exact ⟨(hcopy _).1, (hcopy _).2 hmarked', hcode _ _ _ hspin.body hmarked,
    hmethod _ _ _ hspin rfl hmarked⟩

/-- Returns at once. A debug entry names a label that is not in place. -/
def Method.loose : Method where
  access := 9
  name := "m"
  desc := "()V"
  code := { store := #[.simple .RETURN, .label 1], order := #[0] }
  locals := [⟨"v", "I", 1, 1, 0⟩]

/-- The same method after another node was there and went. -/
def Method.trimmed : Method :=
  { Method.loose with
    code := { store := #[.simple .NOP, .simple .RETURN, .label 2], order := #[1] }
    locals := [⟨"v", "I", 2, 2, 0⟩] }

/-- That nodes and handlers name only what is marked is not enough for methods: a
debug entry may name a label without a marker, and then its handle is shown. -/
theorem loose_entries_show_handles :
    Method.loose.Relabelled (· + 1) .trimmed ∧ Method.trimmed.maxStack = Method.loose.maxStack ∧
      (∀ l ∈ Method.loose.code.named, l ∈ markers Method.loose.code.toList) ∧
      Method.trimmed.text ≠ Method.loose.text := by
  refine ⟨⟨rfl, rfl, rfl, rfl, rfl, rfl, rfl, Array.map_empty.symm, rfl, ?_⟩, rfl, by decide, ?_⟩
  · exact fun _ _ _ _ h => Nat.succ.inj h
  · have handle : labelText ∅ = fun l => s!"L?{l}" := by
      funext l
      simp [labelText]
    have hloose : labelNumbers Method.loose.code.toList = ∅ := rfl
    have htrimmed : labelNumbers Method.trimmed.code.toList = ∅ := rfl
    unfold Method.text
    rw [hloose, htrimmed, handle]
    decide +kernel

end ClassPatch
