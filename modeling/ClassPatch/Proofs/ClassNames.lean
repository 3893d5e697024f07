-- Class names in descriptors. To rename them in the text is to rename them in
-- the type: the letter that opens a name stands nowhere but in front of names
-- or within them, and no new name ends before its semicolon.
import ClassPatch.Proofs.Grammar

namespace ClassPatch.Descriptor

/-! ## One type for each text -/

/-- A name ends at its semicolon, whatever follows. -/
theorem ClassName.chars_inj {name name' : ClassName} {rest rest' : List Char}
    (h : name.chars ++ ';' :: rest = name'.chars ++ ';' :: rest') :
    name = name' ∧ rest = rest' := by
  have hrest : ';' :: rest = ';' :: rest' :=
    (name.dropWhile rest).symm.trans (h ▸ name'.dropWhile rest')
  rw [hrest] at h
  have hchars := List.append_cancel_right h
  obtain ⟨cs, _, _⟩ := name
  obtain ⟨cs', _, _⟩ := name'
  cases hchars
  exact ⟨rfl, (List.cons.inj hrest).2⟩

theorem Base.letter_inj {b b' : Base} (h : b.letter = b'.letter) : b = b' := by
  cases b <;> cases b' <;> first | rfl | exact absurd h (by decide)

/-- A type ends where its text does, whatever follows. -/
theorem FieldType.chars_inj {t t' : FieldType} {rest rest' : List Char}
    (h : t.chars ++ rest = t'.chars ++ rest') : t = t' ∧ rest = rest' := by
  induction t generalizing t' with
  | base b =>
    cases t' with
    | base b' =>
      obtain ⟨hletter, hrest⟩ := List.cons.inj h
      exact ⟨congrArg base (Base.letter_inj hletter), hrest⟩
    | object name' => exact absurd (List.cons.inj h).1 b.letter_ne.2
    | array element' => exact absurd (List.cons.inj h).1 b.letter_ne.1
  | object name =>
    cases t' with
    | base b' => exact absurd (List.cons.inj h).1.symm b'.letter_ne.2
    | object name' =>
      have hnames : name.chars ++ ';' :: rest = name'.chars ++ ';' :: rest' := by
        simpa [chars] using h
      obtain ⟨rfl, hrest⟩ := ClassName.chars_inj hnames
      exact ⟨rfl, hrest⟩
    | array element' => exact absurd (List.cons.inj h).1 (by decide)
  | array element ih =>
    cases t' with
    | base b' => exact absurd (List.cons.inj h).1.symm b'.letter_ne.1
    | object name' => exact absurd (List.cons.inj h).1 (by decide)
    | array element' =>
      obtain ⟨rfl, hrest⟩ := ih (List.cons.inj h).2
      exact ⟨rfl, hrest⟩

theorem FieldType.text_inj {t t' : FieldType} (h : t.text = t'.text) : t = t' := by
  have hchars : t.chars ++ [] = t'.chars ++ [] := by simpa using String.ofList_injective h
  exact (FieldType.chars_inj hchars).1

namespace MethodType

theorem args_inj {args args' : List FieldType} {rest rest' : List Char}
    (h : args.flatMap FieldType.chars ++ ')' :: rest =
      args'.flatMap FieldType.chars ++ ')' :: rest') : args = args' ∧ rest = rest' := by
  induction args generalizing args' with
  | nil =>
    cases args' with
    | nil => exact ⟨rfl, (List.cons.inj h).2⟩
    | cons t' args' =>
      obtain ⟨c, cs, hchars, hc⟩ := t'.head_ne
      rw [List.flatMap_cons, hchars] at h
      exact absurd (List.cons.inj h).1.symm hc
  | cons t args ih =>
    cases args' with
    | nil =>
      obtain ⟨c, cs, hchars, hc⟩ := t.head_ne
      rw [List.flatMap_cons, hchars] at h
      exact absurd (List.cons.inj h).1 hc
    | cons t' args' =>
      rw [List.flatMap_cons, List.flatMap_cons, List.append_assoc, List.append_assoc] at h
      obtain ⟨rfl, hargs⟩ := FieldType.chars_inj h
      obtain ⟨rfl, hrest⟩ := ih hargs
      exact ⟨rfl, hrest⟩

theorem chars_ne_void (t : FieldType) : t.chars ≠ ['V'] := by
  cases t with
  | base b => cases b <;> decide
  | object name => simp [FieldType.chars]
  | array element => simp [FieldType.chars]

theorem resultChars_inj {r r' : Option FieldType} (h : resultChars r = resultChars r') :
    r = r' := by
  cases r with
  | none =>
    cases r' with
    | none => rfl
    | some t' => exact absurd h.symm (chars_ne_void t')
  | some t =>
    cases r' with
    | none => exact absurd h (chars_ne_void t)
    | some t' => exact congrArg some (FieldType.text_inj (congrArg String.ofList h))

theorem text_inj {t t' : MethodType} (h : t.text = t'.text) : t = t' := by
  obtain ⟨hargs, hresult⟩ := args_inj (List.cons.inj (String.ofList_injective h)).2
  obtain ⟨args, result⟩ := t
  obtain ⟨args', result'⟩ := t'
  exact congrArg₂ mk hargs (resultChars_inj hresult)

end MethodType

/-! ## New names -/

/-- New names for some classes, each of them a name that a class can have. -/
structure Renaming where
  name? : String → Option String
  ne_empty : ∀ {old new}, name? old = some new → new ≠ ""
  unclosed : ∀ {old new}, name? old = some new → ∀ c ∈ new.toList, c ≠ ';'

namespace Renaming

/-- The new name of a class, or its own. -/
def apply (f : Renaming) (name : String) : String := (f.name? name).getD name

theorem apply_of_none {f : Renaming} {name : String} (h : f.name? name = none) :
    f.apply name = name := by
  rw [apply, h, Option.getD_none]

theorem apply_of_some {f : Renaming} {old new : String} (h : f.name? old = some new) :
    f.apply old = new := by
  rw [apply, h, Option.getD_some]

/-- The renaming by one after the other. -/
def andThen (f g : Renaming) : Renaming where
  name? name := (g.name? (f.apply name)).or (f.name? name)
  ne_empty h := by
    rcases Option.or_eq_some_iff.1 h with h | ⟨_, h⟩
    exacts [g.ne_empty h, f.ne_empty h]
  unclosed h := by
    rcases Option.or_eq_some_iff.1 h with h | ⟨_, h⟩
    exacts [g.unclosed h, f.unclosed h]

theorem apply_andThen (f g : Renaming) (name : String) :
    (f.andThen g).apply name = g.apply (f.apply name) := by
  change ((g.name? (f.apply name)).or (f.name? name)).getD name = (g.name? (f.apply name)).getD _
  cases g.name? (f.apply name) <;> rfl

/-- What a name without a semicolon becomes has none. -/
theorem apply_unclosed (f : Renaming) {name : String} (h : ∀ c ∈ name.toList, c ≠ ';') :
    ∀ c ∈ (f.apply name).toList, c ≠ ';' := by
  cases hf : f.name? name with
  | some new => rw [apply_of_some hf]; exact f.unclosed hf
  | none => rw [apply_of_none hf]; exact h

theorem apply_ne_empty (f : Renaming) {name : String} (h : name ≠ "") : f.apply name ≠ "" := by
  cases hf : f.name? name with
  | some new => rw [apply_of_some hf]; exact f.ne_empty hf
  | none => rw [apply_of_none hf]; exact h

/-- The class under its new name. -/
def className (f : Renaming) (name : ClassName) : ClassName where
  chars := (f.apply (String.ofList name.chars)).toList
  ne_nil h := by
    refine f.apply_ne_empty (fun hname => name.ne_nil ?_) (String.toList_eq_nil_iff.1 h)
    simpa using hname
  unclosed := f.apply_unclosed (by simpa using name.unclosed)

end Renaming

/-- The type with its class under another name. -/
def FieldType.rename (f : Renaming) : FieldType → FieldType
  | base b => base b
  | object name => object (f.className name)
  | array element => array (element.rename f)

def MethodType.rename (f : Renaming) (t : MethodType) : MethodType :=
  ⟨t.args.map (FieldType.rename f), t.result.map (FieldType.rename f)⟩

/-- Names do not count for the slots that a type takes. -/
theorem FieldType.width_rename (f : Renaming) (t : FieldType) : (t.rename f).width = t.width := by
  cases t <;> rfl

theorem MethodType.shape_rename (f : Renaming) (t : MethodType) : (t.rename f).shape = t.shape := by
  have hwidth : FieldType.width ∘ FieldType.rename f = FieldType.width :=
    funext (FieldType.width_rename f)
  simp [shape, rename, resultWidth, hwidth]

/-! ## The scan -/

section Scan
variable {f : String → Option String}

/-- What is written already stays in front. -/
theorem renameFrom_append (done out : String) (input : List Char) :
    renameFrom f (done ++ out) input = done ++ renameFrom f out input := by
  fun_induction renameFrom f out input with
  | case1 out => rw [renameFrom]
  | case2 out c rest hc ih =>
    have hout : (done ++ out).push c = done ++ out.push c := by simp [← String.toList_inj]
    rw [renameFrom, if_pos hc, hout, ih]
  | case3 out c rest hc hopen =>
    rw [renameFrom, if_neg hc]
    split
    · simp [← String.toList_inj]
    · rename_i hdrop
      cases hopen.symm.trans hdrop
  | case4 out c rest hc x after hdrop name ih =>
    rw [renameFrom, if_neg hc]
    split
    · rename_i hopen
      cases hopen.symm.trans hdrop
    · rename_i hdrop'
      cases hdrop'.symm.trans hdrop
      have hout : ((done ++ out).push 'L' ++ (f name).getD name).push ';' =
          done ++ (out.push 'L' ++ (f name).getD name).push ';' := by
        simp [← String.toList_inj]
      exact (congrArg (renameFrom f · after) hout).trans ih

/-- The characters that come out for some characters. -/
def renamed (f : String → Option String) (cs : List Char) : List Char := (renameFrom f "" cs).toList

theorem toList_renameFrom (out : String) (cs : List Char) :
    (renameFrom f out cs).toList = out.toList ++ renamed f cs := by
  have h := renameFrom_append (f := f) out "" cs
  rw [String.append_empty] at h
  rw [h, String.toList_append, renamed]

theorem mapClasses_eq (desc : String) :
    mapClasses f desc = String.ofList (renamed f desc.toList) := by
  rw [mapClasses, renamed, String.ofList_toList]

theorem renamed_nil : renamed f [] = [] := by
  rw [renamed, renameFrom, String.toList_empty]

/-- Outside of names a character is copied. -/
theorem renamed_cons {c : Char} (hc : c ≠ 'L') (rest : List Char) :
    renamed f (c :: rest) = c :: renamed f rest := by
  rw [renamed, renameFrom, if_pos hc, toList_renameFrom]
  simp

/-- A name that does not end is copied. -/
theorem renamed_open {rest : List Char} (h : ∀ c ∈ rest, c ≠ ';') :
    renamed f ('L' :: rest) = 'L' :: rest := by
  have hdrop : rest.dropWhile (· ≠ ';') = [] :=
    List.dropWhile_eq_nil_iff.2 fun c hc => decide_eq_true (h c hc)
  rw [renamed, renameFrom, if_neg (by decide)]
  split
  · simp
  · rename_i hname
    cases hdrop.symm.trans hname

/-- A name becomes its new name. -/
theorem renamed_name {name : List Char} (h : ∀ c ∈ name, c ≠ ';') (after : List Char) :
    renamed f ('L' :: (name ++ ';' :: after)) =
      'L' :: (((f (String.ofList name)).getD (String.ofList name)).toList ++
        ';' :: renamed f after) := by
  have hpos : ∀ c ∈ name, decide (c ≠ ';') = true := fun c hc => decide_eq_true (h c hc)
  have hdrop : (name ++ ';' :: after).dropWhile (· ≠ ';') = ';' :: after :=
    List.dropWhile_append_of_pos hpos
  have htake : (name ++ ';' :: after).takeWhile (· ≠ ';') = name := by
    rw [List.takeWhile_append_of_pos hpos]
    simp
  rw [renamed, renameFrom, if_neg (by decide)]
  split
  · rename_i hopen
    cases hopen.symm.trans hdrop
  · rename_i hname
    cases hname.symm.trans hdrop
    dsimp only
    rw [htake, toList_renameFrom]
    simp

/-- Characters are scanned one by one outside of names, and a name as a whole. -/
theorem scan_induction {P : List Char → Prop} (nil : P [])
    (cons : ∀ c rest, c ≠ 'L' → P rest → P (c :: rest))
    (openName : ∀ rest, (∀ c ∈ rest, c ≠ ';') → P ('L' :: rest))
    (name : ∀ name after, (∀ c ∈ name, c ≠ ';') → P after → P ('L' :: (name ++ ';' :: after)))
    (cs : List Char) : P cs := by
  fun_induction renameFrom (fun _ => none) "" cs with
  | case1 => exact nil
  | case2 _ c rest hc ih => exact cons c rest hc ih
  | case3 _ c rest hc hopen =>
    rw [Decidable.not_not.1 hc]
    exact openName rest fun c hc => of_decide_eq_true (List.dropWhile_eq_nil_iff.1 hopen c hc)
  | case4 _ c rest hc x after hdrop _ ih =>
    obtain ⟨hsplit, hunclosed⟩ := split_at_semicolon hdrop
    rw [Decidable.not_not.1 hc, hsplit]
    exact name _ after hunclosed ih

/-- What a descriptor starts with tells fields from methods, and stays. -/
theorem head?_renamed (cs : List Char) : (renamed f cs).head? = cs.head? := by
  induction cs using scan_induction with
  | nil => rw [renamed_nil]
  | cons c rest hc => rw [renamed_cons hc]; rfl
  | openName rest hopen => rw [renamed_open hopen]
  | name name after hname => rw [renamed_name hname]; rfl

theorem isMethod_mapClasses (desc : String) : isMethod (mapClasses f desc) = isMethod desc := by
  rw [isMethod, mapClasses_eq, String.toList_ofList, head?_renamed, isMethod]

/-- Without new names the characters are copied. -/
theorem renamed_none (cs : List Char) : renamed (fun _ => none) cs = cs := by
  induction cs using scan_induction with
  | nil => exact renamed_nil
  | cons c rest hc ih => rw [renamed_cons hc, ih]
  | openName rest hopen => exact renamed_open hopen
  | name name after hname ih => rw [renamed_name hname, ih, Option.getD_none, String.toList_ofList]

end Scan

namespace Renaming
variable (f g : Renaming)

/-- A second renaming meets the new names of the first one, and nothing else that is new. -/
theorem renamed_renamed (cs : List Char) :
    renamed g.name? (renamed f.name? cs) = renamed (f.andThen g).name? cs := by
  induction cs using scan_induction with
  | nil => rw [renamed_nil, renamed_nil, renamed_nil]
  | cons c rest hc ih => rw [renamed_cons hc, renamed_cons hc, renamed_cons hc, ih]
  | openName rest hopen => rw [renamed_open hopen, renamed_open hopen, renamed_open hopen]
  | name name after hname ih =>
    have hnew : ∀ c ∈ (f.apply (String.ofList name)).toList, c ≠ ';' :=
      f.apply_unclosed (by simpa using hname)
    rw [renamed_name hname, renamed_name hname, ← apply, ← apply, renamed_name hnew, ih,
      String.ofList_toList, ← apply, apply_andThen]

/-- The text of a type is scanned up to its end, and comes out as that of the renamed type. -/
theorem renamed_field (t : FieldType) (rest : List Char) :
    renamed f.name? (t.chars ++ rest) = (t.rename f).chars ++ renamed f.name? rest := by
  induction t with
  | base b => exact renamed_cons b.letter_ne.2 rest
  | object name =>
    have hchars : (FieldType.object name).chars ++ rest = 'L' :: (name.chars ++ ';' :: rest) := by
      simp [FieldType.chars]
    rw [hchars, renamed_name name.unclosed, ← apply]
    simp [FieldType.rename, FieldType.chars, className]
  | array element ih =>
    rw [FieldType.chars, List.cons_append, renamed_cons (by decide), ih]
    rfl

theorem renamed_args (args : List FieldType) (rest : List Char) :
    renamed f.name? (args.flatMap FieldType.chars ++ rest) =
      (args.map (FieldType.rename f)).flatMap FieldType.chars ++ renamed f.name? rest := by
  induction args with
  | nil => rfl
  | cons t args ih =>
    rw [List.flatMap_cons, List.append_assoc, renamed_field, ih, List.map_cons, List.flatMap_cons,
      List.append_assoc]

theorem renamed_result (result : Option FieldType) :
    renamed f.name? (MethodType.resultChars result) =
      MethodType.resultChars (result.map (FieldType.rename f)) := by
  cases result with
  | none => rw [MethodType.resultChars, renamed_cons (by decide), renamed_nil]; rfl
  | some t =>
    have h := f.renamed_field t []
    rwa [renamed_nil, List.append_nil, List.append_nil] at h

theorem renamed_method (t : MethodType) : renamed f.name? t.chars = (t.rename f).chars := by
  rw [MethodType.chars, renamed_cons (by decide), renamed_args, renamed_cons (by decide),
    renamed_result]
  rfl

theorem mapClasses_field (t : FieldType) : mapClasses f.name? t.text = (t.rename f).text := by
  have h := f.renamed_field t []
  rw [renamed_nil, List.append_nil, List.append_nil] at h
  rw [mapClasses_eq, FieldType.text, String.toList_ofList, h, FieldType.text]

theorem mapClasses_method (t : MethodType) : mapClasses f.name? t.text = (t.rename f).text := by
  rw [mapClasses_eq, MethodType.text, String.toList_ofList, renamed_method, MethodType.text]

end Renaming

/-- To rename classes in a valid descriptor gives the text of the renamed type, and of no
other type; so the slots that are counted stay the same. To rename twice is to rename once,
in any text, and where no class has a new name any text stays. -/
theorem classes_are_renamed (f g : Renaming) (desc : String) :
    (∀ w, fieldWidth desc = .ok w → ∃ t : FieldType, desc = t.text ∧
      (∀ t', mapClasses f.name? desc = FieldType.text t' ↔ t' = t.rename f) ∧
      fieldWidth (mapClasses f.name? desc) = .ok w) ∧
    (∀ shape, methodShape desc = .ok shape → ∃ t : MethodType, desc = t.text ∧
      (∀ t', mapClasses f.name? desc = MethodType.text t' ↔ t' = t.rename f) ∧
      methodShape (mapClasses f.name? desc) = .ok shape) ∧
    mapClasses g.name? (mapClasses f.name? desc) = mapClasses (f.andThen g).name? desc ∧
    mapClasses (fun _ => none) desc = desc := by
  refine ⟨fun w hw => ?_, fun shape hshape => ?_, ?_, ?_⟩
  · obtain ⟨t, rfl, rfl⟩ := fieldWidth?_eq_some.1 (fieldWidth_eq_ok.1 hw)
    rw [f.mapClasses_field]
    refine ⟨t, rfl, fun t' => ⟨fun h => (FieldType.text_inj h).symm, fun h => h ▸ rfl⟩, ?_⟩
    exact fieldWidth_eq_ok.2 (fieldWidth?_eq_some.2 ⟨_, rfl, (t.width_rename f).symm⟩)
  · obtain ⟨t, rfl, rfl⟩ := methodShape?_eq_some.1 (methodShape_eq_ok.1 hshape)
    rw [f.mapClasses_method]
    refine ⟨t, rfl, fun t' => ⟨fun h => (MethodType.text_inj h).symm, fun h => h ▸ rfl⟩, ?_⟩
    exact methodShape_eq_ok.2 (methodShape?_eq_some.2 ⟨_, rfl, (t.shape_rename f).symm⟩)
  · rw [mapClasses_eq, mapClasses_eq, mapClasses_eq, String.toList_ofList, f.renamed_renamed g]
  · rw [mapClasses_eq, renamed_none, String.ofList_toList]

/-- The class A is called L/L in the build, a name with the letter that opens names. -/
def Renaming.toSlashes : Renaming where
  name? name := if name = "A" then some "L/L" else none
  ne_empty h := by
    split at h <;> cases h
    decide
  unclosed h := by
    split at h <;> cases h
    simp

/-- The class L/L is called A again. -/
def Renaming.fromSlashes : Renaming where
  name? name := if name = "L/L" then some "A" else none
  ne_empty h := by
    split at h <;> cases h
    decide
  unclosed h := by
    split at h <;> cases h
    simp

def arrayOfA : FieldType := .array (.object ⟨['A'], by simp, by simp⟩)

def methodOfA : MethodType :=
  ⟨[.object ⟨['A'], by simp, by simp⟩, .base .long], some (.object ⟨['A'], by simp, by simp⟩)⟩

theorem slashes_are_renamed :
    fieldWidth "[LA;" = .ok 1 ∧ mapClasses Renaming.toSlashes.name? "[LA;" = "[LL/L;" ∧
    fieldWidth "[LL/L;" = .ok 1 ∧ mapClasses Renaming.fromSlashes.name? "[LL/L;" = "[LA;" ∧
    methodShape "(LA;J)LA;" = .ok ⟨3, 1⟩ ∧
    mapClasses Renaming.toSlashes.name? "(LA;J)LA;" = "(LL/L;J)LL/L;" ∧
    methodShape "(LL/L;J)LL/L;" = .ok ⟨3, 1⟩ := by
  have hfield : fieldWidth "[LA;" = .ok 1 :=
    fieldWidth_eq_ok.2 (fieldWidth?_eq_some.2 ⟨arrayOfA, rfl, rfl⟩)
  have hmethod : methodShape "(LA;J)LA;" = .ok ⟨3, 1⟩ :=
    methodShape_eq_ok.2 (methodShape?_eq_some.2 ⟨methodOfA, rfl, rfl⟩)
  obtain ⟨t, ht, htext, hwidth⟩ := (classes_are_renamed .toSlashes .fromSlashes "[LA;").1 1 hfield
  obtain ⟨u, hu, hutext, hshape⟩ :=
    (classes_are_renamed .toSlashes .fromSlashes "(LA;J)LA;").2.1 _ hmethod
  have htype : t = arrayOfA := FieldType.text_inj (ht.symm.trans rfl)
  have hutype : u = methodOfA := MethodType.text_inj (hu.symm.trans rfl)
  have hfields := (htext (arrayOfA.rename .toSlashes)).2 (congrArg _ htype.symm)
  have hmethods := (hutext (methodOfA.rename .toSlashes)).2 (congrArg _ hutype.symm)
  have hboth := (classes_are_renamed .toSlashes .fromSlashes "[LA;").2.2.1
  rw [hfields] at hwidth hboth
  rw [hmethods] at hshape
  have hback : mapClasses Renaming.fromSlashes.name? "[LL/L;" = "[LA;" :=
    hboth.trans (Renaming.mapClasses_field _ arrayOfA)
  exact ⟨hfield, hfields, hwidth, hback, hmethod, hmethods, hshape⟩

end ClassPatch.Descriptor
