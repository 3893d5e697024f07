-- The grammar of descriptors. A type is a tree with a text and a width, and
-- reading a descriptor accepts just the texts of types, with the widths that
-- the trees have.
import ClassPatch.Fault
import Mathlib.Algebra.Ring.Nat
import Mathlib.Data.List.TakeWhile

namespace ClassPatch.Descriptor

/-! ## Types -/

/-- The types of one letter. -/
inductive Base where
  | byte | char | float | int | short | boolean | long | double
deriving DecidableEq

def Base.letter : Base → Char
  | byte => 'B'
  | char => 'C'
  | float => 'F'
  | int => 'I'
  | short => 'S'
  | boolean => 'Z'
  | long => 'J'
  | double => 'D'

def Base.width : Base → Nat
  | long | double => 2
  | _ => 1

/-- The name of a class: any characters but a semicolon, and at least one. -/
structure ClassName where
  chars : List Char
  ne_nil : chars ≠ []
  unclosed : ∀ c ∈ chars, c ≠ ';'

inductive FieldType where
  | base (b : Base)
  | object (name : ClassName)
  | array (element : FieldType)

namespace FieldType

def chars : FieldType → List Char
  | base b => [b.letter]
  | object name => 'L' :: (name.chars ++ [';'])
  | array element => '[' :: element.chars

def text (t : FieldType) : String := String.ofList t.chars

def width : FieldType → Nat
  | base b => b.width
  | _ => 1

end FieldType

/-- The type of a method; one without a result gives nothing. -/
structure MethodType where
  args : List FieldType
  result : Option FieldType

namespace MethodType

/-- What stands for a result, V for none. -/
def resultChars (result : Option FieldType) : List Char :=
  match result with
  | some t => t.chars
  | none => ['V']

def resultWidth (result : Option FieldType) : Nat := (result.map FieldType.width).getD 0

def chars (t : MethodType) : List Char :=
  '(' :: (t.args.flatMap FieldType.chars ++ ')' :: resultChars t.result)

def text (t : MethodType) : String := String.ofList t.chars

def shape (t : MethodType) : Shape := ⟨(t.args.map FieldType.width).sum, resultWidth t.result⟩

end MethodType

/-! ## One type at the front -/

theorem baseWidth?_eq_some {c : Char} {w : Nat} :
    baseWidth? c = some w ↔ ∃ b : Base, c = b.letter ∧ w = b.width := by
  constructor
  · intro h
    unfold baseWidth? at h
    split at h <;> cases h
    exacts [⟨.byte, rfl, rfl⟩, ⟨.char, rfl, rfl⟩, ⟨.float, rfl, rfl⟩, ⟨.int, rfl, rfl⟩,
      ⟨.short, rfl, rfl⟩, ⟨.boolean, rfl, rfl⟩, ⟨.long, rfl, rfl⟩, ⟨.double, rfl, rfl⟩]
  · rintro ⟨b, rfl, rfl⟩
    cases b <;> rfl

/-- The letter of a base type starts no other type. -/
theorem Base.letter_ne (b : Base) : b.letter ≠ '[' ∧ b.letter ≠ 'L' := by
  cases b <;> decide

/-- A name ends at the first semicolon. -/
theorem ClassName.dropWhile (name : ClassName) (rest : List Char) :
    (name.chars ++ ';' :: rest).dropWhile (· ≠ ';') = ';' :: rest := by
  rw [List.dropWhile_append_of_pos fun c hc => decide_eq_true (name.unclosed c hc)]
  rfl

theorem ClassName.head?_ne (name : ClassName) (rest : List Char) :
    (name.chars ++ ';' :: rest).head? ≠ some ';' := by
  obtain ⟨c, cs, hcs⟩ := List.exists_cons_of_ne_nil name.ne_nil
  have hc := name.unclosed c (hcs ▸ List.mem_cons_self ..)
  rw [hcs]
  exact fun h => hc (Option.some.inj h)

/-- The text of a type is read up to its end. Inside an array its width does not count. -/
theorem scanField_chars (t : FieldType) (inArray : Bool) (rest : List Char) :
    scanField inArray (t.chars ++ rest) = some (if inArray then 1 else t.width, rest) := by
  induction t generalizing inArray with
  | base b =>
    obtain ⟨harray, hobject⟩ := b.letter_ne
    have hwidth := baseWidth?_eq_some.2 ⟨b, rfl, rfl⟩
    simp only [FieldType.chars, List.singleton_append, scanField, if_neg harray, if_neg hobject,
      hwidth, Option.map_some, FieldType.width]
  | object name =>
    have hchars : (FieldType.object name).chars ++ rest = 'L' :: (name.chars ++ ';' :: rest) := by
      simp [FieldType.chars]
    rw [hchars, scanField, if_neg (by decide), if_pos rfl, name.dropWhile]
    simp only [if_neg (name.head?_ne rest), FieldType.width, ite_self]
  | array element ih =>
    rw [FieldType.chars, List.cons_append, scanField, if_pos rfl, ih true]
    simp [FieldType.width]

/-- The characters before the first semicolon, and those behind it. -/
theorem split_at_semicolon {cs after : List Char} {x : Char}
    (hdrop : cs.dropWhile (· ≠ ';') = x :: after) :
    cs = cs.takeWhile (· ≠ ';') ++ ';' :: after ∧ ∀ c ∈ cs.takeWhile (· ≠ ';'), c ≠ ';' := by
  have hx : x = ';' := by
    have := List.head?_dropWhile_not (fun c : Char => decide (c ≠ ';')) cs
    rw [hdrop] at this
    simpa using this
  constructor
  · rw [hx] at hdrop
    exact hdrop ▸ List.takeWhile_append_dropWhile.symm
  · intro c hc
    exact of_decide_eq_true (List.mem_takeWhile_imp (p := fun c => decide (c ≠ ';')) hc)

/-- Up to a semicolon that does not come first, the characters are a name. -/
theorem exists_name {cs after : List Char} {x : Char}
    (hdrop : cs.dropWhile (· ≠ ';') = x :: after) (hhead : cs.head? ≠ some ';') :
    ∃ name : ClassName, cs = name.chars ++ ';' :: after := by
  obtain ⟨hsplit, hunclosed⟩ := split_at_semicolon hdrop
  refine ⟨⟨cs.takeWhile (· ≠ ';'), fun hnil => ?_, hunclosed⟩, hsplit⟩
  rw [hnil] at hsplit
  exact hhead (hsplit ▸ rfl)

/-- What is read of a field is the text of a type. -/
theorem exists_of_scanField {inArray : Bool} {cs rest : List Char} {w : Nat}
    (h : scanField inArray cs = some (w, rest)) :
    ∃ t : FieldType, cs = t.chars ++ rest ∧ w = if inArray then 1 else t.width := by
  induction cs generalizing inArray with
  | nil => cases h
  | cons c cs ih =>
    rw [scanField] at h
    split at h
    · rename_i hc
      obtain ⟨t, rfl, rfl⟩ := ih h
      exact ⟨.array t, by rw [hc]; rfl, by simp [FieldType.width]⟩
    split at h
    · rename_i hc
      split at h
      · cases h
      · rename_i x after hdrop
        split at h
        · cases h
        · rename_i hhead
          cases h
          obtain ⟨name, rfl⟩ := exists_name hdrop hhead
          exact ⟨.object name, by simp [hc, FieldType.chars], by simp [FieldType.width]⟩
    · obtain ⟨w', hw, he⟩ := Option.map_eq_some_iff.1 h
      obtain ⟨b, rfl, rfl⟩ := baseWidth?_eq_some.1 hw
      cases he
      exact ⟨.base b, rfl, rfl⟩

theorem scanField_eq_some {cs rest : List Char} {w : Nat} :
    scanField false cs = some (w, rest) ↔ ∃ t : FieldType, cs = t.chars ++ rest ∧ w = t.width := by
  constructor
  · exact exists_of_scanField
  · rintro ⟨t, rfl, rfl⟩
    exact scanField_chars t false rest

/-! ## Arguments and results -/

/-- No type starts with a closing bracket, so the arguments end there. -/
theorem FieldType.head_ne (t : FieldType) : ∃ c cs, t.chars = c :: cs ∧ c ≠ ')' := by
  cases t with
  | base b => exact ⟨_, [], rfl, by cases b <;> decide⟩
  | object name => exact ⟨_, _, rfl, by decide⟩
  | array element => exact ⟨_, _, rfl, by decide⟩

theorem scanArgs_cons (slots : Nat) (t : FieldType) (rest : List Char) :
    scanArgs slots (t.chars ++ rest) = scanArgs (slots + t.width) rest := by
  obtain ⟨c, cs, hchars, hc⟩ := t.head_ne
  have hscan : scanField false (c :: (cs ++ rest)) = some (t.width, rest) := by
    have := scanField_chars t false rest
    rwa [hchars] at this
  rw [hchars, List.cons_append, scanArgs, if_neg hc]
  split
  · rename_i hnone
    cases hscan.symm.trans hnone
  · rename_i hsome
    cases hscan.symm.trans hsome
    rfl

theorem scanArgs_chars (slots : Nat) (args : List FieldType) (after : List Char) :
    scanArgs slots (args.flatMap FieldType.chars ++ ')' :: after) =
      some (slots + (args.map FieldType.width).sum, after) := by
  induction args generalizing slots with
  | nil =>
    rw [List.flatMap_nil, List.nil_append, scanArgs, if_pos rfl]
    rfl
  | cons t args ih =>
    rw [List.flatMap_cons, List.append_assoc, scanArgs_cons, ih, List.map_cons, List.sum_cons,
      Nat.add_assoc]

/-- What is read up to the closing bracket are the texts of some types. -/
theorem exists_of_scanArgs {slots n : Nat} {cs after : List Char}
    (h : scanArgs slots cs = some (n, after)) :
    ∃ args : List FieldType, cs = args.flatMap FieldType.chars ++ ')' :: after ∧
      n = slots + (args.map FieldType.width).sum := by
  fun_induction scanArgs slots cs with
  | case1 => cases h
  | case2 slots rest =>
    cases h
    exact ⟨[], rfl, rfl⟩
  | case3 => cases h
  | case4 slots c rest hc w after' hscan ih =>
    obtain ⟨t, ht, rfl⟩ := scanField_eq_some.1 hscan
    obtain ⟨args, rfl, rfl⟩ := ih h
    refine ⟨t :: args, ?_, ?_⟩
    · rw [ht, List.flatMap_cons, List.append_assoc]
    · rw [List.map_cons, List.sum_cons, Nat.add_assoc]

theorem scanArgs_eq_some {cs after : List Char} {n : Nat} :
    scanArgs 0 cs = some (n, after) ↔ ∃ args : List FieldType,
      cs = args.flatMap FieldType.chars ++ ')' :: after ∧ n = (args.map FieldType.width).sum := by
  constructor
  · intro h
    simpa using exists_of_scanArgs h
  · rintro ⟨args, rfl, rfl⟩
    rw [scanArgs_chars, Nat.zero_add]

theorem scanReturn?_eq_some {cs : List Char} {w : Nat} :
    scanReturn? cs = some w ↔ ∃ result : Option FieldType,
      cs = MethodType.resultChars result ∧ w = MethodType.resultWidth result := by
  unfold scanReturn?
  split
  · rename_i hvoid
    constructor
    · rintro ⟨⟩
      exact ⟨none, hvoid, rfl⟩
    · rintro ⟨result, hchars, rfl⟩
      cases result with
      | none => rfl
      | some t =>
        have hbase := hvoid.symm.trans hchars
        cases t with
        | base b => cases b <;> cases hbase
        | object name => cases hbase
        | array element => cases hbase
  · rename_i hvalue
    constructor
    · intro h
      split at h
      · rename_i hscan
        cases h
        obtain ⟨t, rfl, rfl⟩ := scanField_eq_some.1 hscan
        exact ⟨some t, List.append_nil _, rfl⟩
      · cases h
    · rintro ⟨result, rfl, rfl⟩
      cases result with
      | none => exact absurd rfl hvalue
      | some t =>
        have hscan : scanField false (MethodType.resultChars (some t)) = some (t.width, []) :=
          scanField_eq_some.2 ⟨t, (List.append_nil _).symm, rfl⟩
        rw [hscan]
        rfl

/-! ## Whole descriptors -/

theorem eq_text_iff {desc : String} {cs : List Char} :
    desc = String.ofList cs ↔ desc.toList = cs := by
  constructor
  · rintro rfl
    exact String.toList_ofList
  · rintro rfl
    exact String.ofList_toList.symm

theorem fieldWidth?_eq_some {desc : String} {w : Nat} :
    fieldWidth? desc = some w ↔ ∃ t : FieldType, desc = t.text ∧ w = t.width := by
  have hscan : fieldWidth? desc = some w ↔ scanField false desc.toList = some (w, []) := by
    unfold fieldWidth?
    split
    · rename_i hwhole
      simp [hwhole]
    · rename_i hnot
      exact ⟨nofun, fun hwhole => (hnot w hwhole).elim⟩
  rw [hscan, scanField_eq_some]
  simp only [List.append_nil, FieldType.text, eq_text_iff]

/-- A method is read in three parts: its opening bracket, its arguments and its result. -/
theorem methodShape?_eq_some_iff_parts {desc : String} {shape : Shape} :
    methodShape? desc = some shape ↔ ∃ rest args after result, desc.toList = '(' :: rest ∧
      scanArgs 0 rest = some (args, after) ∧ scanReturn? after = some result ∧
        shape = ⟨args, result⟩ := by
  unfold methodShape?
  split
  · rename_i rest hdesc
    rw [hdesc]
    constructor
    · intro h
      obtain ⟨⟨args, after⟩, hargs, h⟩ := Option.bind_eq_some_iff.1 h
      obtain ⟨result, hresult, h⟩ := Option.bind_eq_some_iff.1 h
      cases h
      exact ⟨rest, args, after, result, rfl, hargs, hresult, rfl⟩
    · rintro ⟨_, args, after, result, ⟨⟩, hargs, hresult, rfl⟩
      exact Option.bind_eq_some_iff.2 ⟨_, hargs, Option.bind_eq_some_iff.2 ⟨_, hresult, rfl⟩⟩
  · rename_i hdesc
    exact ⟨nofun, fun ⟨rest, _, _, _, h, _⟩ => (hdesc rest h).elim⟩

theorem methodShape?_eq_some {desc : String} {shape : Shape} :
    methodShape? desc = some shape ↔ ∃ t : MethodType, desc = t.text ∧ shape = t.shape := by
  rw [methodShape?_eq_some_iff_parts]
  constructor
  · rintro ⟨rest, n, after, result, hdesc, hargs, hresult, rfl⟩
    obtain ⟨args, rfl, rfl⟩ := scanArgs_eq_some.1 hargs
    obtain ⟨result, rfl, rfl⟩ := scanReturn?_eq_some.1 hresult
    exact ⟨⟨args, result⟩, eq_text_iff.2 hdesc, rfl⟩
  · rintro ⟨t, hdesc, rfl⟩
    exact ⟨_, _, _, _, eq_text_iff.1 hdesc, scanArgs_eq_some.2 ⟨t.args, rfl, rfl⟩,
      scanReturn?_eq_some.2 ⟨t.result, rfl, rfl⟩, rfl⟩

theorem fieldWidth_eq_error {desc : String} {f : Fault} :
    fieldWidth desc = .error f ↔ fieldWidth? desc = none ∧ f = .invalidDescriptor desc := by
  unfold fieldWidth
  cases fieldWidth? desc <;> simp [eq_comm]

theorem methodShape_eq_error {desc : String} {f : Fault} :
    methodShape desc = .error f ↔ methodShape? desc = none ∧ f = .invalidDescriptor desc := by
  unfold methodShape
  cases methodShape? desc <;> simp [eq_comm]

/-- A field descriptor is accepted just if it is the text of a type, with the width of the
type: two slots for a long or a double and one for anything else. A method descriptor is
accepted just if it is the text of a method's type, with the widths of its arguments added
up and the width of its result. Anything else is refused by name. -/
theorem descriptors_follow_grammar (desc : String) :
    (∀ w, fieldWidth desc = .ok w ↔ ∃ t : FieldType, desc = t.text ∧ w = t.width) ∧
    (∀ shape, methodShape desc = .ok shape ↔ ∃ t : MethodType, desc = t.text ∧ shape = t.shape) ∧
    (∀ f, fieldWidth desc = .error f ↔
      (∀ t : FieldType, desc ≠ t.text) ∧ f = .invalidDescriptor desc) ∧
    ∀ f, methodShape desc = .error f ↔
      (∀ t : MethodType, desc ≠ t.text) ∧ f = .invalidDescriptor desc := by
  refine ⟨fun w => fieldWidth_eq_ok.trans fieldWidth?_eq_some,
    fun shape => methodShape_eq_ok.trans methodShape?_eq_some, fun f => ?_, fun f => ?_⟩
  · rw [fieldWidth_eq_error, Option.eq_none_iff_forall_ne_some]
    simp only [ne_eq, fieldWidth?_eq_some, not_exists, not_and]
    exact and_congr_left fun _ => ⟨fun h t ht => h _ t ht rfl, fun h w t ht _ => h t ht⟩
  · rw [methodShape_eq_error, Option.eq_none_iff_forall_ne_some]
    simp only [ne_eq, methodShape?_eq_some, not_exists, not_and]
    exact and_congr_left fun _ => ⟨fun h t ht => h _ t ht rfl, fun h w t ht _ => h t ht⟩

example : (⟨[.base .int, .array (.base .long)], some (.base .double)⟩ : MethodType).text =
    "(I[J)D" := rfl

end ClassPatch.Descriptor
