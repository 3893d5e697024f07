-- Type descriptors. A field is a base letter, a class name between L and
-- a semicolon, or an array of a field; a method lists its arguments
-- between brackets and then its result. Every slot count rests on these
-- widths.
namespace ClassPatch.Descriptor

/-! ## Fields -/

/-- Longs and doubles take two slots. -/
def baseWidth? : Char → Option Nat
  | 'B' | 'C' | 'F' | 'I' | 'S' | 'Z' => some 1
  | 'J' | 'D' => some 2
  | _ => none

/-- The width of the field at the front, and the characters after it. An
array takes one slot whatever it holds. -/
def scanField (inArray : Bool) : List Char → Option (Nat × List Char)
  | [] => none
  | c :: rest =>
    if c = '[' then scanField true rest
    else if c = 'L' then
      match rest.dropWhile (· ≠ ';') with
      | [] => none
      | _ :: after => if rest.head? = some ';' then none else some (1, after)
    else (baseWidth? c).map fun w => (if inArray then 1 else w, rest)

theorem length_dropWhile_le (p : Char → Bool) (cs : List Char) :
    (cs.dropWhile p).length ≤ cs.length := by
  induction cs with
  | nil => simp
  | cons c cs ih =>
    rw [List.dropWhile_cons]
    split
    · simp only [List.length_cons]; omega
    · simp

theorem scanField_length {inArray : Bool} {cs rest : List Char} {w : Nat}
    (h : scanField inArray cs = some (w, rest)) : rest.length < cs.length := by
  induction cs generalizing inArray with
  | nil => simp [scanField] at h
  | cons c cs ih =>
    rw [scanField] at h
    split at h
    · have := ih h
      simp only [List.length_cons]; omega
    · split at h
      · have hd := length_dropWhile_le (· ≠ ';') cs
        split at h
        · cases h
        · rename_i after he
          split at h
          · cases h
          · simp only [Option.some.injEq, Prod.mk.injEq] at h
            rw [he] at hd
            simp only [List.length_cons] at hd ⊢
            rw [← h.2]; omega
      · simp only [Option.map_eq_some_iff, Prod.mk.injEq] at h
        obtain ⟨_, _, _, rfl⟩ := h
        simp

/-- The slots of a field descriptor. -/
def fieldWidth? (desc : String) : Option Nat :=
  match scanField false desc.toList with
  | some (w, []) => some w
  | _ => none

/-! ## Methods -/

/-- The slots that a call takes and gives, without its receiver. -/
structure Shape where
  argSlots : Nat
  returnSlots : Nat
deriving DecidableEq, Repr

/-- Adds up the arguments to the closing bracket. -/
def scanArgs (slots : Nat) (input : List Char) : Option (Nat × List Char) :=
  match input with
  | [] => none
  | c :: rest =>
    if c = ')' then some (slots, rest)
    else
      match _h : scanField false (c :: rest) with
      | none => none
      | some (w, after) => scanArgs (slots + w) after
termination_by input.length
decreasing_by exact scanField_length _h

/-- The width of a result, nothing for V. -/
def scanReturn? (input : List Char) : Option Nat :=
  if input = ['V'] then some 0
  else
    match scanField false input with
    | some (w, []) => some w
    | _ => none

def methodShape? (desc : String) : Option Shape :=
  match desc.toList with
  | '(' :: rest => do
    let (args, after) ← scanArgs 0 rest
    let result ← scanReturn? after
    return ⟨args, result⟩
  | _ => none

def isMethod (desc : String) : Bool := desc.toList.head? == some '('

/-! ## Class names -/

/-- Copies the characters and gives each class name a new one. -/
def renameFrom (f : String → Option String) (out : String) (input : List Char) : String :=
  match input with
  | [] => out
  | c :: rest =>
    if c ≠ 'L' then renameFrom f (out.push c) rest
    else
      match _h : rest.dropWhile (· ≠ ';') with
      | [] => out.push 'L' ++ String.ofList rest
      | _ :: after =>
        let name := String.ofList (rest.takeWhile (· ≠ ';'))
        renameFrom f ((out.push 'L' ++ (f name).getD name).push ';') after
termination_by input.length
decreasing_by
  · simp
  · have := length_dropWhile_le (· ≠ ';') rest
    rw [_h] at this
    simp only [List.length_cons] at this ⊢
    omega

/-- The descriptor with its class names changed where `f` knows them. -/
def mapClasses (f : String → Option String) (desc : String) : String :=
  renameFrom f "" desc.toList

end ClassPatch.Descriptor
