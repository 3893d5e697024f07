-- Listings. Labels are numbered in the order of their markers, so equal
-- code has an equal listing whatever its handles are.
import ClassPatch.Class

namespace ClassPatch

/-! ## Labels -/

/-- The number of each marked label, by its first marker. -/
def labelNumbers (nodes : List Node) : Std.HashMap Label Nat :=
  (markers nodes).foldl (fun m l => if m.contains l then m else m.insert l m.size) ∅

/-- A label without a marker shows its handle. -/
def labelText (numbers : Std.HashMap Label Nat) (l : Label) : String :=
  match numbers[l]? with
  | some n => s!"L{n}"
  | none => s!"L?{l}"

/-! ## Nodes -/

/-- The targets of a dense switch with the numbers they stand for. -/
def switchCases (low : Int32) (targets : List Label) : List (Int × Label) :=
  targets.zipIdx.map fun t => (low.toInt + t.2, t.1)

def casesText (name : Label → String) (cases : List (Int × Label)) (otherwise : Label) : String :=
  cases.foldl (fun out c => out ++ s!" {c.1}: {name c.2}") "" ++ s!" default: {name otherwise}"

/-- One line: markers at the margin, everything else two columns in. -/
def Insn.text (name : Label → String) : Node → String
  | .label l => name l
  | .line n => s!"  LINE {n}"
  | .simple op => s!"  {op.mnemonic}"
  | .int op v => s!"  {op.mnemonic} {v}"
  | .ldc c => s!"  LDC {c.text}"
  | .var op x => s!"  {op.mnemonic} {x.text}"
  | .iinc x delta => s!"  IINC {x.text} {delta}"
  | .jump op l => s!"  {op.mnemonic} {name l}"
  | .field op m => s!"  {op.mnemonic} {m.text}"
  | .method op m => s!"  {op.mnemonic} {m.text}"
  | .type op c => s!"  {op.mnemonic} {c}"
  | .tableSwitch low otherwise ts =>
    "  TABLESWITCH" ++ casesText name (switchCases low ts) otherwise
  | .lookupSwitch otherwise ps =>
    "  LOOKUPSWITCH" ++ casesText name (ps.map fun p => (p.1.toInt, p.2)) otherwise

def Handler.text (name : Label → String) (h : Handler) : String :=
  let caught := h.caught.getD "*"
  s!"TRYCATCH {name h.start} {name h.stop} {name h.target} {caught}"

def LocalVar.text (name : Label → String) (v : LocalVar) : String :=
  s!"LOCAL {v.name} {v.desc} {name v.start} {name v.stop} {v.slot}"

/-! ## Lists and members -/

/-- The lines, each closed, after a margin. -/
def lines (margin : String) (ls : List String) : String :=
  ls.foldl (fun out l => out ++ margin ++ l ++ "\n") ""

def Code.lines (name : Label → String) (c : Code) : List String :=
  c.toList.map (Insn.text name) ++ c.handlers.toList.map (Handler.text name)

def Code.text (c : Code) : String :=
  ClassPatch.lines "" (c.lines (labelText (labelNumbers c.toList)))

def accessText (access : UInt16) : String := "0x" ++ Text.hexPadded 4 access.toNat

def Field.text (f : Field) : String :=
  s!"field {accessText f.access} {f.name} {f.desc}" ++
    match f.value with
    | some v => " = " ++ v.text
    | none => ""

/-- A method without code is its head alone. -/
def Method.text (m : Method) : String :=
  let throws := if m.exceptions.isEmpty then "" else " throws " ++ ", ".intercalate m.exceptions
  let head := s!"method {accessText m.access} {m.name}{m.desc}{throws}\n"
  if m.code.isEmpty then head
  else
    let name := labelText (labelNumbers m.code.toList)
    head ++ lines "    " (s!"max_stack {m.maxStack}, max_locals {m.maxLocals}"
      :: m.code.lines name ++ m.locals.map (LocalVar.text name))

def Class.text (c : Class) : String :=
  let extended :=
    match c.superName with
    | some s => s!" extends {s}"
    | none => ""
  let implemented :=
    if c.interfaces.isEmpty then "" else " implements " ++ ", ".intercalate c.interfaces
  let head := s!"class {accessText c.access} {c.name}{extended}{implemented}" ++
    s!" // version {c.major}.{c.minor}\n"
  let fields := lines "  " (c.fields.map Field.text)
  c.methods.foldl (fun out m => out ++ "  " ++ m.text) (head ++ fields)

end ClassPatch
