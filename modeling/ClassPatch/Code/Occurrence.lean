-- Finding a needle in code. Nodes match by opcode and operands; labels
-- and temporaries match by what they were tied to first. Line numbers do
-- not count, and markers of the host count only where the needle has one.
import ClassPatch.Code.Binding

namespace ClassPatch.Code

/-! ## What labels and temporaries stand for -/

/-- What a candidate has tied down so far. -/
structure Ties where
  /-- The host's label for a label of the needle. -/
  fixed : Dict Label Label := []
  /-- The host's labels at the place of a needle's marker, until a branch picks one. -/
  runs : Dict Label (List Label) := []
  /-- The host's slot for a temporary. -/
  slots : Dict UInt16 UInt16 := []

namespace Ties

/-- A branch of the needle meets a branch of the host. -/
def target (t : Ties) (needle host : Label) : Option Ties :=
  match t.fixed.get? needle with
  | some l => if l = host then some t else none
  | none =>
    match t.runs.get? needle with
    | some run =>
      if run.contains host then some { t with fixed := t.fixed.insert needle host } else none
    | none => some { t with fixed := t.fixed.insert needle host }

/-- A marker of the needle meets the markers at one place of the host. -/
def marker (run : List Label) (t : Ties) (needle : Label) : Option Ties :=
  match t.fixed.get? needle with
  | some l => if run.contains l then some t else none
  | none => some { t with runs := t.runs.insert needle run }

def local? (t : Ties) (needle host : Local) : Option Ties :=
  match needle, host with
  | .temp n, .slot s =>
    match t.slots.get? n with
    | some s' => if s' = s then some t else none
    | none => some { t with slots := t.slots.insert n s }
  | _, _ => if needle = host then some t else none

/-- A label that only stood as a marker is tied to the first marker there. -/
def settle (fixed : Dict Label Label) (e : Label × List Label) : Dict Label Label :=
  match e.2 with
  | [] => fixed
  | l :: _ => if fixed.contains e.1 then fixed else fixed.insert e.1 l

def labels (t : Ties) : Dict Label Label := t.runs.foldl settle t.fixed

end Ties

/-- Two lists of branches meet, one after the other. -/
def matchTargets (t : Ties) : List Label → List Label → Option Ties
  | [], [] => some t
  | a :: as, b :: bs =>
    match t.target a b with
    | some t => matchTargets t as bs
    | none => none
  | _, _ => none

/-- A node of the needle meets a node of the host. -/
def matchNode (t : Ties) (needle host : Node) : Option Ties :=
  match needle, host with
  | .simple a, .simple b => if a = b then some t else none
  | .int a x, .int b y => if a = b ∧ x = y then some t else none
  | .ldc a, .ldc b => if a = b then some t else none
  | .var a x, .var b y => if a = b then t.local? x y else none
  | .iinc x a, .iinc y b => if a = b then t.local? x y else none
  | .jump a x, .jump b y => if a = b then t.target x y else none
  | .field a x, .field b y => if a = b ∧ x = y then some t else none
  | .method a x, .method b y => if a = b ∧ x = y then some t else none
  | .type a x, .type b y => if a = b ∧ x = y then some t else none
  | .tableSwitch a d ts, .tableSwitch b d' ts' =>
    if a = b then matchTargets t (d :: ts) (d' :: ts') else none
  | .lookupSwitch d ps, .lookupSwitch d' ps' =>
    if ps.map (·.1) = ps'.map (·.1) then
      matchTargets t (d :: ps.map (·.2)) (d' :: ps'.map (·.2))
    else none
  | _, _ => none

/-! ## Candidates -/

/-- The needle in pieces: groups of markers and single real nodes. Lines
are dropped. -/
inductive Piece where
  | place (labels : List Label)
  | node (i : Node)

/-- Puts a node before pieces; markers side by side make one group. -/
def addPiece (i : Node) (pieces : List Piece) : List Piece :=
  match i with
  | .line _ => pieces
  | .label l =>
    match pieces with
    | .place ls :: rest => .place (l :: ls) :: rest
    | _ => .place [l] :: pieces
  | _ => .node i :: pieces

def pieces (needle : List Node) : List Piece := needle.foldr addPiece []

/-- Matches the pieces at the front of the nodes; `index` is the place of
the first of them. Gives the ties and the index after the last match. -/
def matchPieces (t : Ties) (index : Nat) : List Piece → List Node → Option (Ties × Nat)
  | [], _ => some (t, index)
  | .place ls :: ps, nodes =>
    let lead := nodes.takeWhile Insn.isPseudo
    let run := markers lead
    if run.isEmpty then none
    else
      match ls.foldlM (Ties.marker run) t with
      | some t => matchPieces t (index + lead.length) ps (nodes.dropWhile Insn.isPseudo)
      | none => none
  | .node i :: ps, nodes =>
    match nodes.dropWhile Insn.isPseudo with
    | [] => none
    | h :: rest =>
      match matchNode t i h with
      | some t => matchPieces t (index + (nodes.takeWhile Insn.isPseudo).length + 1) ps rest
      | none => none

/-- A needle that starts with a marker starts at a marker of the host, any
other one at a real node. -/
def startsWell : List Piece → Node → Bool
  | .place _ :: _, .label _ => true
  | .node _ :: _, i => i.isReal
  | _, _ => false

/-- No place of a protected range lies among the nodes. -/
def keepsRanges (boundaries : Std.HashSet Label) (inner : List Node) : Bool :=
  inner.all fun node =>
    match node.marker? with
    | some l => !boundaries.contains l
    | none => true

/-- The occurrence that starts at the first of the nodes. Only its first
node may mark an end of a protected range. -/
def occurrence? (boundaries : Std.HashSet Label) (ps : List Piece) (start : Nat) :
    List Node → Option Region
  | [] => none
  | i :: rest =>
    if startsWell ps i then
      match matchPieces {} start ps (i :: rest) with
      | none => none
      | some (t, stop) =>
        if keepsRanges boundaries (rest.take (stop - start - 1)) then
          some ⟨start, stop, t.labels, t.slots⟩
        else none
    else none

/-- The labels of all protected ranges. -/
def boundaries (c : Code) : Std.HashSet Label :=
  Std.HashSet.ofList (c.handlers.toList.flatMap Handler.labels)

/-- Looks for occurrences from the front, `start` being the index of the
first node; `skip` nodes belong to the last occurrence still. The latest
region comes first. -/
def findFrom (boundaries : Std.HashSet Label) (ps : List Piece) (found : List Region)
    (skip start : Nat) : List Node → List Region
  | [] => found.reverse
  | i :: rest =>
    match skip with
    | skip + 1 => findFrom boundaries ps found skip (start + 1) rest
    | 0 =>
      match occurrence? boundaries ps start (i :: rest) with
      | some r => findFrom boundaries ps (r :: found) (r.stop - start - 1) (start + 1) rest
      | none => findFrom boundaries ps found 0 (start + 1) rest

/-- All occurrences of a needle, from the front, none overlapping another.
A needle without nodes occurs nowhere. -/
def findAll (host needle : Code) : List Region :=
  match pieces needle.toList with
  | [] => []
  | ps => findFrom host.boundaries ps [] 0 0 host.toList

end ClassPatch.Code
