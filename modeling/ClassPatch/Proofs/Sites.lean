-- Many places of one method, edited one after the other, come out as if all
-- were edited at once in the code as it was. One turn leaves a finished part
-- in front of the code's old nodes, and the shift is by how much the finished
-- part is longer than the nodes it stands for.
import ClassPatch.Edit
import ClassPatch.Proofs.Captures
import ClassPatch.Proofs.Naming
import ClassPatch.Proofs.Regions

namespace ClassPatch

/-! ## Where code goes -/

/-- Where code goes at an occurrence: in the place of the whole of it, before
it or after it. -/
inductive Spot where
  | whole | before | after

namespace Spot

/-- The first of the nodes whose place the code takes. -/
def first : Spot → Region → Nat
  | .whole, r | .before, r => r.start
  | .after, r => r.stop

/-- The node after those whose place the code takes. -/
def last : Spot → Region → Nat
  | .before, r => r.start
  | .whole, r | .after, r => r.stop

/-- The nodes whose place the code takes: those of the occurrence, or none. -/
def gap (spot : Spot) (nodes : List Node) (r : Region) : List Node :=
  (nodes.drop (spot.first r)).take (spot.last r - spot.first r)

/-- Code in the place of an occurrence takes its markers over. -/
def pulls : Spot → Bool
  | .whole => true
  | .before | .after => false

/-- What an edit does at one occurrence. -/
def step (spot : Spot) (needle code : Code) : Edit.Progress → Region → Edit.Progress :=
  match spot with
  | .whole => Edit.replaceAt needle code
  | .before => Edit.injectAt needle code true
  | .after => Edit.injectAt needle code false

/-- A replace, or an inject with a needle. -/
def edit (spot : Spot) (needle code : Code) : Method → Nat × Method :=
  match spot with
  | .whole => Edit.replaceIn needle code
  | .before => Edit.injectInto (some needle) code true
  | .after => Edit.injectInto (some needle) code false

theorem edit_eq (spot : Spot) (needle code : Code) (m : Method) :
    spot.edit needle code m = Edit.atEach needle (spot.step needle code) m := by
  cases spot <;> rfl

/-- The method's list has no more nodes than a word can count, at any time of the edit. -/
def Indexable (spot : Spot) (needle code : Code) (m : Method) : Prop :=
  ∀ n, (((m.code.findAll needle).take n).foldl (spot.step needle code)
    { method := m }).method.code.size ≤ Region.lastIndex

end Spot

/-! ## The edit at once -/

/-- One occurrence with the nodes that its copy of the code became. -/
structure Site where
  region : Region
  segment : List Node
  /-- What the code's labels and temporaries stand for here. -/
  naming : Assignment

/-- The label of the code stands for a label of this site's own. -/
def Site.Own (needle code : Code) (s : Site) (l : Label) : Prop :=
  Unbound code (needle.bindingAt s.region) l

/-- The site's instructions are the code's. Bound labels and captured
temporaries stand for what the occurrence gives; other labels for different
ones, none of them among the first `size` handles of the host. -/
structure Site.Faithful (needle code : Code) (size : Nat) (s : Site) : Prop where
  copies : realNodes s.segment = (realNodes code.toList).map s.naming.onNode
  bound : ∀ l h, (needle.bindingAt s.region).host? code l = some h → s.naming.label l = h
  captured : ∀ t n, s.region.slots.get? t = some n → s.naming.slot t = n
  fresh : ∀ l, s.Own needle code l → size ≤ s.naming.label l
  distinct : ∀ l l', s.Own needle code l → s.Own needle code l' →
    s.naming.label l = s.naming.label l' → l = l'

/-- The nodes from index `n` on, with each site's segment in its gap. -/
def substituted (spot : Spot) (nodes : List Node) : Nat → List Site → List Node
  | n, [] => nodes.drop n
  | n, s :: sites =>
    (nodes.drop n).take (spot.first s.region - n) ++ s.segment ++
      substituted spot nodes (spot.last s.region) sites

/-- What the sites of some regions are like, between the code before the
first of them is edited and after the last one is. -/
structure Sited (spot : Spot) (needle code : Code) (nodes : List Node) (old new : Code)
    (regions : List Region) (sites : List Site) : Prop where
  regions : sites.map Site.region = regions
  faithful : ∀ s ∈ sites, s.Faithful needle code old.store.size
  apart : sites.Pairwise fun s s' => ∀ l l', s.Own needle code l → s'.Own needle code l' →
    s.naming.label l ≠ s'.naming.label l'
  untouched : ∀ l ∈ markers old.toList, (∀ s ∈ sites, l ∉ markers (spot.gap nodes s.region)) →
    ∀ s ∈ sites, l ∉ markers s.segment
  handlers : ∃ own, new.handlers.toList = own ++ old.handlers.toList

/-- The result is the method with all gaps filled at once, and the number of the sites. -/
structure Simultaneous (spot : Spot) (needle code : Code) (m : Method) (result : Nat × Method)
    (sites : List Site) : Prop extends
    Sited spot needle code m.code.toList m.code result.2.code (m.code.findAll needle) sites where
  count : result.1 = sites.length
  bounded : ∀ s ∈ sites, spot.first s.region ≤ spot.last s.region ∧
    spot.last s.region ≤ m.code.toList.length
  ordered : sites.Pairwise fun s s' => spot.last s.region ≤ spot.first s'.region
  nodes : result.2.code.toList = substituted spot m.code.toList 0 sites

theorem Site.Faithful.mono {needle code : Code} {size size' : Nat} {s : Site}
    (h : s.Faithful needle code size) (hle : size' ≤ size) : s.Faithful needle code size' :=
  ⟨h.copies, h.bound, h.captured, fun l hl => Nat.le_trans hle (h.fresh l hl), h.distinct⟩

/-! ## One turn -/

namespace Spot
variable {spot : Spot} {needle code : Code} {r : Region}

theorem first_shifted (spot : Spot) (r : Region) (distance : Int) :
    spot.first (r.shifted distance) = Region.moveIndex (spot.first r) distance := by
  cases spot <;> rfl

theorem last_shifted (spot : Spot) (r : Region) (distance : Int) :
    spot.last (r.shifted distance) = Region.moveIndex (spot.last r) distance := by
  cases spot <;> rfl

theorem first_le_last (hr : r.start < r.stop) : spot.first r ≤ spot.last r := by
  cases spot <;> simp [first, last, Nat.le_of_lt hr]

theorem last_le (hr : r.start < r.stop) : spot.last r ≤ r.stop := by
  cases spot <;> simp [last, Nat.le_of_lt hr]

theorem start_le_first (hr : r.start < r.stop) : r.start ≤ spot.first r := by
  cases spot <;> simp [first, Nat.le_of_lt hr]

/-- A turn splices the fragment into the gap that the region is shifted to. -/
theorem step_eq (spot : Spot) (needle code : Code) (p : Edit.Progress) (r : Region) :
    let gap := r.shifted p.shift
    let count := spot.last gap - spot.first gap
    let result := p.method.splice (spot.first gap) count
      (code.copy.bind spot.pulls (needle.bindingAt r))
    spot.step needle code p r =
      { method := result.2, shift := p.shift + result.1 - count } := by
  cases spot with
  | whole => rfl
  | before | after => simp [step, Edit.injectAt, first, last, Method.insertBefore,
      Method.insertAfter, Method.insertAt, pulls, Code.mergeLabels, Code.bindingAt, Region.shifted]

end Spot

theorem Region.moveIndex_of_le {index done : Nat} {front : Nat} (hle : done ≤ index)
    (hlast : front + (index - done) ≤ lastIndex) :
    moveIndex index ((front : Int) - done) = front + (index - done) := by
  unfold moveIndex
  omega

/-- Some turns are done: the first `n` nodes have become the front. -/
structure Edit.Progress.At (nodes front : List Node) (n : Nat) (p : Edit.Progress) : Prop where
  stored : p.method.code.Stored
  toList : p.method.code.toList = front ++ nodes.drop n
  shift : p.shift = front.length - n

/-- What goes into a method for one occurrence. -/
def fragmentAt (spot : Spot) (needle code : Code) (m : Method) (r : Region) : Code :=
  fragmentFor m code spot.pulls (needle.bindingAt r)

/-- The site that a turn makes. -/
def siteAt (spot : Spot) (needle code : Code) (front : List Node) (n : Nat) (p : Edit.Progress)
    (r : Region) : Site where
  region := r
  segment := Code.insertion p.method.code (front.length + (spot.first r - n))
    (spot.last r - spot.first r) (fragmentAt spot needle code p.method r)
  naming := namingFor p.method code spot.pulls (needle.bindingAt r)

section Turn
variable {spot : Spot} {needle code : Code} {nodes front : List Node} {n : Nat}
  {p : Edit.Progress} {r : Region}

/-- A turn finds its gap where the front ends. -/
theorem Edit.Progress.At.step (h : p.At nodes front n) (hn : n ≤ spot.first r)
    (hr : r.start < r.stop) (hlast : spot.last r ≤ nodes.length)
    (hsize : p.method.code.size ≤ Region.lastIndex) :
    let result := p.method.code.splice (front.length + (spot.first r - n))
      (spot.last r - spot.first r) (fragmentAt spot needle code p.method r)
    (spot.step needle code p r).method.code = result.2 ∧
      (spot.step needle code p r).shift =
        p.shift + result.1 - (spot.last r - spot.first r : Nat) := by
  have hle := spot.first_le_last hr
  have hlen : p.method.code.size = front.length + (nodes.length - n) := by
    have := length_nodesOf h.stored.made
    rw [← Code.toList, h.toList, List.length_append, List.length_drop] at this
    exact this.symm
  have hfirst : spot.first (r.shifted p.shift) = front.length + (spot.first r - n) := by
    rw [Spot.first_shifted, h.shift]
    exact Region.moveIndex_of_le hn (by omega)
  have hlast : spot.last (r.shifted p.shift) = front.length + (spot.last r - n) := by
    rw [Spot.last_shifted, h.shift]
    exact Region.moveIndex_of_le (by omega) (by omega)
  have hcount : spot.last (r.shifted p.shift) - spot.first (r.shifted p.shift) =
      spot.last r - spot.first r := by omega
  rw [Spot.step_eq, hcount, hfirst]
  exact ⟨rfl, rfl⟩

/-- What the list still has of the nodes that it had. -/
theorem Edit.Progress.At.drop (h : p.At nodes front n) {i : Nat} (hn : n ≤ i) :
    p.method.code.toList.drop (front.length + (i - n)) = nodes.drop i := by
  rw [h.toList, List.drop_length_add_append, List.drop_drop]
  congr 1
  omega

theorem Edit.Progress.At.take (h : p.At nodes front n) (k : Nat) :
    p.method.code.toList.take (front.length + k) = front ++ (nodes.drop n).take k := by
  rw [h.toList, List.take_length_add_append]

/-- What holds while a region is edited: it lies past the front, and the
fragment binds labels of the method. -/
structure Turn (spot : Spot) (needle code : Code) (nodes front : List Node) (n : Nat)
    (p : Edit.Progress) (r : Region) : Prop where
  reached : p.At nodes front n
  le_first : n ≤ spot.first r
  start_lt : r.start < r.stop
  last_le : spot.last r ≤ nodes.length
  indexed : p.method.code.size ≤ Region.lastIndex
  binds : (fragmentAt spot needle code p.method r).Binds p.method.code

theorem Turn.code_step (t : Turn spot needle code nodes front n p r) :
    (spot.step needle code p r).method.code =
      (p.method.code.splice (front.length + (spot.first r - n)) (spot.last r - spot.first r)
        (fragmentAt spot needle code p.method r)).2 :=
  (t.reached.step t.le_first t.start_lt t.last_le t.indexed).1

theorem Turn.gap_eq (t : Turn spot needle code nodes front n p r) :
    (p.method.code.toList.drop (front.length + (spot.first r - n))).take
      (spot.last r - spot.first r) = spot.gap nodes r := by
  rw [t.reached.drop t.le_first]
  rfl

/-- A turn puts the site after the nodes before it, and the front ends there. -/
theorem Turn.at_step (t : Turn spot needle code nodes front n p r) :
    (spot.step needle code p r).At nodes
      (front ++ (nodes.drop n).take (spot.first r - n) ++
        (siteAt spot needle code front n p r).segment) (spot.last r) := by
  have hle := spot.first_le_last t.start_lt
  have hn := t.le_first
  have hlast := t.last_le
  have hstored := t.reached.stored
  obtain ⟨hcode, hshift⟩ := t.reached.step t.le_first t.start_lt t.last_le t.indexed
  refine ⟨?_, ?_, ?_⟩
  · rw [hcode]
    exact Code.stored_splice hstored t.binds _ _
  · rw [hcode, Code.toList_splice hstored t.binds, t.reached.take, siteAt,
      show front.length + (spot.first r - n) + (spot.last r - spot.first r) =
        front.length + (spot.last r - n) by omega, t.reached.drop (by omega)]
  · rw [hshift, t.reached.shift, ← Code.length_insertion hstored t.binds]
    simp only [siteAt, List.length_append, List.length_take, List.length_drop]
    omega

theorem Turn.retains_step (t : Turn spot needle code nodes front n p r) :
    Retains p.method.code.store (spot.step needle code p r).method.code.store := by
  rw [t.code_step]
  exact Code.retains_splice t.reached.stored t.binds _ _

theorem Turn.faithful_site (t : Turn spot needle code nodes front n p r) :
    (siteAt spot needle code front n p r).Faithful needle code p.method.code.store.size := by
  have ho := t.reached.stored.own
  refine ⟨realNodes_template t.reached.stored t.binds _ _, ?_, ?_, ?_, ?_⟩
  · exact fun l h hl => label_of_host? ho hl
  · intro k s hs
    have : (needle.bindingAt r).slots.get? k = some s := hs
    simp [siteAt, namingFor, this]
  · exact fun l hl => (label_of_unbound ho hl).1
  · exact fun l l' hl hl' => (label_of_unbound ho hl).2.2 l' hl'

/-- The site's own labels are labels of the method after the turn. -/
theorem Turn.lt_size_step (t : Turn spot needle code nodes front n p r) {l : Label}
    (hl : (siteAt spot needle code front n p r).Own needle code l) :
    (siteAt spot needle code front n p r).naming.label l <
      (spot.step needle code p r).method.code.store.size := by
  have ho := t.reached.stored.own
  rw [t.code_step]
  apply lt_size_of_getElem?
  exact (Code.sound_segment ho t.binds _ _).retains _ _ (label_of_unbound ho hl).2.1

/-- A marker outside the gap stays where it is. -/
theorem Turn.untouched_step (t : Turn spot needle code nodes front n p r) {l : Label}
    (hl : l ∈ markers p.method.code.toList) (hgap : l ∉ markers (spot.gap nodes r)) :
    l ∉ markers (siteAt spot needle code front n p r).segment ∧
      l ∈ markers (spot.step needle code p r).method.code.toList := by
  have hstored := t.reached.stored
  rw [← t.gap_eq] at hgap
  refine ⟨Code.not_mem_insertion hstored t.binds hl hgap, ?_⟩
  rw [Code.markers_around (front.length + (spot.first r - n)) (spot.last r - spot.first r),
    List.mem_append, List.mem_append] at hl
  rw [t.code_step, Code.toList_splice hstored t.binds, markers_append, markers_append,
    List.mem_append, List.mem_append]
  rcases hl with (hl | hl) | hl
  · exact .inl (.inl hl)
  · exact absurd hl hgap
  · exact .inr hl

theorem Turn.handlers_step (t : Turn spot needle code nodes front n p r) :
    ∃ own, (spot.step needle code p r).method.code.handlers.toList =
      own ++ p.method.code.handlers.toList := by
  rw [t.code_step]
  exact ⟨_, Array.toList_append⟩

end Turn

/-! ## All turns -/

theorem substituted_cons (spot : Spot) (nodes : List Node) (n : Nat) (s : Site) (sites : List Site) :
    substituted spot nodes n (s :: sites) =
      (nodes.drop n).take (spot.first s.region - n) ++ s.segment ++
        substituted spot nodes (spot.last s.region) sites := rfl

/-- Turns over regions that lie past the front, one after the other, fill
each gap with a site of its own. -/
theorem sited_foldl (spot : Spot) (needle code : Code) {nodes : List Node} {base : Array Node}
    (regions : List Region)
    (hb : ∀ r ∈ regions, ∀ e ∈ (needle.bindingAt r).labels, base[e.2]? = some (.label e.2))
    (hr : ∀ r ∈ regions, r.start < r.stop ∧ r.stop ≤ nodes.length)
    (hp : regions.Pairwise fun r r' => r.stop ≤ r'.start)
    {p : Edit.Progress} {front : List Node} {n : Nat} (h : p.At nodes front n)
    (hret : Retains base p.method.code.store) (hn : ∀ r ∈ regions, n ≤ r.start)
    (hi : ∀ k, ((regions.take k).foldl (spot.step needle code) p).method.code.size ≤
      Region.lastIndex) :
    ∃ sites, Sited spot needle code nodes p.method.code
        (regions.foldl (spot.step needle code) p).method.code regions sites ∧
      (regions.foldl (spot.step needle code) p).method.code.toList =
        front ++ substituted spot nodes n sites := by
  induction regions generalizing p front n with
  | nil =>
    refine ⟨[], ⟨rfl, by simp, .nil, by simp, ⟨[], rfl⟩⟩, ?_⟩
    exact h.toList
  | cons r rs ih =>
    rw [List.forall_mem_cons] at hb hr hn
    rw [List.pairwise_cons] at hp
    have t : Turn spot needle code nodes front n p r := by
      refine ⟨h, Nat.le_trans hn.1 (Spot.start_le_first hr.1.1), hr.1.1,
        Nat.le_trans (Spot.last_le hr.1.1) hr.1.2, hi 0, ?_⟩
      apply binds_fragmentFor
      exact fun e he => (Code.mem_issued h.stored.own).2 (hret _ _ (hb.1 e he))
    obtain ⟨sites, hs, hnodes⟩ := ih hb.2 hr.2 hp.2 t.at_step (hret.trans t.retains_step)
      (fun q hq => Nat.le_trans (Spot.last_le hr.1.1) (hp.1 q hq)) fun k => hi (k + 1)
    refine ⟨siteAt spot needle code front n p r :: sites, ⟨?_, ?_, ?_, ?_, ?_⟩, ?_⟩
    · rw [List.map_cons, hs.regions]
      rfl
    · rw [List.forall_mem_cons]
      exact ⟨t.faithful_site, fun s hmem => (hs.faithful s hmem).mono t.retains_step.size_le⟩
    · rw [List.pairwise_cons]
      refine ⟨fun s hmem l l' hl hl' he => ?_, hs.apart⟩
      have hlow := (hs.faithful s hmem).fresh l' hl'
      have hhigh := t.lt_size_step hl
      rw [he] at hhigh
      exact Nat.not_lt_of_le hlow hhigh
    · intro l hl hout
      rw [List.forall_mem_cons] at hout ⊢
      obtain ⟨hhead, hkept⟩ := t.untouched_step hl hout.1
      exact ⟨hhead, hs.untouched l hkept hout.2⟩
    · obtain ⟨own, hown⟩ := t.handlers_step
      obtain ⟨later, hlater⟩ := hs.handlers
      exact ⟨later ++ own, by rw [List.append_assoc, ← hown]; exact hlater⟩
    · rw [substituted_cons, ← List.append_assoc, ← List.append_assoc]
      exact hnodes

/-- What an occurrence gives for a label is a label of the code that it was found in. -/
theorem stored_of_findAll {host needle : Code} (h : host.SelfContained) {r : Region}
    (hr : r ∈ host.findAll needle) {e : String × Label} (he : e ∈ (needle.bindingAt r).labels) :
    host.store[e.2]? = some (.label e.2) := by
  obtain ⟨k, _, hk⟩ := List.mem_filterMap.1 he
  obtain ⟨l, hl, rfl⟩ := Option.map_eq_some_iff.1 hk
  exact (Code.mem_issued h.own).1 (h.mentioned ((Code.captured_findAll hr).places k.2 l hl))

/-- Turns at every occurrence fill the gaps that the occurrences had in the code before. -/
theorem simultaneous_atEach (spot : Spot) (needle code : Code) {m : Method}
    (h : m.code.SelfContained) (hi : spot.Indexable needle code m) :
    ∃ sites, Simultaneous spot needle code m (Edit.atEach needle (spot.step needle code) m) sites := by
  obtain ⟨hplaced, hp⟩ := Code.placed_findAll m.code needle
  have hstart : ({ method := m } : Edit.Progress).At m.code.toList [] 0 := ⟨h.toStored, rfl, rfl⟩
  obtain ⟨sites, hs, hnodes⟩ := sited_foldl spot needle code (m.code.findAll needle)
    (fun r hr e he => stored_of_findAll h hr he)
    (fun r hr => ⟨(hplaced r hr).start_lt, (hplaced r hr).stop_le⟩) hp hstart (.refl _)
    (fun r _ => Nat.zero_le _) hi
  have hmem : ∀ s ∈ sites, s.region ∈ m.code.findAll needle := fun s hmem =>
    hs.regions ▸ List.mem_map_of_mem hmem
  have hpair := hs.regions.symm ▸ hp
  refine ⟨sites, hs, ?_, ?_, ?_, hnodes⟩
  · rw [← List.length_map (f := Site.region), hs.regions]
    rfl
  · intro s hsite
    have hr := hplaced _ (hmem s hsite)
    exact ⟨Spot.first_le_last hr.start_lt, Nat.le_trans (Spot.last_le hr.start_lt) hr.stop_le⟩
  · rw [List.pairwise_map] at hpair
    refine hpair.imp_of_mem fun hs hs' hle => ?_
    exact Nat.le_trans (Spot.last_le (hplaced _ (hmem _ hs)).start_lt)
      (Nat.le_trans hle (Spot.start_le_first (hplaced _ (hmem _ hs')).start_lt))

/-- A replace, or an inject with a needle, is the edit of all occurrences at
once in the code as it was before. -/
theorem edit_is_simultaneous (spot : Spot) (needle code : Code) {m : Method}
    (h : m.code.SelfContained) (hi : spot.Indexable needle code m) :
    ∃ sites, Simultaneous spot needle code m (spot.edit needle code m) sites := by
  rw [Spot.edit_eq]
  exact simultaneous_atEach spot needle code h hi

/-- Two instructions of a kind, the first one protected. -/
def pausingMethod : Method where
  access := 9
  name := "pause"
  desc := "()V"
  code := ((((Code.empty.mark "try").push (.simple .NOP)).mark "end").pushAll
    [.simple .NOP, .simple .RETURN]).addHandler ⟨0, 2, 2, none⟩

def pauseNeedle : Code := Code.empty.push (.simple .NOP)

def pauseCode : Code := Code.empty.pushAll [.simple .ICONST_0, .simple .POP]

theorem findAll_pausing :
    pausingMethod.code.findAll pauseNeedle = [⟨1, 2, [], []⟩, ⟨3, 4, [], []⟩] := rfl

theorem indexable_pausing : Spot.whole.Indexable pauseNeedle pauseCode pausingMethod := by
  intro n
  rw [findAll_pausing]
  rcases n with _ | _ | n
  · decide +kernel
  · decide +kernel
  · rw [List.take_of_length_le (by simp)]
    decide +kernel

theorem pausing_edit_is_simultaneous :
    pausingMethod.code.SelfContained ∧ Spot.whole.Indexable pauseNeedle pauseCode pausingMethod ∧
      ∃ sites, Simultaneous .whole pauseNeedle pauseCode pausingMethod
        (Spot.whole.edit pauseNeedle pauseCode pausingMethod) sites := by
  have h : pausingMethod.code.SelfContained := by decide
  exact ⟨h, indexable_pausing, edit_is_simultaneous .whole pauseNeedle pauseCode h indexable_pausing⟩

end ClassPatch
