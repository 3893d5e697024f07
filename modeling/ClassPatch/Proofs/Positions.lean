-- What becomes of the positions that a body names when it is read. Reading
-- fails exactly if one of them leads nowhere; otherwise each gets a label,
-- and what follows the marker is the instruction that starts there.
import ClassPatch.Proofs.Decoded

namespace ClassPatch

namespace CodeBody

variable {b : CodeBody}

/-! ## Places that lead nowhere -/

/-- Every branch leads to an instruction, and every entry of a table to an
instruction or the end of the code. -/
structure Aimed (b : CodeBody) : Prop where
  branches : ∀ i ∈ b.insns, ∀ t ∈ i.2.targets, ∃ j ∈ b.insns, (j.1 : Int) = t
  ranges : ∀ r ∈ b.ranges, ∀ p ∈ [r.start, r.stop, r.target], p ∈ b.stops
  locals : ∀ v ∈ b.locals, ∀ p ∈ [v.start, v.start + v.length], p ∈ b.stops
  lines : ∀ l ∈ b.lines, l.1 ∈ b.stops

/-- The fault of a place where no instruction starts. -/
def Stray (b : CodeBody) (f : Fault) : Prop :=
  ∃ pc t, f = .invalidTarget pc t ∧ ∀ j ∈ b.insns, (j.1 : Int) ≠ t

theorem yields_checkBranch (pc : Nat) (t : Int) :
    Yields b.Stray (checkBranch b.starts pc t) fun _ => True := by
  unfold checkBranch
  split
  · trivial
  · rename_i hno
    refine ⟨pc, t, rfl, ?_⟩
    rintro j hj rfl
    exact hno ⟨Int.natCast_nonneg _, mem_starts.2 (List.mem_map_of_mem hj)⟩

theorem yields_checkPlace (pc p : Nat) :
    Yields b.Stray (checkPlace b.starts b.size pc p) fun _ => True := by
  unfold checkPlace
  split
  · trivial
  · rename_i hno
    refine ⟨pc, p, rfl, fun j hj heq => hno (.inr (mem_starts.2 ?_))⟩
    rw [← Int.natCast_inj.1 heq]
    exact List.mem_map_of_mem hj

/-- A body that is refused names a place where no instruction starts. -/
theorem yields_check (b : CodeBody) : Yields b.Stray b.check fun _ => True := by
  refine Yields.bind (p := fun _ => True) ?_ fun _ _ => ?_
  · exact .forM fun i _ => .forM fun t _ => yields_checkBranch i.1 t
  refine Yields.bind (p := fun _ => True) ?_ fun _ _ => ?_
  · exact .forM fun r _ => .forM fun p _ => yields_checkPlace p p
  refine Yields.bind (p := fun _ => True) ?_ fun _ _ => ?_
  · exact .forM fun v _ => .forM fun p _ => yields_checkPlace v.start p
  exact .forM fun l _ => yields_checkPlace l.1 l.1

theorem Sound.aimed (h : b.Sound) : b.Aimed := by
  refine ⟨fun i hi t ht => ?_, h.ranges, h.locals, h.lines⟩
  obtain ⟨hnonneg, hin⟩ := h.branches i hi t ht
  obtain ⟨j, hj, hpos⟩ := List.mem_map.1 hin
  exact ⟨j, hj, by omega⟩

/-! ## What follows a marker -/

/-- The marker of a position is followed, after pseudo nodes only, by the
instruction that starts there; that of the end by nothing. -/
def Marked (b : CodeBody) (label : Nat → Label) (nodes : List Node) (p : Nat) : Prop :=
  ∃ before pseudo rest, nodes = before ++ .label (label p) :: (pseudo ++ rest) ∧
    (∀ n ∈ pseudo, n.isPseudo) ∧
    ((∃ i after, b.insns[before.countP Insn.isReal]? = some (p, i) ∧
        rest = i.mapLabels (fun t => label t.toNat) :: after) ∨
      p = b.size ∧ before.countP Insn.isReal = b.insns.length ∧ rest = [])

/-- What a body is resolved to: its instructions and tables with a label for
each position, and the markers of these labels. -/
structure Resolved (b : CodeBody) (label : Nat → Label) (m : Method) : Prop where
  insns : realNodes m.code.toList = b.insns.map fun i => i.2.mapLabels fun t => label t.toNat
  handlers : m.code.handlers.toList =
    b.ranges.map fun r => ⟨label r.start, label r.stop, label r.target, r.caught⟩
  locals : m.locals =
    b.locals.map fun v => ⟨v.name, v.desc, label v.start, label (v.start + v.length), v.slot⟩
  once : ∀ l ∈ m.code.issued, (markers m.code.toList).count l = 1
  branches : ∀ i ∈ b.insns, ∀ t ∈ i.2.targets, b.Marked label m.code.toList t.toNat
  ranges : ∀ r ∈ b.ranges, ∀ p ∈ [r.start, r.stop, r.target], b.Marked label m.code.toList p
  ends : ∀ v ∈ b.locals, ∀ p ∈ [v.start, v.start + v.length], b.Marked label m.code.toList p

/-- The label that a position gets. -/
def labelAt (b : CodeBody) (p : Nat) : Label := b.labelTable.getD p 0

theorem markerAt_of_named (h : b.Sound) {p : Nat} (hp : p ∈ b.named) :
    markerAt b.labelTable p = [.label (b.labelAt p)] := by
  obtain ⟨l, hl⟩ := List.getElem?_of_mem (mem_places_of_named h hp)
  have hl := (getElem?_labelTable h).2 hl
  rw [markerAt, labelAt, Std.HashMap.getD_eq_getD_getElem?, hl, Option.getD_some]

theorem marked_of_named (h : b.Sound) {p : Nat} (hp : p ∈ b.named) :
    b.Marked b.labelAt b.nodes p := by
  have hmark := markerAt_of_named h hp
  have hstop := (mem_places.1 (mem_places_of_named h hp)).1
  rcases List.mem_append.1 hstop with hstart | hend
  · obtain ⟨i, hi, rfl⟩ := List.mem_map.1 hstart
    obtain ⟨r, hr⟩ := List.getElem?_of_mem hi
    have hlt := (List.getElem?_eq_some_iff.1 hr).1
    have hnodes := nodes_eq_at_insn hr
    rw [nodesAt, hmark, List.append_assoc, List.append_assoc] at hnodes
    refine ⟨_, (b.lineTable.getD i.1 []).map Insn.line, _, hnodes,
      List.forall_mem_map.2 fun _ _ => rfl, .inl ⟨i.2, _, ?_, rfl⟩⟩
    rw [countP_before h (Nat.le_of_lt hlt), hr]
  · obtain rfl := List.mem_singleton.1 hend
    refine ⟨b.insns.flatMap (nodesAt b.labelTable b.lineTable), [], [], ?_, by simp,
      .inr ⟨rfl, ?_, rfl⟩⟩
    · rw [nodes, hmark]
      rfl
    · exact countP_blocks fun i hi => (h.legible i hi).real

/-- A sound body is resolved, with the labels of its table. -/
theorem resolved_resolve (h : b.Sound) {m : Method} (hcode : m.code = b.resolve.1)
    (hlocals : m.locals = b.resolve.2) : b.Resolved b.labelAt m := by
  have hlist : m.code.toList = b.nodes := by rw [hcode, toList_resolve h]
  have hmarkers : markers m.code.toList = List.range b.places.length := by
    rw [hlist, markers_nodes h]
  refine ⟨?_, ?_, hlocals, ?_, ?_, ?_, ?_⟩
  · rw [hlist]
    exact realNodes_nodes h
  · rw [hcode]
    rfl
  · intro l hl
    have hissued : m.code.issued = List.range b.places.length := by
      rw [hcode]
      exact (Code.issued_pushAll _ b.nodes).trans (Code.issued_withLabels _)
    rw [hmarkers]
    exact List.count_eq_one_of_mem List.nodup_range (hissued ▸ hl)
  · intro i hi t ht
    rw [hlist]
    refine marked_of_named h (List.mem_append_left _ (List.mem_append_left _ ?_))
    exact List.mem_flatMap.2 ⟨i, hi, List.mem_map_of_mem ht⟩
  · intro r hr p hp
    rw [hlist]
    refine marked_of_named h (List.mem_append_left _ (List.mem_append_right _ ?_))
    exact List.mem_flatMap.2 ⟨r, hr, hp⟩
  · intro v hv p hp
    rw [hlist]
    exact marked_of_named h (List.mem_append_right _ (List.mem_flatMap.2 ⟨v, hv, hp⟩))

end CodeBody

/-! ## Reading a body -/

namespace Method
open Reader CodeBody

variable {m : Method} {pool : Pool} {c c' : Cursor} {b : CodeBody}

/-- After a body is read, only the checks of its places can fail. -/
theorem readBody_eq (h : CodeBody.read pool m.signature c = .ok (b, c')) :
    m.readBody pool c = b.check.map fun _ =>
      ({ m with maxStack := b.maxStack, maxLocals := b.maxLocals, code := b.resolve.1,
                locals := b.resolve.2 }, c') := by
  unfold readBody
  change (CodeBody.read pool m.signature c).bind _ = _
  rw [h]
  change (liftM b.check >>= fun _ => _ : Reader Method) c' = _
  cases b.check <;> rfl

theorem check_iff_of_read {signature : String} (h : CodeBody.read pool signature c = .ok (b, c')) :
    b.check = .ok () ↔ b.Aimed := by
  obtain ⟨-, -, hdrawn, hasc, hin⟩ := CodeBody.gives_read pool signature c b c' h
  have hleg := fun i hi => (hdrawn.insns i hi).toLegible
  refine ⟨fun hc => (sound_of_check hleg hasc hin hc).aimed, fun ha => check_of_sound ?_⟩
  refine ⟨hleg, hasc, hin, fun i hi t ht => ?_, ha.ranges, ha.locals, ha.lines⟩
  obtain ⟨j, hj, rfl⟩ := ha.branches i hi t ht
  exact ⟨Int.natCast_nonneg _, List.mem_map_of_mem hj⟩

/-- A body whose bytes are read is refused exactly if a place that it names
leads nowhere, and is resolved otherwise. -/
theorem readBody_resolves (h : CodeBody.read pool m.signature c = .ok (b, c')) :
    ((∃ d, m.readBody pool c = .ok (d, c')) ↔ b.Aimed) ∧
    (¬b.Aimed → ∃ pc t, m.readBody pool c = .error (.invalidTarget pc t) ∧
      ∀ j ∈ b.insns, (j.1 : Int) ≠ t) ∧
    ∀ d rest, m.readBody pool c = .ok (d, rest) → rest = c' ∧ ∃ label, b.Resolved label d := by
  have hread := readBody_eq h
  have hiff := check_iff_of_read h
  have hyields := yields_check b
  obtain ⟨-, -, hdrawn, hasc, hin⟩ := CodeBody.gives_read pool _ c b c' h
  cases hc : b.check with
  | ok u =>
    have haimed := hiff.1 hc
    rw [hc] at hread
    refine ⟨⟨fun _ => haimed, fun _ => ⟨_, hread⟩⟩, fun hno => absurd haimed hno, ?_⟩
    intro d rest hd
    rw [hread] at hd
    cases hd
    have hsound := sound_of_check (fun i hi => (hdrawn.insns i hi).toLegible) hasc hin hc
    exact ⟨rfl, b.labelAt, resolved_resolve hsound rfl rfl⟩
  | error f =>
    have hno : ¬b.Aimed := fun ha => by
      rw [hiff.2 ha] at hc
      cases hc
    rw [hc] at hread hyields
    obtain ⟨pc, t, rfl, hstray⟩ := hyields
    refine ⟨⟨fun ⟨d, hd⟩ => ?_, fun ha => absurd ha hno⟩, fun _ => ⟨pc, t, hread, hstray⟩, ?_⟩
    · rw [hread] at hd
      cases hd
    · intro d rest hd
      rw [hread] at hd
      cases hd

/-- The bytes of a body: a branch over nothing, inside a range that is handled where it leads. -/
def branchingBytes : List UInt8 :=
  [0, 1, 0, 1, 0, 0, 0, 5, 3, 153, 0, 3, 177, 0, 1, 0, 0, 0, 5, 0, 4, 0, 0,
   0, 1, 0, 0, 0, 5, 0, 1, 0, 1, 0, 0, 0, 1, 0, 4, 0, 7]

def branchingBody : CodeBody where
  maxStack := 1
  maxLocals := 1
  size := 5
  insns := [(0, .simple .ICONST_0), (1, .jump .IFEQ 4), (4, .simple .RETURN)]
  ranges := [⟨0, 5, 4, none⟩]
  locals := [⟨0, 5, "I", "I", 0⟩]
  lines := [(4, 7)]

theorem branching_is_resolved : ∃ d label,
    CodeBody.read ⟨#[.utf8 "I"]⟩ "m()V" ⟨branchingBytes, 0⟩ = .ok (branchingBody, ⟨[], 41⟩) ∧
    branchingBody.Aimed ∧
    (create 9 "m" "()V").readBody ⟨#[.utf8 "I"]⟩ ⟨branchingBytes, 0⟩ = .ok (d, ⟨[], 41⟩) ∧
    branchingBody.Resolved label d := by
  have haimed : branchingBody.Aimed := ⟨by decide, by decide, by decide, by decide⟩
  have hread : CodeBody.read ⟨#[.utf8 "I"]⟩ (create 9 "m" "()V").signature ⟨branchingBytes, 0⟩ =
      .ok (branchingBody, ⟨[], 41⟩) := rfl
  obtain ⟨hiff, -, hresolved⟩ := readBody_resolves hread
  obtain ⟨d, hd⟩ := hiff.2 haimed
  obtain ⟨-, label, hlabel⟩ := hresolved d _ hd
  exact ⟨d, label, hread, haimed, hd, hlabel⟩

end Method

end ClassPatch
