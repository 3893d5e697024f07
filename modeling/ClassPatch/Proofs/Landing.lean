-- What a registry hands out is decoded again if all branches lead to
-- instructions. The writer lets a branch lead to the end of the code and the
-- reader does not, so a body that ends with a marker may be refused.
import ClassPatch.Proofs.Suited
import ClassPatch.Registry

namespace ClassPatch

/-- What was written for a patched class is decoded again exactly if in every
method all branches lead to instructions. -/
theorem Patch.decode_run_iff {p : Patch} (hs : ∀ e ∈ p.edits, e.Suited) {c : Class}
    (hc : c.Decoded) {out : List UInt8} (he : (p.run c).2.encode = .ok out) :
    (∃ d, Class.decode out = .ok d) ↔ ∀ m ∈ (p.run c).2.methods, m.outline.Lands := by
  have hrun := Patch.sound_run hs hc
  refine Class.decode_encode_iff he ?_ hrun.fields fun m hm => ?_
  · rw [hrun.major]
    exact hc.major
  · exact ⟨(hrun.methods m hm).desc, (hrun.methods m hm).code.suited⟩

namespace Registry

/-- A class that has a patch gives what is written for it once the patch is applied. -/
theorem transform_ok {r : Registry} {name : String} {p : Patch} {bytes out : List UInt8}
    (hp : r.patch? name = some p) :
    (r.transform name (some bytes)).result = .ok (some out) ↔
      ∃ c report c', Class.decode bytes = .ok c ∧ p.run c = (.ok report, c') ∧
        c'.encode = .ok out := by
  have hresult : (r.transform name (some bytes)).result =
      (r.applyPatch p name bytes).result.map fun q => some q.bytes := by
    unfold transform transformWithReport
    rw [hp]
    dsimp only
    cases (r.applyPatch p name bytes).result <;> rfl
  rw [hresult]
  unfold applyPatch
  cases hc : Class.decode bytes with
  | error f => exact ⟨nofun, fun ⟨_, _, _, h, _⟩ => nomatch h⟩
  | ok c =>
    dsimp only
    rcases hr : p.run c with ⟨e | report, c'⟩
    · refine ⟨nofun, ?_⟩
      rintro ⟨_, _, _, ⟨⟩, hrun, _⟩
      rw [hr] at hrun
      cases hrun
    · dsimp only
      constructor
      · intro h
        refine ⟨c, report, c', rfl, hr, ?_⟩
        cases he : c'.encode with
        | error f =>
          rw [he] at h
          cases h
        | ok written =>
          rw [he] at h
          cases h
          rfl
      · rintro ⟨_, _, _, ⟨⟩, hrun, he⟩
        rw [hr] at hrun
        cases hrun
        rw [he]
        rfl

/-- What a registry of suited edits hands out is decoded again exactly if in
every method of the patched class all branches lead to instructions. -/
theorem decode_transform_iff {r : Registry} {name : String} {p : Patch} {bytes out : List UInt8}
    (hp : r.patch? name = some p) (hs : ∀ e ∈ p.edits, e.Suited)
    (ht : (r.transform name (some bytes)).result = .ok (some out)) :
    ∃ c, Class.decode bytes = .ok c ∧
      ((∃ d, Class.decode out = .ok d) ↔ ∀ m ∈ (p.run c).2.methods, m.outline.Lands) := by
  obtain ⟨c, report, c', hc, hr, he⟩ := (transform_ok hp).1 ht
  refine ⟨c, hc, Patch.decode_run_iff hs (Class.decoded_of_decode hc) ?_⟩
  rw [hr]
  exact he

end Registry

/-! ## A jump to the end -/

/-- One jump, to what follows it or to itself. -/
def Code.jump (forward : Bool) : Code :=
  let code := (Code.empty.labelNamed "place").2
  if forward then code.pushAll [.jump .GOTO 0, .label 0] else code.pushAll [.label 0, .jump .GOTO 0]

/-- A method whose code is one jump. -/
def Method.jumping (forward : Bool) : Method :=
  ((Method.create 9 "m" "()V").prepend (Code.jump forward).copy).2

/-- Gives a class "A" a method whose code is one jump. -/
def Patch.jumping (forward : Bool) : Patch where
  className := "A"
  edits := [.write 9 ⟨"A", "m", "()V"⟩ [] (some (Code.jump forward))]

def Registry.jumping (forward : Bool) : Registry where
  patches := [("A", .jumping forward)]

namespace Method

theorem toList_jumping (forward : Bool) : ∃ l, (jumping forward).code.toList =
    if forward then [.jump .GOTO l, .label l] else [.label l, .jump .GOTO l] := by
  have hnodup : (markers (Code.jump forward).toList).Nodup := by cases forward <;> decide
  obtain ⟨f, g, h⟩ := toList_prepend_copy (m := create 9 "m" "()V") rfl hnodup
  refine ⟨f 0, ?_⟩
  cases forward <;> exact h

theorem nonempty_jumping (forward : Bool) : ¬(jumping forward).code.isEmpty := by
  obtain ⟨l, hl⟩ := toList_jumping forward
  intro h
  rw [Code.toList_of_isEmpty h] at hl
  cases forward <;> cases hl

/-- A jump to what follows it leads past the last instruction. -/
theorem outline_jumping (forward : Bool) :
    (jumping forward).outline = ⟨[.jump .GOTO forward.toNat], [], [], []⟩ := by
  obtain ⟨l, hl⟩ := toList_jumping forward
  have hhandlers : (jumping forward).code.handlers = #[] := by
    have hcode : (Code.jump forward).handlers = #[] := by cases forward <;> rfl
    change ((Code.jump forward).handlers.map _).map _ ++ #[] = #[]
    rw [hcode, Array.map_empty, Array.map_empty, Array.append_empty]
  have hlocals : (jumping forward).locals = [] := rfl
  unfold outline
  rw [hl, hhandlers, hlocals]
  cases forward <;>
    simp [realNodes, Insn.isReal, Insn.isPseudo, Insn.mapLabels, realIndex, realBefore,
      markerIndex, Insn.marker?, lineMarks]

theorem lands_jumping (forward : Bool) : (jumping forward).outline.Lands ↔ forward = false := by
  rw [outline_jumping]
  cases forward <;> simp [Outline.Lands, Insn.targets]

theorem linked_jumping (forward : Bool) : (jumping forward).Linked := by
  have hclosed : (Code.jump forward).Closed none := by
    intro l hl
    left
    cases forward <;> revert l hl <;> decide
  exact (linked_splice (linked_of_empty rfl rfl) (Code.fits_copy hclosed _) _ _).1

theorem encodeBody_jumping (forward : Bool) (b : PoolBuilder) :
    ∃ bytes, (jumping forward).encodeBody b = .ok (bytes, b) := by
  obtain ⟨rest, hrest⟩ := Outline.writes_jump (Bool.toNat_le forward) b
  rw [← outline_jumping] at hrest
  exact ⟨_, encodeBody_of_writes (checkLabels_of_linked (linked_jumping forward)) hrest⟩

end Method

namespace Registry

theorem patch?_jumping (forward : Bool) :
    (jumping forward).patch? "A" = some (.jumping forward) := by
  have hname : Identifier.dotted "A" = "A" := by decide +kernel
  unfold patch?
  rw [hname]
  rfl

theorem suited_jumping (forward : Bool) : ∀ e ∈ (Patch.jumping forward).edits, e.Suited := by
  intro e he
  cases List.mem_singleton.1 he
  refine ⟨by decide +kernel, ?_⟩
  rintro _ ⟨⟩ i hi
  have hlist : (Code.jump forward).toList =
      if forward then [.jump .GOTO 0, .label 0] else [.label 0, .jump .GOTO 0] := by
    cases forward <;> rfl
  rw [hlist] at hi
  have hi : i = .jump .GOTO 0 ∨ i = .label 0 := by
    cases forward <;> simp at hi <;> tauto
  rcases hi with rfl | rfl
  · rfl
  · trivial

theorem run_jumping (forward : Bool) : (Patch.jumping forward).run { name := "A" } =
    (.ok ⟨"A", [], [⟨.write, ⟨"A", "m", "()V"⟩, 1⟩]⟩,
      { name := "A", methods := [.jumping forward] }) := rfl

theorem decode_bareBytes : Class.decode bareBytes = .ok { name := "A" } := by decide +kernel

theorem transform_jumping (forward : Bool) :
    ∃ out, ((jumping forward).transform "A" (some bareBytes)).result = .ok (some out) := by
  obtain ⟨out, he⟩ := Class.encode_single (m := .jumping forward) rfl rfl rfl
    (Method.nonempty_jumping forward) (Method.encodeBody_jumping forward)
  exact ⟨out, (transform_ok (patch?_jumping forward)).2 ⟨_, _, _, decode_bareBytes, run_jumping forward, he⟩⟩

/-- A jump to itself is decoded again. -/
theorem decode_transform_looping : (jumping false).patch? "A" = some (.jumping false) ∧
    (∀ e ∈ (Patch.jumping false).edits, e.Suited) ∧
    ∃ out, ((jumping false).transform "A" (some bareBytes)).result = .ok (some out) ∧
      ∃ d, Class.decode out = .ok d := by
  obtain ⟨out, ht⟩ := transform_jumping false
  refine ⟨patch?_jumping false, suited_jumping false, out, ht, ?_⟩
  obtain ⟨c, hc, hiff⟩ := decode_transform_iff (patch?_jumping false) (suited_jumping false) ht
  cases hc.symm.trans decode_bareBytes
  refine hiff.2 fun m hm => ?_
  rw [run_jumping] at hm
  cases List.mem_singleton.1 hm
  exact (Method.lands_jumping false).2 rfl

/-- A jump to the end of the code is refused, though it was written. -/
theorem transform_leaping_is_refused : (jumping true).patch? "A" = some (.jumping true) ∧
    (∀ e ∈ (Patch.jumping true).edits, e.Suited) ∧
    ∃ out, ((jumping true).transform "A" (some bareBytes)).result = .ok (some out) ∧
      ∀ d, Class.decode out ≠ .ok d := by
  obtain ⟨out, ht⟩ := transform_jumping true
  refine ⟨patch?_jumping true, suited_jumping true, out, ht, fun d hout => ?_⟩
  obtain ⟨c, report, c', hc, hr, he⟩ := (transform_ok (patch?_jumping true)).1 ht
  cases hc.symm.trans decode_bareBytes
  have hlands := (Patch.decode_run_iff (suited_jumping true) (Class.decoded_of_decode hc)
    (by rw [hr]; exact he)).1 ⟨d, hout⟩
  rw [run_jumping] at hlands
  exact Bool.noConfusion ((Method.lands_jumping true).1 (hlands _ (List.mem_singleton_self _)))

end Registry

end ClassPatch
