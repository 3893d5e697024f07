-- Edits keep the opcodes of a class suited to their operands and its
-- descriptors valid, so all that can be wrong with what is written is where
-- its branches lead.
import ClassPatch.Proofs.Edits
import ClassPatch.Proofs.Flags
import ClassPatch.Proofs.Sites

namespace ClassPatch

/-! ## Nodes under other names -/

namespace Insn
variable {α β : Type}

theorem suited_mapLabels {f : α → β} {i : Insn α} : (i.mapLabels f).Suited ↔ i.Suited := by
  cases i <;> rfl

theorem suited_mapLocal {f : Local → Local} {i : Insn α} : (i.mapLocal f).Suited ↔ i.Suited := by
  cases i <;> rfl

end Insn

/-! ## Code -/

namespace Code

/-- All nodes have operands of the kinds that their opcodes take. -/
def Suited (c : Code) : Prop := ∀ i ∈ c.toList, i.Suited

/-- Suited code that was only ever given its own labels. -/
structure Sound (c : Code) : Prop extends c.SelfContained where
  suited : c.Suited

theorem sound_empty : Code.empty.Sound := by
  refine ⟨by decide, fun i hi => ?_⟩
  cases hi

theorem sound_copy {c : Code} (h : c.Suited) : c.copy.Sound := by
  refine ⟨c.selfContained_copy, fun i hi => ?_⟩
  rw [toList_copy, List.mem_map] at hi
  obtain ⟨j, hj, rfl⟩ := hi
  exact Insn.suited_mapLabels.2 (h j hj)

theorem Sound.bind {c : Code} (h : c.Sound) (pulled : Bool) (b : Binding) :
    (c.bind pulled b).Sound := by
  obtain ⟨hstore, horder, _⟩ := bind_other pulled b c
  have hlist : (c.bind pulled b).toList = c.toList := by rw [toList, hstore, horder]; rfl
  refine ⟨h.toSelfContained.bind pulled b, ?_⟩
  unfold Suited
  rw [hlist]
  exact h.suited

theorem Sound.mapNodes {c : Code} (h : c.Sound) {f : Node → Node} (hf : KeepsLabels f)
    (hs : ∀ i : Node, i.Suited → (f i).Suited) : (c.mapNodes f).Sound :=
  ⟨h.toSelfContained.mapNodes hf, forall_mapNodes hs h.suited⟩

/-- What binds only labels of the host leaves it sound. -/
theorem Sound.splice {host fragment : Code} (h : host.Sound) (hf : fragment.Sound)
    (hb : fragment.Binds host) (index count : Nat) :
    (host.splice index count fragment).2.Sound := by
  refine ⟨h.toSelfContained.splice hf.toSelfContained hb index count, fun i hi => ?_⟩
  rcases mem_splice h.toStored hb index count hi with hold | ⟨k, rfl⟩ | ⟨j, hj, rfl⟩
  · exact h.suited i hold
  · trivial
  · exact Insn.suited_mapLabels.2 (hf.suited j hj)

end Code

/-! ## Methods -/

/-- A method of sound code with a valid descriptor. -/
structure Method.Sound (m : Method) : Prop where
  desc : (Descriptor.methodShape? m.desc).isSome
  code : m.code.Sound

namespace Method

theorem Decoded.sound {m : Method} (h : m.Decoded) : m.Sound :=
  ⟨h.desc, h.linked.code.selfContained, fun i hi => (h.wellFormed.proper i hi).suited⟩

theorem Sound.clearBody {m : Method} (h : m.Sound) (access : UInt16) :
    ({ m with access } : Method).clearBody.2.Sound := by
  unfold Method.clearBody
  dsimp only
  split <;> exact ⟨h.desc, Code.sound_empty⟩

theorem sound_create {desc : String} (h : (Descriptor.methodShape? desc).isSome) (access : UInt16)
    (name : String) (exceptions : List String) :
    Sound { create access name desc with exceptions } := ⟨h, Code.sound_empty⟩

theorem Sound.renumber {m m' : Method} (h : m.Sound) (hr : m.renumber = .ok m') : m'.Sound := by
  obtain ⟨n, _, rfl⟩ := renumber_ok hr
  exact ⟨h.desc, h.code.mapNodes (keepsLabels_move _) fun i hi => Insn.suited_mapLocal.2 hi⟩

theorem Sound.splice {m : Method} (h : m.Sound) {fragment : Code} (hf : fragment.Sound)
    (hb : fragment.Binds m.code) (index count : Nat) :
    (m.splice index count fragment).2.Sound ∧
      Retains m.code.store (m.splice index count fragment).2.code.store := by
  have hslots : (fragment.bindTemps (m.slotsFor fragment).bound).Sound :=
    hf.mapNodes (Code.keepsLabels_mapLocal fun _ => _) fun i hi => Insn.suited_mapLocal.2 hi
  have hbinds : (fragment.bindTemps (m.slotsFor fragment).bound).Binds m.code := hb
  exact ⟨⟨h.desc, h.code.splice hslots hbinds index count⟩,
    Code.retains_splice h.code.toStored hbinds index count⟩

end Method

/-! ## Edits -/

namespace Edit

theorem sound_atEach {needle : Code} {step : Progress → Region → Progress} {m : Method}
    (h : m.Sound)
    (hstep : ∀ p r, p.method.Sound →
      (∀ e ∈ (needle.bindingAt r).labels, e.2 ∈ p.method.code.issued) →
      (step p r).method.Sound ∧ Retains p.method.code.store (step p r).method.code.store) :
    (atEach needle step m).2.Sound := by
  refine (List.foldlRecOn (motive := fun p : Progress => p.method.Sound ∧
    Retains m.code.store p.method.code.store) (m.code.findAll needle) step ⟨h, .refl _⟩ ?_).1
  rintro p ⟨hp, hm⟩ r hr
  obtain ⟨hs, hm'⟩ := hstep p r hp fun e he =>
    (Code.mem_issued hp.code.own).2 (hm _ _ (stored_of_findAll h.code.toSelfContained hr he))
  exact ⟨hs, hm.trans hm'⟩

theorem sound_injectInto (needle : Option Code) {code : Code} (hc : code.Suited) (before : Bool)
    {m : Method} (h : m.Sound) : (injectInto needle code before m).2.Sound := by
  unfold injectInto
  cases needle with
  | some needle =>
    refine sound_atEach h fun p r hp hr => ?_
    have hs := (Code.sound_copy hc).bind false (needle.bindingAt (r.shifted p.shift))
    have hb : (code.copy.mergeLabels (needle.bindingAt (r.shifted p.shift))).Binds p.method.code :=
      Code.binds_bind hr
    unfold injectAt
    dsimp only
    cases before <;> exact hp.splice hs hb _ _
  | none =>
    have hb := Code.binds_copy code m.code
    cases before <;> exact (h.splice (Code.sound_copy hc) hb _ _).1

theorem sound_replaceIn (needle : Code) {code : Code} (hc : code.Suited) {m : Method}
    (h : m.Sound) : (replaceIn needle code m).2.Sound := by
  refine sound_atEach h fun p r hp hr => ?_
  have hs := (Code.sound_copy hc).bind true (needle.bindingAt (r.shifted p.shift))
  exact hp.splice hs (Code.binds_bind hr) _ _

/-- The code that the edit brings is suited, and a method that it defines has
a valid descriptor. -/
def Suited : Edit → Prop
  | .write _ target _ body =>
    (Descriptor.methodShape? target.signature).isSome ∧ ∀ code, body = some code → code.Suited
  | .inject _ _ code _ => code.Suited
  | .replace _ _ code => code.Suited
  | .addField .. => True

/-- A suited edit keeps methods sound and the descriptors of fields valid. -/
theorem Suited.keeps {e : Edit} (h : e.Suited) :
    e.Keeps (fun f => (Descriptor.fieldWidth? f.desc).isSome) Method.Sound := by
  cases e with
  | write access target exceptions body =>
    refine ⟨fun m hm => hm.clearBody access, Method.sound_create h.1 .., fun code hb m hm => ?_⟩
    exact (hm.splice (Code.sound_copy (h.2 code hb)) (Code.binds_copy code m.code) _ _).1
  | inject target needle code before => exact fun m hm => sound_injectInto needle h before hm
  | replace target needle code => exact fun m hm => sound_replaceIn needle h hm
  | addField => exact fun w hw => fieldWidth_ok.1 ⟨_, hw⟩

end Edit

/-- A patch of suited edits leaves a decoded class with sound methods and the
descriptors of its fields valid, whatever comes out. -/
theorem Patch.sound_run {p : Patch} (hp : ∀ e ∈ p.edits, e.Suited) {c : Class} (hc : c.Decoded) :
    (p.run c).2.Each c.major (fun f => (Descriptor.fieldWidth? f.desc).isSome) Method.Sound := by
  have h : c.Each c.major (fun f => (Descriptor.fieldWidth? f.desc).isSome) Method.Sound :=
    ⟨rfl, hc.fields, fun m hm => (hc.methods m hm).sound⟩
  exact Patch.each_run (fun m m' hm hr => hm.renumber hr) (fun e he => (hp e he).keeps) h

end ClassPatch
