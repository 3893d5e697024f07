-- Dumps are for a person to look at and nothing else. How a call ends is
-- settled by the edits and the bytes. The result is read off from that, and
-- so is the dump, with the configuration; a sink gets these dumps and no others.
import ClassPatch.Proofs.Interleaved

namespace ClassPatch

/-! ## How a call ends -/

inductive Ending where
  | absent
  | unregistered (bytes : List UInt8)
  /-- The bytes are no class. -/
  | malformed (bytes : List UInt8) (fault : Fault)
  /-- The patch stopped, with the class as far as it got. -/
  | stopped (partway : Class) (error : PatchError)
  /-- The patched class cannot be written. -/
  | refused (patched : Class) (fault : Fault)
  | handedOut (patched : Class) (out : List UInt8)

namespace Ending

def result (className : String) : Ending → Except PatchError (Option (List UInt8))
  | absent => .ok none
  | unregistered bytes => .ok (some bytes)
  | malformed _ f => .error (.malformedInput className f)
  | stopped _ e => .error e
  | refused _ f => .error (.serializationFailure className f)
  | handedOut _ out => .ok (some out)

/-- The one dump that a configuration asks for, if it does. -/
def dump? (config : Config) : Ending → Option Dump
  | absent | unregistered _ => none
  | malformed bytes _ => if config.dump = .off then none else some (.bytes bytes)
  | stopped c _ | refused c _ => if config.dump = .off then none else some (.text c.text)
  | handedOut c out =>
    if config.dump = .always then some (if config.raw then .bytes out else .text c.text) else none

end Ending

/-- What a loader calls with: the name of a class and its bytes, if it has any. -/
structure Call where
  className : String
  bytes : Option (List UInt8)

namespace Call
variable (es : List Edit) (call : Call)

/-- The patch that the edits make for the class. -/
def patch : Patch :=
  ⟨Identifier.dotted call.className, Edit.ofClass (Identifier.dotted call.className) es⟩

/-- How the call ends under the edits, whatever is dumped. -/
def ending : Ending :=
  match call.bytes with
  | none => .absent
  | some bytes =>
    if (call.patch es).edits = [] then .unregistered bytes
    else
      match Class.decode bytes with
      | .error f => .malformed bytes f
      | .ok c =>
        match (call.patch es).run c with
        | (.error e, c) => .stopped c e
        | (.ok _, c) =>
          match c.encode with
          | .error f => .refused c f
          | .ok out => .handedOut c out

/-- The dump that the call makes, with the name that it goes under. -/
def dump? (config : Config) : Option (String × Dump) :=
  ((call.ending es).dump? config).map fun d => (call.className, d)

end Call

/-! ## What a sink gets -/

/-- Gives dumps to a sink, one after the other. -/
def DumpSink.takeAll {σ : Type} (sink : DumpSink σ) (dumps : List (String × Dump)) : StateM σ Unit :=
  dumps.forM fun d => do let _ ← sink d.1 d.2

theorem DumpSink.run_takeAll_record (kept : Bool) (dumps s : List (String × Dump)) :
    (((DumpSink.record kept).takeAll dumps).run s).2 = s ++ dumps := by
  unfold takeAll
  induction dumps generalizing s with
  | nil => exact (List.append_nil s).symm
  | cons d dumps ih =>
    rw [List.append_cons]
    exact ih (s ++ [d])

namespace Registry

/-- Calls that come one after the other, with their dumps going to one sink. -/
def serve {σ : Type} (r : Registry) (sink : DumpSink σ) (calls : List Call) :
    StateM σ (List (Except PatchError (Option (List UInt8)))) :=
  calls.mapM fun call => (r.transform call.className call.bytes).deliver sink call.className

section
variable (config : Config) (es : List Edit)

theorem config_ofEdits : (ofEdits config es).config = config :=
  List.foldlRecOn (motive := fun r : Registry => r.config = config) es register rfl
    fun _ h _ _ => h

theorem patch?_ofEdits (call : Call) : (ofEdits config es).patch? call.className =
    if (call.patch es).edits = [] then none else some (call.patch es) :=
  get?_ofEdits config es _

/-- A call has the result and the dump of its ending. -/
theorem transform_ofEdits (call : Call) : (ofEdits config es).transform call.className call.bytes =
    ⟨(call.ending es).result call.className, (call.ending es).dump? config⟩ := by
  have hconfig := config_ofEdits config es
  have hpatch := patch?_ofEdits config es call
  unfold transform transformWithReport Call.ending
  cases call.bytes with
  | none => rfl
  | some bytes =>
    dsimp only
    rw [hpatch]
    by_cases hnone : (call.patch es).edits = []
    · rw [if_pos hnone, if_pos hnone]
      rfl
    rw [if_neg hnone, if_neg hnone]
    unfold applyPatch failed successDump
    rw [hconfig]
    dsimp only
    cases Class.decode bytes with
    | error f => rfl
    | ok c =>
      dsimp only
      rcases (call.patch es).run c with ⟨e | report, c'⟩
      · rfl
      dsimp only
      cases c'.encode <;> rfl

variable {σ : Type} (sink : DumpSink σ)

/-- One call: its dump goes to the sink, and what the sink says is not heard. -/
theorem deliver_ofEdits (call : Call) (s : σ) :
    (((ofEdits config es).transform call.className call.bytes).deliver sink call.className).run s =
      ((call.ending es).result call.className,
        ((sink.takeAll (call.dump? es config).toList).run s).2) := by
  rw [transform_ofEdits]
  unfold Outcome.deliver Call.dump?
  cases (call.ending es).dump? config <;> rfl

theorem serve_ofEdits (calls : List Call) (s : σ) :
    ((ofEdits config es).serve sink calls).run s =
      (calls.map fun call => (call.ending es).result call.className,
        ((sink.takeAll (calls.filterMap fun call => call.dump? es config)).run s).2) := by
  induction calls generalizing s with
  | nil => rfl
  | cons call calls ih =>
    unfold serve at ih ⊢
    simp only [List.mapM_cons, StateT.run_bind, deliver_ofEdits, List.map_cons, List.filterMap_cons,
      ih]
    cases call.dump? es config <;> rfl

/-- A sink that lists what it gets lists the dumps of all endings, also if it fails
every time. -/
theorem serve_record (kept : Bool) (calls : List Call) :
    (((ofEdits config es).serve (DumpSink.record kept) calls).run []).2 =
      calls.filterMap fun call => call.dump? es config := by
  rw [serve_ofEdits, DumpSink.run_takeAll_record, List.nil_append]

end

/-- Dumps are without influence. Registries with the same edits give the same
results for the same calls, wherever their dumps go and whether they get there.
A sink gets one dump of each call whose ending asks for one, in order, and
nothing else. -/
theorem dumps_are_without_influence (es : List Edit) (calls : List Call) {σ τ : Type}
    (config config' : Config) (sink : DumpSink σ) (sink' : DumpSink τ) (s : σ) (t : τ) :
    (((ofEdits config es).serve sink calls).run s).1 =
        (((ofEdits config' es).serve sink' calls).run t).1 ∧
      ((ofEdits config es).serve sink calls).run s =
        (calls.map fun call => (call.ending es).result call.className,
          ((sink.takeAll (calls.filterMap fun call => call.dump? es config)).run s).2) := by
  have h := serve_ofEdits config es sink calls s
  have h' := serve_ofEdits config' es sink' calls t
  exact ⟨by rw [h, h'], h⟩

end Registry

end ClassPatch
