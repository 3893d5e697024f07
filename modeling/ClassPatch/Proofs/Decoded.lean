-- What decoding promises of a class, whatever the bytes are. Its bodies are
-- sound, it names nothing that the pool of the container did not hold, and
-- its tables are no longer than their counts could say.
import ClassPatch.Proofs.Faults
import ClassPatch.Proofs.Resolved

namespace ClassPatch

/-! ## Bodies -/

theorem Insn.content?_mapLabels {α β : Type} (f : α → β) (i : Insn α) :
    (i.mapLabels f).content? = i.content? := by
  cases i <;> rfl

theorem Insn.content?_of_pseudo {α : Type} {i : Insn α} (h : i.isPseudo) : i.content? = none := by
  cases i <;> first | rfl | cases h

/-- The lines that keys without repetition have are not more than there are. -/
theorem length_flatMap_filter_le {α : Type} {ks : List Nat} (hk : ks.Nodup)
    (ls : List (Nat × α)) : (ks.flatMap fun k => ls.filter (·.1 = k)).length ≤ ls.length := by
  induction ks generalizing ls with
  | nil => exact Nat.zero_le _
  | cons k ks ih =>
    obtain ⟨hnew, hks⟩ := List.nodup_cons.1 hk
    have hrest : ∀ j ∈ ks, ls.filter (·.1 = j) = (ls.filter fun l => !decide (l.1 = k)).filter
        (·.1 = j) := by
      intro j hj
      rw [List.filter_filter]
      refine List.filter_congr fun l _ => ?_
      rw [Bool.eq_iff_iff, Bool.and_eq_true, Bool.not_eq_true', decide_eq_true_eq,
        decide_eq_false_iff_not]
      exact ⟨fun hlj => ⟨hlj, fun hlk => hnew (hlk ▸ hlj ▸ hj)⟩, fun h => h.1⟩
    rw [List.flatMap_cons, List.length_append, List.flatMap_congr hrest,
      List.length_eq_length_filter_add (l := ls) fun l => decide (l.1 = k)]
    exact Nat.add_le_add_left (ih hks _) _

namespace CodeBody

variable {b : CodeBody} {pool : Pool}

/-- A resolved body has each of its lines at most once. -/
theorem length_lineMarks_nodes (h : b.Sound) :
    (lineMarks 0 b.nodes).length ≤ b.lines.length := by
  have hnodup : (b.insns.map (·.1)).Nodup := h.ascending.imp fun hlt => Nat.ne_of_lt hlt
  have hkeys : b.insns.map (·.1) = b.insns.zipIdx.map (·.1.1) := by
    conv_lhs => rw [← List.zipIdx_map_fst 0 b.insns, List.map_map]
    rfl
  have hle := length_flatMap_filter_le hnodup b.lines
  rw [hkeys, List.flatMap_map] at hle
  rw [lineMarks_nodes h]
  simpa only [List.length_flatMap, List.length_map] using hle

theorem fits_nodes (h : b.Drawn pool) {n : Node} (hn : n ∈ b.nodes) :
    Instruction.encodable n = true ∨ ∃ m, n = .method .INVOKEINTERFACE m := by
  rcases mem_nodes hn with hp | ⟨i, hi, rfl⟩
  · cases n <;> first | exact .inl rfl | cases hp
  · rcases (h.insns i hi).fits _ with he | ⟨m, hm⟩
    · exact .inl he
    · exact .inr ⟨m, by rw [hm]; rfl⟩

theorem held_nodes (h : b.Drawn pool) {n : Node} (hn : n ∈ b.nodes) {c : Content}
    (hc : n.content? = some c) : pool.Holds c := by
  rcases mem_nodes hn with hp | ⟨i, hi, rfl⟩
  · rw [Insn.content?_of_pseudo hp] at hc
    cases hc
  · rw [Insn.content?_mapLabels] at hc
    exact (h.insns i hi).held c hc

end CodeBody

/-! ## Decoded classes -/

/-- A method as it is read: its descriptor is valid, and it has no code or
what a sound body resolves to. -/
structure Method.Decoded (m : Method) : Prop where
  desc : (Descriptor.methodShape? m.desc).isSome
  body : m.code = {} ∧ m.locals = [] ∨
    ∃ b : CodeBody, b.Sound ∧ m.code = b.resolve.1 ∧ m.locals = b.resolve.2

structure Class.Decoded (c : Class) : Prop where
  major : c.major ≤ Class.formatMajor
  fields : ∀ f ∈ c.fields, (Descriptor.fieldWidth? f.desc).isSome
  methods : ∀ m ∈ c.methods, m.Decoded

theorem Method.Decoded.linked {m : Method} (h : m.Decoded) : m.Linked := by
  rcases h.body with ⟨hc, hl⟩ | ⟨b, hb, hc, hl⟩
  · exact Method.linked_of_empty hc hl
  · exact CodeBody.linked_resolve hb hc hl

/-- Every operand has an encoding, those of interface calls perhaps excepted. -/
def Method.Fits (m : Method) : Prop :=
  ∀ i ∈ m.code.toList, Instruction.encodable i = true ∨ ∃ r, i = .method .INVOKEINTERFACE r

/-- The class asks for nothing that the pool does not hold, counts no table
past two bytes, and its operands fit. -/
structure Class.Drawn (pool : Pool) (c : Class) : Prop where
  asks : c.Asks pool.Holds (· ≤ 65535)
  fits : ∀ m ∈ c.methods, m.Fits

section
open Reader

theorem Field.gives_read (pool : Pool) : Gives 0 (Field.read pool) fun f =>
    (Descriptor.fieldWidth? f.desc).isSome ∧ f.Asks pool.Holds := by
  unfold Field.read
  refine gives_then (m := 0) gives_u16 fun access _ => ?_
  refine gives_then (m := 0) gives_u16 fun i _ => gives_then (m := 0) gives_lift fun name hn => ?_
  refine gives_then (m := 0) gives_u16 fun j _ => gives_then (m := 0) gives_lift fun desc hd => ?_
  refine gives_then (m := 0) gives_lift fun _ hw => ?_
  have hdesc := fieldWidth_ok.1 ⟨_, hw⟩
  have hname : pool.Holds (.utf8 name) := ⟨i, Pool.leads_of_utf8 hn⟩
  have htype : pool.Holds (.utf8 desc) := ⟨j, Pool.leads_of_utf8 hd⟩
  refine gives_then (m := 0) gives_u8 fun flag _ => ?_
  split
  · exact gives_pure ⟨hdesc, hname, htype, nofun⟩
  · refine gives_then (m := 0) gives_u16 fun k _ => ?_
    refine gives_then (m := 0) gives_lift fun v hv => gives_pure ⟨hdesc, hname, htype, ?_⟩
    rintro _ ⟨⟩
    exact ⟨k, Pool.leads_of_constant hv⟩

theorem Pool.gives_className (pool : Pool) :
    Gives 0 (do pool.className (← u16)) fun s => pool.Holds (.loadable (.classRef s)) :=
  gives_then (m := 0) gives_u16 fun i _ => gives_lift.imp (Nat.le_refl _) fun _ hs =>
    ⟨i, Pool.leads_of_className hs⟩

/-- Without code a method asks for its name and its exceptions only. -/
theorem Method.asks_of_empty {m : Method} {pool : Pool} (hcode : m.code = {})
    (hlocals : m.locals = []) (hname : pool.Holds (.utf8 m.name))
    (hdesc : pool.Holds (.utf8 m.desc))
    (he : m.exceptions.length ≤ 65535 ∧ ∀ e ∈ m.exceptions, pool.Holds (.loadable (.classRef e))) :
    m.Asks pool.Holds (· ≤ 65535) ∧ m.Fits := by
  have hnodes : m.code.toList = [] := by rw [hcode]; rfl
  have hhandlers : m.code.handlers.toList = [] := by rw [hcode]
  refine ⟨⟨hname, hdesc, he.2, ?_, ?_, ?_, he.1, ?_, ?_, ?_⟩, ?_⟩
  · rw [hnodes]
    exact List.forall_mem_nil _
  · rw [hhandlers]
    exact List.forall_mem_nil _
  · rw [hlocals]
    exact List.forall_mem_nil _
  · rw [hhandlers]
    exact Nat.zero_le _
  · rw [hlocals]
    exact Nat.zero_le _
  · rw [hnodes]
    exact Nat.zero_le _
  · unfold Method.Fits
    rw [hnodes]
    exact List.forall_mem_nil _

/-- The code that a body resolves to asks for what the body was read with. -/
theorem Method.asks_of_body {m : Method} {b : CodeBody} {pool : Pool} (hb : b.Sound)
    (hd : b.Drawn pool) (hcode : m.code = b.resolve.1) (hlocals : m.locals = b.resolve.2)
    (hname : pool.Holds (.utf8 m.name)) (hdesc : pool.Holds (.utf8 m.desc))
    (he : m.exceptions.length ≤ 65535 ∧ ∀ e ∈ m.exceptions, pool.Holds (.loadable (.classRef e))) :
    m.Asks pool.Holds (· ≤ 65535) ∧ m.Fits := by
  have hnodes : m.code.toList = b.nodes := by rw [hcode, CodeBody.toList_resolve hb]
  have hhandlers : m.code.handlers.toList = b.ranges.map fun r =>
      ⟨b.labelTable.getD r.start 0, b.labelTable.getD r.stop 0, b.labelTable.getD r.target 0,
        r.caught⟩ := by
    rw [hcode]
    rfl
  refine ⟨⟨hname, hdesc, he.2, ?_, ?_, ?_, he.1, ?_, ?_, ?_⟩, ?_⟩
  · rw [hnodes]
    exact fun i hi c hc => CodeBody.held_nodes hd hi hc
  · rw [hhandlers]
    intro h hh e hc
    obtain ⟨r, hr, rfl⟩ := List.mem_map.1 hh
    exact hd.caught r hr e hc
  · rw [hlocals]
    intro v hv
    obtain ⟨u, hu, rfl⟩ := List.mem_map.1 hv
    exact hd.locals u hu
  · rw [hhandlers, List.length_map]
    exact hd.fewRanges
  · rw [hlocals, CodeBody.resolve, List.length_map]
    exact hd.fewLocals
  · rw [hnodes]
    exact Nat.le_trans (CodeBody.length_lineMarks_nodes hb) hd.fewLines
  · unfold Method.Fits
    rw [hnodes]
    exact fun i hi => CodeBody.fits_nodes hd hi

theorem Method.gives_read (pool : Pool) : Gives 0 (Method.read pool) fun m =>
    m.Decoded ∧ m.Asks pool.Holds (· ≤ 65535) ∧ m.Fits := by
  unfold Method.read
  refine gives_then (m := 0) gives_u16 fun access _ => ?_
  refine gives_then (m := 0) gives_u16 fun i _ => gives_then (m := 0) gives_lift fun name hn => ?_
  refine gives_then (m := 0) gives_u16 fun j _ => gives_then (m := 0) gives_lift fun desc hd => ?_
  refine gives_then (m := 0) gives_lift fun _ hs => ?_
  have hdesc := methodShape_ok.1 ⟨_, hs⟩
  have hname : pool.Holds (.utf8 name) := ⟨i, Pool.leads_of_utf8 hn⟩
  have htype : pool.Holds (.utf8 desc) := ⟨j, Pool.leads_of_utf8 hd⟩
  refine gives_then (m := 0) (gives_counted pool.gives_className) fun exceptions he => ?_
  refine gives_then (m := 0) gives_u8 fun flag _ => ?_
  split
  · exact gives_pure ⟨⟨hdesc, .inl ⟨rfl, rfl⟩⟩, Method.asks_of_empty rfl rfl hname htype he⟩
  · unfold Method.readBody
    refine gives_then (m := 0) (CodeBody.gives_read pool _) fun b hb => ?_
    refine gives_then (m := 0) gives_lift fun _ hc => gives_pure ?_
    have hlegible := fun i hi => (hb.1.insns i hi).toLegible
    have hsound := CodeBody.sound_of_check hlegible hb.2.1 hb.2.2 hc
    exact ⟨⟨hdesc, .inr ⟨b, hsound, rfl, rfl⟩⟩,
      Method.asks_of_body hsound hb.1 rfl rfl hname htype he⟩

theorem Class.gives_readHeader : Gives 0 Class.readHeader fun v => v.1 ≤ Class.formatMajor := by
  unfold Class.readHeader
  refine gives_then (m := 0) gives_u32 fun magic _ => ?_
  dsimp only
  split
  · exact gives_then (m := 0) (p := fun _ => False) gives_throw fun _ h => h.elim
  refine gives_then (m := 0) gives_u16 fun major _ => ?_
  refine gives_then (m := 0) gives_u16 fun minor _ => ?_
  split
  · exact gives_then (m := 0) (p := fun _ => False) gives_throw fun _ h => h.elim
  · rename_i hm
    exact gives_pure (UInt16.not_lt.1 hm)

theorem Pool.gives_readText : Gives 0 Pool.readText fun s => s.utf8ByteSize ≤ 65535 := by
  unfold Pool.readText
  refine gives_then (m := 0) gives_u16 fun n _ => ?_
  refine gives_then (m := 0) (gives_take _) fun bytes hb => ?_
  split
  · rename_i s hs
    have := n.toNat_lt
    exact gives_pure (Nat.le_trans (Utf8.utf8ByteSize_of_decode hs) (by omega))
  · exact gives_throw

/-- An entry that is a text has no more bytes than two bytes can count. -/
def Entry.Short (e : Entry) : Prop := ∀ s, e = .utf8 s → s.utf8ByteSize ≤ 65535

theorem Pool.gives_readPair {f : UInt16 → UInt16 → Entry} (hf : ∀ a b, (f a b).Short) :
    Gives 0 (Pool.readPair f) Entry.Short :=
  gives_then (m := 0) gives_u16 fun a _ => gives_then (m := 0) gives_u16 fun b _ =>
    gives_pure (hf a b)

theorem Pool.gives_readEntry : Gives 0 Pool.readEntry Entry.Short := by
  unfold Pool.readEntry
  refine gives_then (n := 0) (m := 0) (p := fun _ => True) ?_ fun start _ => ?_
  · rintro c _ _ ⟨⟩
    exact ⟨Nat.le_refl _, rfl, trivial⟩
  refine gives_then (m := 0) gives_u8 fun tag _ => ?_
  refine gives_ite (fun _ => ?_) fun _ => ?_
  · refine gives_then (m := 0) Pool.gives_readText fun s hs => gives_pure ?_
    rintro _ ⟨⟩
    exact hs
  refine gives_ite (fun _ => gives_then (m := 0) gives_i32 fun _ _ => gives_pure nofun) fun _ => ?_
  refine gives_ite (fun _ => gives_then (m := 0) gives_u32 fun _ _ => gives_pure nofun) fun _ => ?_
  refine gives_ite (fun _ => gives_then (m := 0) gives_i64 fun _ _ => gives_pure nofun) fun _ => ?_
  refine gives_ite (fun _ => gives_then (m := 0) gives_u64 fun _ _ => gives_pure nofun) fun _ => ?_
  refine gives_ite (fun _ => gives_then (m := 0) gives_u16 fun _ _ => gives_pure nofun) fun _ => ?_
  refine gives_ite (fun _ => gives_then (m := 0) gives_u16 fun _ _ => gives_pure nofun) fun _ => ?_
  refine gives_ite (fun _ => Pool.gives_readPair nofun) fun _ => ?_
  refine gives_ite (fun _ => Pool.gives_readPair nofun) fun _ => ?_
  refine gives_ite (fun _ => Pool.gives_readPair nofun) fun _ => ?_
  exact gives_ite (fun _ => Pool.gives_readPair nofun) fun _ => gives_throw

theorem Pool.gives_read : Gives 0 Pool.read Pool.Modest := by
  refine gives_then (m := 0) gives_u16 fun n _ => ?_
  refine gives_then (m := 0) (gives_times Pool.gives_readEntry _) fun es hes => gives_pure ⟨?_, ?_⟩
  · have := n.toNat_lt
    rw [List.size_toArray, hes.1]
    omega
  · exact fun s hs => hes.2 _ (List.mem_toArray.1 hs) s rfl

theorem Class.gives_read : Gives 0 Class.read fun c =>
    c.Decoded ∧ ∃ pool : Pool, pool.Modest ∧ c.Drawn pool := by
  unfold Class.read
  refine gives_then (m := 0) Class.gives_readHeader fun v hv => ?_
  refine gives_then (m := 0) Pool.gives_read fun pool hp => ?_
  refine gives_then (m := 0) gives_u16 fun access _ => ?_
  refine gives_then (m := 0) gives_u16 fun j _ => gives_then (m := 0) gives_lift fun name hn => ?_
  refine gives_then (m := 0) gives_u16 fun i _ => ?_
  refine gives_then (m := 0) gives_lift fun superName hsuper => ?_
  refine gives_then (m := 0) (gives_counted pool.gives_className) fun interfaces hi => ?_
  refine gives_then (m := 0) (gives_counted (Field.gives_read pool)) fun fields hf => ?_
  refine gives_then (m := 0) (gives_counted (Method.gives_read pool)) fun methods hm => ?_
  refine gives_pure ⟨⟨hv, fun f h => (hf.2 f h).1, fun m h => (hm.2 m h).1⟩, pool, hp, ?_⟩
  have hsupers : ∀ s, superName = some s → pool.Holds (.loadable (.classRef s)) := by
    rintro s rfl
    exact ⟨i, Pool.leads_of_className? hsuper⟩
  exact ⟨⟨⟨j, Pool.leads_of_className hn⟩, hsupers, hi.2, fun f h => (hf.2 f h).2,
    fun m h => (hm.2 m h).2.1, hi.1, hf.1, hm.1⟩, fun m h => (hm.2 m h).2.2⟩

end

theorem Class.read_of_decode {bytes : List UInt8} {c : Class} (h : Class.decode bytes = .ok c) :
    ∃ rest, Class.read ⟨bytes, 0⟩ = .ok (c, rest) := by
  unfold Class.decode at h
  obtain ⟨⟨d, rest⟩, hr, h⟩ := bind_eq_ok.1 h
  change (if rest.rest.isEmpty then .ok d else throw (Fault.trailingBytes rest.rest.length)) =
    (.ok c : Except Fault Class) at h
  split at h
  · cases h
    exact ⟨rest, hr⟩
  · cases h

/-- What decoding promises of a class, whatever the bytes are. -/
theorem Class.decoded_of_decode {bytes : List UInt8} {c : Class} (h : Class.decode bytes = .ok c) :
    c.Decoded := by
  obtain ⟨rest, hr⟩ := Class.read_of_decode h
  exact (Class.gives_read _ _ _ hr).2.2.1

/-- What the class takes from the pool of its container. -/
theorem Class.drawn_of_decode {bytes : List UInt8} {c : Class} (h : Class.decode bytes = .ok c) :
    ∃ pool : Pool, pool.Modest ∧ c.Drawn pool := by
  obtain ⟨rest, hr⟩ := Class.read_of_decode h
  exact (Class.gives_read _ _ _ hr).2.2.2

end ClassPatch
