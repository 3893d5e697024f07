-- Splices are hygienic. The labels that a fragment leaves unbound become new
-- ones of the host, at every site others, and its nodes and handlers go in
-- under these. Of the host everything stays that is not in the gap.
import ClassPatch.Proofs.FreshSlots
import ClassPatch.Proofs.Pulled

namespace ClassPatch.Code

/-! ## One splice -/

/-- A label of the fragment that is not bound to one of the host. -/
def Unbound (fragment : Code) (l : Label) : Prop :=
  l ∈ fragment.issued ∧ fragment.imports.get? l = none

/-- What a splice makes of the host, where the fragment's labels become those
that `label` gives. -/
structure Hygienic (host : Code) (index count : Nat) (fragment : Code) (label : Label → Label)
    (result : Nat × Code) : Prop where
  bound : ∀ l ∈ fragment.issued, ∀ i, fragment.imports.get? l = some i → label l = i.host
  fresh : ∀ l, fragment.Unbound l → label l ∉ host.issued ∧ label l ∈ result.2.issued
  apart : ∀ l l', fragment.Unbound l → fragment.Unbound l' → label l = label l' → l = l'
  placed : ∃ put, put.length = result.1 ∧
    result.2.toList = host.toList.take index ++ put ++ host.toList.drop (index + count) ∧
    realNodes put = (realNodes fragment.toList).map (Insn.mapLabels label) ∧
    put.flatMap Insn.targets = (fragment.toList.flatMap Insn.targets).map label ∧
    ∀ l n, fragment.Unbound l → MarkedAt fragment.toList n l → MarkedAt put n (label l)
  once : ∀ l, fragment.Unbound l → l ∈ markers fragment.toList →
    (markers result.2.toList).count (label l) = 1
  handlers : result.2.handlers = fragment.handlers.map (Handler.mapLabels label) ++ host.handlers
  names : result.2.names = host.names
  survives : Retains host.store result.2.store
  grows : result.2.toList.length + (gap host index count).length = host.toList.length + result.1

section Splice
variable {host fragment : Code} {index count : Nat} {l : Label}

/-- New labels are past all that is stored. -/
theorem Unbound.size_le (ho : OwnHandles host.store) (hl : fragment.Unbound l) :
    host.store.size ≤ (adopt host fragment).map l := (map_of_unbound ho hl.1 hl.2).2.1

theorem Unbound.not_mem_order (h : host.Stored) (hl : fragment.Unbound l) :
    (adopt host fragment).map l ∉ host.order.toList := fun hin =>
  Nat.not_lt_of_le (hl.size_le h.own) (h.made _ hin)

theorem Unbound.not_mem_kept (h : host.Stored) (hl : fragment.Unbound l) :
    (adopt host fragment).map l ∉ kept host index count := fun hk =>
  hl.not_mem_order h ((order_perm host index count).mem_iff.2 (List.mem_append_left _ hk))

theorem Unbound.stored_map (h : host.Stored) (hb : fragment.Binds host) (index count : Nat)
    (hl : fragment.Unbound l) :
    (host.splice index count fragment).2.store[(adopt host fragment).map l]? =
      some (.label ((adopt host fragment).map l)) :=
  (sound_segment h.own hb index count).retains _ _ (map_of_unbound h.own hl.1 hl.2).2.2

/-- Before its own marker nothing of the fragment marks a new label. -/
theorem Unbound.not_marked (h : host.Stored) (hb : fragment.Binds host)
    (hn : (markers fragment.toList).Nodup) {before after : List Node}
    (hsplit : fragment.toList = before ++ .label l :: after) (hl : fragment.Unbound l) :
    (adopt host fragment).map l ∉ (segmentOf host fragment index count before).marked := by
  have hold : ∀ k ∈ host.issued, (adopt host fragment).map l ≠ k := fun k hk he =>
    Nat.not_lt_of_le (hl.size_le h.own) (he ▸ lt_size_of_issued h.own hk)
  intro hin
  rcases Segment.mem_marked hin with hin | ⟨own, hown, -, hbrought⟩
  · exact Std.HashSet.not_mem_empty hin
  have hmem : own ∈ fragment.issued := mem_issued_of_mem_markers <| by
    rw [hsplit, markers_append]
    exact List.mem_append_left _ hown
  rcases hbrought with heq | hrun
  · cases hi : fragment.imports.get? own with
    | some i => exact hold _ (hb own i hi) (heq.trans (map_of_bound h.own hmem hi))
    | none =>
      -- Both are new, so they are one label, and that is marked again behind.
      have hsame := map_inj_of_unbound h.own hl.1 hmem hl.2 hi heq
      rw [hsplit, markers_append, List.nodup_append] at hn
      exact hn.2.2 l (hsame ▸ hown) l (List.mem_cons_self ..) rfl
  · exact hold _ (issued_of_mem_gap (mem_runTable hrun)) rfl

/-- The marker of a new label has as many instructions before it as in the fragment. -/
theorem Unbound.markedAt_segment (h : host.Stored) (hb : fragment.Binds host)
    (hn : (markers fragment.toList).Nodup) (index count : Nat) {n : Nat} (hl : fragment.Unbound l)
    (hat : MarkedAt fragment.toList n l) :
    MarkedAt (segment host index count fragment).nodes n ((adopt host fragment).map l) := by
  obtain ⟨before, after, hsplit, rfl⟩ := hat
  have hmoves : Moves fragment.imports l := by
    rw [Moves, hl.2]
    rfl
  have hnew : (adopt host fragment).map l ∉ kept host index count ∧
      (adopt host fragment).map l ∉ (segmentOf host fragment index count before).marked :=
    ⟨hl.not_mem_kept h, hl.not_marked h hb hn hsplit⟩
  exact markedAt_segment_of_new h hb hsplit hmoves hnew (.inl rfl) hnew

/-- A new label is in place once if the fragment marks it. -/
theorem Unbound.count_splice (h : host.Stored) (hb : fragment.Binds host)
    (hn : (markers fragment.toList).Nodup) (index count : Nat) (hl : fragment.Unbound l)
    (hm : l ∈ markers fragment.toList) :
    (markers (host.splice index count fragment).2.toList).count ((adopt host fragment).map l) =
      1 := by
  have hs := sound_segment h.own hb index count
  obtain ⟨before, after, hsplit⟩ := List.append_of_mem (mem_markers.1 hm)
  have hin : (adopt host fragment).map l ∈ (segment host index count fragment).handles := by
    have hat := hl.markedAt_segment h hb hn index count ⟨before, after, hsplit, rfl⟩
    exact List.mem_reverse.1 ((mem_markers_nodesOf hs.own).1 hat.mem).1
  have hhoisted : (adopt host fragment).map l ∉
      (segment host index count fragment).hoisted (removed host index count) := fun hin =>
    hl.not_mem_order h (mem_order_of_removed (List.mem_filter.1 hin).1)
  rw [count_markers_splice (stored_splice h hb index count).own (hl.stored_map h hb index count),
    List.count_eq_zero.2 (hl.not_mem_kept h), List.count_eq_zero.2 hhoisted, hs.once.count,
    if_pos hin]

/-- Only instructions have targets. -/
theorem targets_realNodes (nodes : List Node) :
    (realNodes nodes).flatMap Insn.targets = nodes.flatMap Insn.targets := by
  induction nodes with
  | nil => rfl
  | cons i nodes ih =>
    unfold realNodes at ih ⊢
    rw [List.flatMap_cons, ← ih, List.filter_cons]
    cases hp : i.isPseudo with
    | true => simp [Insn.isReal, hp, Insn.targets_of_pseudo hp]
    | false => simp [Insn.isReal, hp]

/-- Whatever is put in branches to what its fragment branches to. -/
theorem targets_insertion (h : host.Stored) (hb : fragment.Binds host) (index count : Nat) :
    (insertion host index count fragment).flatMap Insn.targets =
      (fragment.toList.flatMap Insn.targets).map (adopt host fragment).map := by
  rw [← targets_realNodes, realNodes_insertion h hb, ← targets_realNodes fragment.toList,
    List.flatMap_map, List.map_flatMap]
  exact List.flatMap_congr fun i _ => Insn.targets_mapLabels _ i

theorem hygienic_splice (h : host.Stored) (hb : fragment.Binds host)
    (hn : (markers fragment.toList).Nodup) (index count : Nat) :
    Hygienic host index count fragment (adopt host fragment).map
      (host.splice index count fragment) := by
  have hput := length_insertion h hb index count
  have hlist := toList_splice h hb index count
  constructor
  case bound => exact fun l hl i hi => map_of_bound h.own hl hi
  case fresh =>
    intro l hl
    refine ⟨fun hin => Nat.not_lt_of_le (hl.size_le h.own) (lt_size_of_issued h.own hin), ?_⟩
    exact (mem_issued (stored_splice h hb index count).own).2 (hl.stored_map h hb index count)
  case apart => exact fun l l' hl hl' => map_inj_of_unbound h.own hl.1 hl'.1 hl.2 hl'.2
  case placed =>
    exact ⟨_, hput, hlist, realNodes_insertion h hb index count, targets_insertion h hb index count,
      fun l n hl hat => markedAt_insertion (hl.markedAt_segment h hb hn index count hat)⟩
  case once => exact fun l hl hm => hl.count_splice h hb hn index count hm
  case handlers => rfl
  case names => rfl
  case survives => exact retains_splice h hb index count
  case grows =>
    rw [hlist, ← hput, gap]
    simp only [List.length_append, List.length_take, List.length_drop]
    omega

end Splice

/-! ## Runs of splices -/

/-- The code after some splices, one after the other. -/
def splices (host : Code) (ts : List Method.Turn) : Code :=
  ts.foldl (fun host t => (host.splice t.index t.count t.fragment).2) host

/-- The fragment binds labels of the host, and marks each of its own at most once. -/
structure Takes (host : Code) (t : Method.Turn) : Prop where
  binds : t.fragment.Binds host
  once : (markers t.fragment.toList).Nodup

/-- Every splice of the run finds the host so that it takes the fragment. -/
def TakesAll (host : Code) : List Method.Turn → Prop
  | [] => True
  | t :: ts => host.Takes t ∧ (host.splice t.index t.count t.fragment).2.TakesAll ts

section Run
variable {host : Code} {ts us : List Method.Turn}

theorem takesAll_append :
    host.TakesAll (ts ++ us) ↔ host.TakesAll ts ∧ (host.splices ts).TakesAll us := by
  induction ts generalizing host with
  | nil => exact ⟨fun h => ⟨trivial, h⟩, fun h => h.2⟩
  | cons t ts ih => exact (and_congr_right fun _ => ih).trans and_assoc.symm

/-- Over a run code stays stored, and keeps all handles. -/
theorem stored_splices (h : host.Stored) (hts : host.TakesAll ts) :
    (host.splices ts).Stored ∧ Retains host.store (host.splices ts).store := by
  induction ts generalizing host with
  | nil => exact ⟨h, .refl _⟩
  | cons t ts ih =>
    obtain ⟨hstored, hretains⟩ := ih (stored_splice h hts.1.binds t.index t.count) hts.2
    exact ⟨hstored, (retains_splice h hts.1.binds t.index t.count).trans hretains⟩

end Run

/-- Over any run of splices, of one fragment or of several, each is hygienic:
the labels of its fragment are new at its site, so none of an earlier site,
and everything goes in under these. -/
theorem splices_are_hygienic {host : Code} (h : host.Stored) {before after : List Method.Turn}
    {t : Method.Turn} (hrun : host.TakesAll (before ++ t :: after)) :
    Hygienic (host.splices before) t.index t.count t.fragment
      (adopt (host.splices before) t.fragment).map
      ((host.splices before).splice t.index t.count t.fragment) ∧
    ∀ first earlier between, before = first ++ earlier :: between →
      ∀ l l', earlier.fragment.Unbound l → t.fragment.Unbound l' →
        (adopt (host.splices first) earlier.fragment).map l ≠
          (adopt (host.splices before) t.fragment).map l' := by
  obtain ⟨hbefore, ht, -⟩ := takesAll_append.1 hrun
  have hstored := (stored_splices h hbefore).1
  refine ⟨hygienic_splice hstored ht.binds ht.once t.index t.count, ?_⟩
  rintro first earlier between rfl l l' hl hl' heq
  obtain ⟨hfirst, hearlier, hbetween⟩ := takesAll_append.1 hbefore
  have hhost := (stored_splices h hfirst).1
  have hsite := stored_splice hhost hearlier.binds earlier.index earlier.count
  have hold := lt_size_of_getElem?
    (hl.stored_map hhost hearlier.binds earlier.index earlier.count)
  have hsplices : host.splices (first ++ earlier :: between) =
      ((host.splices first).splice earlier.index earlier.count earlier.fragment).2.splices
        between := List.foldl_append ..
  have hkept := (stored_splices hsite hbetween).2.size_le
  rw [← hsplices] at hkept
  have hnew := hl'.size_le hstored.own
  rw [heq] at hold
  exact Nat.not_lt_of_le hnew (Nat.lt_of_lt_of_le hold hkept)

def returning : Code := Code.empty.push (.simple .RETURN)

/-- Puts a loop that catches all it throws in front, with a label that is not in place. -/
def spinning : Method.Turn where
  index := 0
  count := 0
  fragment := ((((Code.empty.mark "top").push (.jump .GOTO 0)).mark "end").newLabel.2).addHandler
    ⟨0, 2, 0, none⟩

theorem spinning_twice_is_hygienic :
    returning.Stored ∧ returning.TakesAll [spinning, spinning] ∧
    Hygienic (returning.splices [spinning]) 0 0 spinning.fragment
      (adopt (returning.splices [spinning]) spinning.fragment).map
      ((returning.splices [spinning]).splice 0 0 spinning.fragment) ∧
    spinning.fragment.Unbound 0 ∧
    (adopt returning spinning.fragment).map 0 ≠
      (adopt (returning.splices [spinning]) spinning.fragment).map 0 := by
  have hstored : returning.Stored := by decide
  have htakes : ∀ host : Code, host.Takes spinning := fun host =>
    ⟨fun _ _ hi => (nomatch hi), by decide⟩
  have hrun : returning.TakesAll ([spinning] ++ spinning :: []) := ⟨htakes _, htakes _, trivial⟩
  have hunbound : spinning.fragment.Unbound 0 := ⟨by decide, rfl⟩
  obtain ⟨hhygienic, hapart⟩ := splices_are_hygienic hstored hrun
  exact ⟨hstored, hrun, hhygienic, hunbound, hapart [] spinning [] rfl 0 0 hunbound hunbound⟩

end ClassPatch.Code
