-- The limit of locals that is written for a method. It is past every slot
-- that the method uses, as far as the numbers of slots go: they stop at the
-- largest one, and a use that ends behind that is written all the same.
import ClassPatch.Proofs.FreshSlots
import ClassPatch.Proofs.Normal

namespace ClassPatch

theorem saturate_le {k n : Nat} (hn : n < 65535) : (saturate k).toNat ≤ n ↔ k ≤ n := by
  rw [toNat_saturate]
  omega

/-! ## What a method demands -/

namespace Method

/-- Where the parameters end, if the descriptor parses, then where each use of a slot ends. -/
def demands (m : Method) : List Nat :=
  m.paramSlots.toOption.toList ++ m.uses.map fun u => u.1.toNat + u.2

variable {m : Method}

theorem knownParams_le {n : Nat} (hn : n < 65535) :
    m.knownParams.toNat ≤ n ↔ ∀ k ∈ m.paramSlots.toOption.toList, k ≤ n := by
  unfold knownParams
  cases m.paramSlots with
  | error f => simp [Except.toOption]
  | ok params => simpa [Except.toOption] using saturate_le hn

/-- Below the largest number nothing was cut off. -/
theorem neededLocals_le {n : Nat} (hn : n < 65535) :
    m.neededLocals.toNat ≤ n ↔ m.maxLocals.toNat ≤ n ∧ ∀ k ∈ m.demands, k ≤ n := by
  have hcode : m.code.frontier.toNat ≤ n ↔
      ∀ a ∈ Code.slotAccesses m.code.toList, a.1.toNat + a.2 ≤ n := by
    refine greatest_le.trans (List.forall_mem_map.trans ?_)
    exact forall₂_congr fun a _ => saturate_le hn
  have hdebug : (greatest (m.locals.map fun v => advance v.slot v.width)).toNat ≤ n ↔
      ∀ v ∈ m.locals, v.slot.toNat + v.width ≤ n := by
    refine greatest_le.trans (List.forall_mem_map.trans ?_)
    exact forall₂_congr fun v _ => saturate_le hn
  unfold neededLocals demands uses
  simp only [toNat_max, Nat.max_le, knownParams_le hn, hcode, hdebug, List.map_append,
    List.map_map, List.forall_mem_append, List.forall_mem_map, Function.comp_apply]
  tauto

/-- What a limit of locals says about the method: it covers each demand that it can,
and the limit that the method had, and no smaller one does. -/
structure Limits (m : Method) (limit : Nat) : Prop where
  covers_iff : ∀ k ∈ m.demands, k ≤ limit ↔ k ≤ 65535
  stored : m.maxLocals.toNat ≤ limit
  least : ∀ n, m.maxLocals.toNat ≤ n → (∀ k ∈ m.demands, k ≤ n) → limit ≤ n

theorem limits_neededLocals (m : Method) : m.Limits m.neededLocals.toNat := by
  have hlt : m.neededLocals.toNat < 65536 := m.neededLocals.toNat_lt
  -- Nothing is to be shown of the largest number; a smaller one was not cut off.
  have hall : m.neededLocals.toNat < 65535 →
      m.maxLocals.toNat ≤ m.neededLocals.toNat ∧ ∀ k ∈ m.demands, k ≤ m.neededLocals.toNat :=
    fun h => (neededLocals_le h).1 (Nat.le_refl _)
  refine ⟨fun k hk => ⟨fun hle => by omega, fun hle => ?_⟩, ?_, fun n hstored hdemands => ?_⟩
  · by_cases h : m.neededLocals.toNat < 65535
    · exact (hall h).2 k hk
    · omega
  · unfold neededLocals
    rw [toNat_max]
    exact Nat.le_max_right ..
  · by_cases h : n < 65535
    · exact (neededLocals_le h).2 ⟨hstored, hdemands⟩
    · omega

end Method

/-! ## Where the limit is written -/

open PoolBuilder in
/-- What a row of computations gives was given by each of them in turn. -/
theorem forall₂_of_mapM {α β : Type} {f : α → Builder β} {xs : List α} {ys : List β}
    {b b' : PoolBuilder} (h : xs.mapM f b = .ok (ys, b')) :
    List.Forall₂ (fun x y => ∃ b b', f x b = .ok (y, b')) xs ys := by
  induction xs generalizing ys b with
  | nil =>
    cases h
    exact .nil
  | cons x xs ih =>
    rw [List.mapM_cons] at h
    obtain ⟨y, b₁, hy, h⟩ := bind_ok.1 h
    obtain ⟨ys', b₂, hys, h⟩ := bind_ok.1 h
    obtain ⟨rfl, rfl⟩ := pure_ok.1 h
    exact .cons ⟨b, b₁, hy⟩ (ih hys)

namespace Method
open PoolBuilder

/-- The bytes of a method with a body: its head, a 1, and the limits of the stack and of locals. -/
def HasLimit (m : Method) (limit : UInt16) (bytes : List UInt8) : Prop :=
  ∃ head rest, head.length = 8 + 2 * m.exceptions.length ∧
    bytes = head ++ 1 :: (wordBytes m.code.maxStack ++ wordBytes limit ++ rest)

theorem length_of_encodeHead {m : Method} {b b' : PoolBuilder} {head : List UInt8}
    (h : m.encodeHead b = .ok (head, b')) : head.length = 8 + 2 * m.exceptions.length := by
  unfold encodeHead at h
  obtain ⟨name, b₁, -, h⟩ := bind_ok.1 h
  obtain ⟨desc, b₂, -, h⟩ := bind_ok.1 h
  obtain ⟨count, b₃, hcount, h⟩ := bind_ok.1 h
  obtain ⟨is, b₄, his, h⟩ := bind_ok.1 h
  obtain ⟨rfl, rfl⟩ := pure_ok.1 h
  obtain ⟨-, rfl⟩ := countBytes_ok (lift_ok.1 hcount).1
  have hnames : (is.flatMap wordBytes).length = m.exceptions.length * 2 := by
    simp [wordBytes, List.length_flatMap, Reader.length_bytesOf, (forall₂_of_mapM his).length_eq]
  simp only [List.length_append, wordBytes, Reader.length_bytesOf] at hnames ⊢
  omega

/-- The bytes were written for the method, with a limit of locals if it has code. -/
structure Limited (m : Method) (bytes : List UInt8) : Prop where
  written : ∃ b b', m.encode b = .ok (bytes, b')
  limits : ¬m.code.isEmpty → ∃ limit, m.HasLimit limit bytes ∧ m.Limits limit.toNat

/-- The limit of locals stands behind that of the stack. -/
theorem hasLimit_of_encode {m : Method} (hcode : ¬m.code.isEmpty) {b b' : PoolBuilder}
    {bytes : List UInt8} (h : m.encode b = .ok (bytes, b')) :
    m.HasLimit m.neededLocals bytes := by
  rw [encode_of_nonempty hcode] at h
  obtain ⟨head, b₁, hhead, h⟩ := bind_ok.1 h
  obtain ⟨body, b₂, hbody, h⟩ := bind_ok.1 h
  obtain ⟨-, rest, -, rfl⟩ := writes_of_encodeBody hbody
  obtain ⟨rfl, rfl⟩ := pure_ok.1 h
  exact ⟨head, rest, length_of_encodeHead hhead, rfl⟩

end Method

namespace Class
open PoolBuilder

/-- The bytes of a class end with the number of its methods and what was written for each. -/
theorem methods_of_encode {c : Class} {bytes : List UInt8} (h : c.encode = .ok bytes) :
    ∃ front written, bytes = front ++ (bytesOf 2 c.methods.length ++ written.flatten) ∧
      List.Forall₂ (fun m w => ∃ b b', m.encode b = .ok (w, b')) c.methods written := by
  obtain ⟨-, -, body, b, hbody, rfl⟩ := encode_ok.1 h
  rw [encodeBody_eq] at hbody
  obtain ⟨front, b₁, -, hbody⟩ := bind_ok.1 hbody
  obtain ⟨count, b₂, hcount, hbody⟩ := bind_ok.1 hbody
  obtain ⟨written, b₃, hwritten, hbody⟩ := bind_ok.1 hbody
  obtain ⟨rfl, rfl⟩ := pure_ok.1 hbody
  obtain ⟨-, rfl⟩ := countBytes_ok (lift_ok.1 hcount).1
  refine ⟨bytesOf 4 Fault.magic ++ wordBytes c.major ++ wordBytes c.minor ++ b.bytes ++ front,
    written, ?_, forall₂_of_mapM hwritten⟩
  simp only [List.append_assoc]

/-- Each method with code is written with a limit of locals. It covers the parameters
and each use of a slot exactly if they end within the numbers of slots, and is
as small as that allows. -/
theorem limits_of_encode {c : Class} {bytes : List UInt8} (h : c.encode = .ok bytes) :
    ∃ front written, bytes = front ++ (bytesOf 2 c.methods.length ++ written.flatten) ∧
      List.Forall₂ Method.Limited c.methods written := by
  obtain ⟨front, written, rfl, hw⟩ := methods_of_encode h
  refine ⟨front, written, rfl, hw.imp fun m w hm => ⟨hm, fun hcode => ?_⟩⟩
  obtain ⟨b, b', hm⟩ := hm
  exact ⟨m.neededLocals, Method.hasLimit_of_encode hcode hm, m.limits_neededLocals⟩

end Class

/-! ## A store past the last slot -/

namespace Layout

/-- Without jumps the first round is the last. -/
theorem settles_of_near {items : List Item}
    (hsize : stop (fun _ => false) items items.length ≤ 65535)
    (hnear : ∀ item ∈ items, ∀ stop k, isFar stop k item.node = false) :
    Settles items (fun _ => false) fun _ => false := by
  refine .done ⟨hsize, fun k item hk hfar => ?_⟩ (funext fun k => ?_)
  · rw [hnear item (List.mem_of_getElem? hk)] at hfar
    cases hfar
  · unfold widened
    cases hk : items[k]? with
    | none => rfl
    | some item => exact hnear item (List.mem_of_getElem? hk) _ _

end Layout

/-- A static method that stores a number in a slot. -/
def Method.storingAt (n : UInt16) : Method :=
  { create 9 "m" "()V" with
    code := Code.empty.pushAll [.simple .ICONST_0, .var .ISTORE (.slot n), .simple .RETURN] }

def Class.storingAt (n : UInt16) : Class where
  name := "A"
  methods := [.storingAt n]

namespace Method

theorem writes_storingAt (n : UInt16) (b : PoolBuilder) :
    ∃ rest, (storingAt n).outline.Writes b b rest := by
  let items : List Item :=
    [⟨.simple .ICONST_0, 0⟩, ⟨.var .ISTORE (.slot n), 0⟩, ⟨.simple .RETURN, 0⟩]
  have hsize : Layout.stop (fun _ => false) items items.length ≤ 65535 := by
    have hstore : Instruction.size 1 0 false (.var .ISTORE (.slot n) : Node) ≤ 4 := by
      simp only [Instruction.size]
      split_ifs <;> decide
    change 0 + 1 + Instruction.size 1 0 false (.var .ISTORE (.slot n) : Node) + 1 ≤ 65535
    omega
  have hnear : ∀ item ∈ items, ∀ stop k, Layout.isFar stop k item.node = false := by
    intro item hi stop k
    simp only [items, List.mem_cons, List.not_mem_nil, or_false] at hi
    rcases hi with rfl | rfl | rfl <;> rfl
  have hchecks : ∀ i ∈ (storingAt n).outline.insns, Instruction.check i = .ok () := by
    intro i hi
    have hi : i ∈ items.map (·.node) := hi
    simp only [items, List.map_cons, List.map_nil, List.mem_cons, List.not_mem_nil, or_false] at hi
    rcases hi with rfl | rfl | rfl <;> rfl
  exact ⟨_, items, b, fun _ => false, rfl, Layout.settles_of_near hsize hnear, hchecks, rfl⟩

theorem encodeBody_storingAt (n : UInt16) (b : PoolBuilder) :
    ∃ bytes, (storingAt n).encodeBody b = .ok (bytes, b) := by
  have hlabels : (storingAt n).checkLabels (markerIndex (storingAt n).code.toList) = .ok () := rfl
  obtain ⟨rest, hrest⟩ := writes_storingAt n b
  exact ⟨_, encodeBody_of_writes hlabels hrest⟩

end Method

namespace Class

theorem encode_storingAt (n : UInt16) : ∃ bytes, (storingAt n).encode = .ok bytes :=
  encode_single rfl rfl rfl (of_decide_eq_true rfl) (Method.encodeBody_storingAt n)

/-- A store in the last slot but one is covered. -/
theorem limits_of_encode_storingAt : ∃ bytes, (storingAt 65534).encode = .ok bytes ∧
    ∃ front written, bytes = front ++ (bytesOf 2 1 ++ written.flatten) ∧
      List.Forall₂ Method.Limited [Method.storingAt 65534] written := by
  obtain ⟨bytes, hbytes⟩ := encode_storingAt 65534
  exact ⟨bytes, hbytes, limits_of_encode hbytes⟩

/-- A store in the last slot ends behind the limit that is written. -/
theorem encode_storingAt_top : ∃ bytes front w,
    (storingAt 65535).encode = .ok bytes ∧ bytes = front ++ (bytesOf 2 1 ++ w) ∧
      (∃ b b', (Method.storingAt 65535).encode b = .ok (w, b')) ∧
      (Method.storingAt 65535).HasLimit 65535 w ∧
      (65535, 1) ∈ (Method.storingAt 65535).uses ∧ (65535 : UInt16).toNat < 65535 + 1 := by
  obtain ⟨bytes, hbytes⟩ := encode_storingAt 65535
  obtain ⟨front, written, hfront, hw⟩ := methods_of_encode hbytes
  obtain ⟨w, _, ⟨b, b', hm⟩, hnone, rfl⟩ := List.forall₂_cons_left_iff.1 hw
  obtain rfl := List.forall₂_nil_left_iff.1 hnone
  have hneeded : (Method.storingAt 65535).neededLocals = 65535 := by decide +kernel
  have hlimit := Method.hasLimit_of_encode (m := .storingAt 65535) (of_decide_eq_true rfl) hm
  rw [hneeded] at hlimit
  have huse : (65535, 1) ∈ (Method.storingAt 65535).uses := by decide +kernel
  refine ⟨bytes, front, w, hbytes, ?_, ⟨b, b', hm⟩, hlimit, huse, by decide⟩
  rw [hfront, List.flatten_cons, List.flatten_nil, List.append_nil]
  rfl

end Class

end ClassPatch
