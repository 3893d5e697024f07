-- Maps whose entries stand in the order of their keys, one for each key.
namespace ClassPatch

/-- The entries of a map, by ascending key. -/
abbrev Dict (κ α : Type) := List (κ × α)

namespace Dict

variable {κ α : Type} [DecidableEq κ] [LT κ] [DecidableLT κ]

def get? (d : Dict κ α) (k : κ) : Option α := (d.find? (·.1 = k)).map (·.2)

def contains (d : Dict κ α) (k : κ) : Bool := (d.get? k).isSome

/-- Puts a value at a key, in place of the one that was there. -/
def insert (k : κ) (v : α) : Dict κ α → Dict κ α
  | [] => [(k, v)]
  | e :: d =>
    if k = e.1 then (k, v) :: d
    else if k < e.1 then (k, v) :: e :: d
    else e :: insert k v d

/-- The entries put one after the other; the last one at a key stands. -/
def ofList (entries : List (κ × α)) : Dict κ α :=
  entries.foldl (fun d e => insert e.1 e.2 d) []

theorem get?_insert_self (k : κ) (v : α) (d : Dict κ α) : (insert k v d).get? k = some v := by
  induction d with
  | nil => simp [insert, get?]
  | cons e d ih =>
    rw [insert]
    split
    · simp [get?]
    · split
      · simp [get?]
      · rename_i hne _
        have he : ¬ e.1 = k := fun h => hne h.symm
        simpa [get?, he] using ih

theorem get?_insert_of_ne {k k' : κ} (h : k' ≠ k) (v : α) (d : Dict κ α) :
    (insert k v d).get? k' = d.get? k' := by
  induction d with
  | nil => simp [insert, get?, Ne.symm h]
  | cons e d ih =>
    rw [insert]
    split
    · rename_i hk
      simp [get?, Ne.symm h, ← hk]
    · split
      · simp [get?, Ne.symm h]
      · by_cases he : e.1 = k'
        · simp [get?, he]
        · simpa [get?, he] using ih

theorem isSome_get?_insert (k : κ) (v : α) (d : Dict κ α) (k' : κ) :
    ((insert k v d).get? k').isSome ↔ k' = k ∨ (d.get? k').isSome := by
  by_cases h : k' = k
  · subst h
    rw [get?_insert_self]
    simp
  · rw [get?_insert_of_ne h]
    simp [h]

/-- What holds of a new entry and of the others holds of all. -/
theorem forall_get?_insert {k : κ} {v : α} {d : Dict κ α} {p : κ → α → Prop} (hk : p k v)
    (hd : ∀ k' w, d.get? k' = some w → p k' w) :
    ∀ k' w, (insert k v d).get? k' = some w → p k' w := by
  intro k' w hw
  by_cases h : k' = k
  · subst h
    rw [get?_insert_self] at hw
    cases hw
    exact hk
  · rw [get?_insert_of_ne h] at hw
    exact hd k' w hw

/-- At a key that had no value before, nothing that held is given up. -/
theorem forall_get?_insert_iff {k : κ} {v : α} {d : Dict κ α} {p : κ → α → Prop}
    (hnew : d.get? k = none) :
    (∀ k' w, (insert k v d).get? k' = some w → p k' w) ↔
      (∀ k' w, d.get? k' = some w → p k' w) ∧ p k v := by
  constructor
  · intro h
    refine ⟨fun k' w hw => ?_, h k v (get?_insert_self ..)⟩
    have hne : k' ≠ k := by
      rintro rfl
      rw [hnew] at hw
      cases hw
    exact h k' w (by rw [get?_insert_of_ne hne]; exact hw)
  · rintro ⟨hd, hk⟩
    exact forall_get?_insert hk hd

theorem mem_insert {k : κ} {v : α} {d : Dict κ α} {e : κ × α} (h : e ∈ insert k v d) :
    e = (k, v) ∨ e ∈ d := by
  induction d with
  | nil => exact .inl (List.mem_singleton.1 h)
  | cons f d ih =>
    rw [insert] at h
    split at h
    · exact (List.mem_cons.1 h).imp_right (List.mem_cons_of_mem _)
    · split at h
      · exact List.mem_cons.1 h
      · rcases List.mem_cons.1 h with rfl | h
        · exact .inr (List.mem_cons_self ..)
        · exact (ih h).imp_right (List.mem_cons_of_mem _)

/-- A new entry goes to its place among the keys. -/
theorem pairwise_insert [Std.Trichotomous (· < · : κ → κ → Prop)]
    [Trans (· < · : κ → κ → Prop) (· < ·) (· < ·)] {d : Dict κ α}
    (h : d.Pairwise fun e e' => e.1 < e'.1) (k : κ) (v : α) :
    (insert k v d).Pairwise fun e e' => e.1 < e'.1 := by
  induction d with
  | nil => exact List.pairwise_singleton ..
  | cons f d ih =>
    obtain ⟨hf, hd⟩ := List.pairwise_cons.1 h
    rw [insert]
    split
    · rename_i hk
      exact List.pairwise_cons.2 ⟨fun e he => hk ▸ hf e he, hd⟩
    · rename_i hne
      split
      · rename_i hlt
        refine List.pairwise_cons.2 ⟨fun e he => ?_, h⟩
        rcases List.mem_cons.1 he with rfl | he
        · exact hlt
        · exact Std.lt_trans hlt (hf e he)
      · rename_i hge
        refine List.pairwise_cons.2 ⟨fun e he => ?_, ih hd⟩
        rcases mem_insert he with rfl | he
        · exact ((Std.lt_trichotomy k f.1).resolve_left hge).resolve_left hne
        · exact hf e he

omit [LT κ] [DecidableLT κ] in
theorem mem_of_get? {d : Dict κ α} {k : κ} {v : α} (h : d.get? k = some v) : (k, v) ∈ d := by
  unfold get? at h
  obtain ⟨e, he, rfl⟩ := Option.map_eq_some_iff.1 h
  have hk : e.1 = k := by simpa using List.find?_some he
  have := List.mem_of_find?_eq_some he
  rwa [← hk]

omit [LT κ] [DecidableLT κ] in
/-- Where keys are distinct each entry is found. -/
theorem get?_of_mem {d : Dict κ α} (hd : d.Pairwise (·.1 ≠ ·.1)) {e : κ × α} (he : e ∈ d) :
    d.get? e.1 = some e.2 := by
  induction d with
  | nil => cases he
  | cons e' d ih =>
    obtain ⟨hhead, hd⟩ := List.pairwise_cons.1 hd
    unfold get? at ih ⊢
    rw [List.find?_cons]
    rcases List.mem_cons.1 he with rfl | he
    · rw [decide_eq_true rfl]
      rfl
    · rw [decide_eq_false (hhead e he)]
      exact ih hd he

end Dict

end ClassPatch
