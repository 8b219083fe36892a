import Mathlib.Data.List.AList

/-!
# Maps with distinct keys

A hash map is its entries in some order, no key twice. `retain` is the one operation Mathlib's
association lists do not have.
-/

/-- A hash map; what depends on the order of its entries is not promised by it. -/
abbrev HashMap (κ α : Type) := AList fun _ : κ => α

namespace HashMap

variable {κ α : Type}

/-- Keep the entries that satisfy `p`. -/
def retain (p : κ → α → Bool) (m : HashMap κ α) : HashMap κ α where
  entries := m.entries.filter fun e => p e.1 e.2
  nodupKeys := m.nodupKeys.sublist List.filter_sublist

/-- The values, in the order the map iterates in. -/
def values (m : HashMap κ α) : List α := m.entries.map Sigma.snd

/-- The number of entries that satisfy `p`. -/
def count (p : α → Bool) (m : HashMap κ α) : ℕ := m.entries.countP fun e => p e.2

/-! ## Counting -/

theorem count_true (m : HashMap κ α) : count (fun _ => true) m = m.entries.length :=
  congrFun List.countP_true m.entries

theorem count_retain (p q : α → Bool) (m : HashMap κ α) :
    count q (retain (fun _ => p) m) = count (fun a => q a && p a) m :=
  List.countP_filter

/-- Those that satisfy `p` and those that do not make up the count. -/
theorem count_and_add_count_and_not (p q : α → Bool) (m : HashMap κ α) :
    count (fun a => q a && p a) m + count (fun a => q a && !p a) m = count q m := by
  unfold count
  induction m.entries with
  | nil => rfl
  | cons e l ih =>
    simp only [List.countP_cons] at ih ⊢
    cases q e.2 <;> cases p e.2 <;> simp <;> omega

variable [DecidableEq κ]

theorem mem_entries_iff {m : HashMap κ α} {k : κ} {a : α} :
    (⟨k, a⟩ : Sigma fun _ : κ => α) ∈ m.entries ↔ m.lookup k = some a :=
  (AList.mem_lookup_iff (a := k) (b := a) (s := m)).symm

theorem mem_values_iff {m : HashMap κ α} {a : α} : a ∈ m.values ↔ ∃ k, m.lookup k = some a := by
  constructor
  · intro h
    obtain ⟨⟨k, b⟩, hmem, rfl⟩ := List.mem_map.mp h
    exact ⟨k, mem_entries_iff.mp hmem⟩
  · rintro ⟨k, h⟩
    exact List.mem_map.mpr ⟨⟨k, a⟩, mem_entries_iff.mpr h, rfl⟩

theorem lookup_retain {p : κ → α → Bool} {m : HashMap κ α} {k : κ} {a : α} :
    (retain p m).lookup k = some a ↔ m.lookup k = some a ∧ p k a = true := by
  rw [← mem_entries_iff, ← mem_entries_iff]
  exact List.mem_filter

theorem lookup_insert_eq (m : HashMap κ α) (k k' : κ) (a : α) :
    (m.insert k' a).lookup k = if k = k' then some a else m.lookup k := by
  split_ifs with h
  · subst h
    exact AList.lookup_insert m
  · exact AList.lookup_insert_ne h

theorem lookup_erase_eq (m : HashMap κ α) (k k' : κ) :
    (m.erase k').lookup k = if k = k' then none else m.lookup k := by
  split_ifs with h
  · subst h
    exact AList.lookup_erase k m
  · exact AList.lookup_erase_ne h

theorem count_pos_of_lookup {p : α → Bool} {m : HashMap κ α} {k : κ} {a : α}
    (h : m.lookup k = some a) (ha : p a = true) : 1 ≤ count p m :=
  List.countP_pos_iff.mpr ⟨_, mem_entries_iff.mpr h, ha⟩

theorem count_eq_zero_iff {p : α → Bool} {m : HashMap κ α} :
    count p m = 0 ↔ ∀ k a, m.lookup k = some a → p a = false := by
  constructor
  · intro h k a hk
    have := List.countP_eq_zero.mp h _ (mem_entries_iff.mpr hk)
    simpa using this
  · intro h
    refine List.countP_eq_zero.mpr fun e he => ?_
    rw [h e.1 e.2 (mem_entries_iff.mp he)]
    exact Bool.false_ne_true

theorem count_insert_of_none (p : α → Bool) {m : HashMap κ α} {k : κ} (a : α)
    (h : m.lookup k = none) : count p (m.insert k a) = count p m + (p a).toNat := by
  have hk : k ∉ m := AList.lookup_eq_none.mp h
  unfold count
  rw [AList.entries_insert_of_notMem hk, List.countP_cons]
  cases p a <;> rfl

/-- Overwriting a key counts the new value for the old one. -/
theorem count_insert_of_some (p : α → Bool) {m : HashMap κ α} {k : κ} {b : α} (a : α)
    (h : m.lookup k = some b) :
    count p (m.insert k a) + (p b).toNat = count p m + (p a).toNat := by
  have hk : k ∈ m.entries.keys :=
    List.mem_keys_of_mem (mem_entries_iff.mpr h)
  obtain ⟨c, l₁, l₂, -, hsplit, herase⟩ := List.exists_of_kerase hk
  have hc : m.lookup k = some c := by
    rw [← mem_entries_iff, hsplit]
    exact List.mem_append_right _ List.mem_cons_self
  obtain rfl : b = c := Option.some.inj (h.symm.trans hc)
  unfold count
  rw [AList.entries_insert, herase, hsplit]
  simp only [List.countP_cons, List.countP_append]
  cases p a <;> cases p b <;> simp <;> omega

end HashMap
