import Mathlib.Algebra.GroupWithZero.Nat
import Mathlib.Data.List.Nodup

/-!
# Maps in insertion order

A map that iterates in the order in which its keys were first inserted, as the list of its entries.
-/

namespace IndexMap

variable {κ α β : Type} [DecidableEq κ]

/-- A key that is there keeps its place. -/
def insert (k : κ) (a : α) : List (κ × α) → List (κ × α)
  | [] => [(k, a)]
  | (k', a') :: m => if k' = k then (k, a) :: m else (k', a') :: insert k a m

theorem insert_of_not_mem {k : κ} {a : α} {m : List (κ × α)} (h : k ∉ m.map Prod.fst) :
    insert k a m = m ++ [(k, a)] := by
  induction m with
  | nil => rfl
  | cons e m ih =>
    obtain ⟨k', a'⟩ := e
    rw [List.map_cons, List.mem_cons, not_or] at h
    rw [insert, if_neg (Ne.symm h.1), ih h.2, List.cons_append]

/-- An entry after an insertion is the new one or an old one. -/
theorem mem_insert {k : κ} {a : α} {m : List (κ × α)} {e : κ × α} (h : e ∈ insert k a m) :
    e = (k, a) ∨ e ∈ m := by
  induction m with
  | nil => exact .inl (List.mem_singleton.mp h)
  | cons e' m ih =>
    obtain ⟨k', a'⟩ := e'
    rw [insert] at h
    split_ifs at h
    · exact (List.mem_cons.mp h).imp_right (List.mem_cons_of_mem _)
    · obtain rfl | hmem := List.mem_cons.mp h
      · exact .inr List.mem_cons_self
      · exact (ih hmem).imp_right (List.mem_cons_of_mem _)

theorem nodup_insert {k : κ} {a : α} {m : List (κ × α)} (h : (m.map Prod.fst).Nodup) :
    ((insert k a m).map Prod.fst).Nodup := by
  induction m with
  | nil => exact List.nodup_singleton k
  | cons e m ih =>
    obtain ⟨k', a'⟩ := e
    obtain ⟨hnew, hnodup⟩ := List.nodup_cons.mp h
    rw [insert]
    split_ifs with hk
    · exact hk ▸ h
    · refine List.nodup_cons.mpr ⟨fun hmem => ?_, ih hnodup⟩
      obtain ⟨e, he, heq⟩ := List.mem_map.mp hmem
      obtain rfl | hold := mem_insert he
      · exact hk heq.symm
      · exact hnew (List.mem_map.mpr ⟨e, hold, heq⟩)

/-- An insertion adds no more than the weight of the new entry. -/
theorem sum_insert_le (f : κ × α → ℕ) (k : κ) (a : α) (m : List (κ × α)) :
    ((insert k a m).map f).sum ≤ f (k, a) + (m.map f).sum := by
  induction m with
  | nil => exact Nat.le_refl _
  | cons e m ih =>
    obtain ⟨k', a'⟩ := e
    rw [insert]
    split_ifs
    · simp only [List.map_cons, List.sum_cons]
      omega
    · simp only [List.map_cons, List.sum_cons]
      omega

theorem lookup_cons_eq (k k' : κ) (a : α) (m : List (κ × α)) :
    ((k, a) :: m).lookup k' = if k' = k then some a else m.lookup k' := by
  rw [List.lookup_cons]
  by_cases hk : k' = k
  · rw [if_pos hk, beq_iff_eq.mpr hk]
  · rw [if_neg hk, beq_eq_false_iff_ne.mpr hk]

/-- A key is found with the value it was last inserted with. -/
theorem lookup_insert (k k' : κ) (a : α) (m : List (κ × α)) :
    (insert k a m).lookup k' = if k' = k then some a else m.lookup k' := by
  induction m with
  | nil => exact lookup_cons_eq k k' a []
  | cons e m ih =>
    obtain ⟨k₀, a₀⟩ := e
    rw [insert]
    split_ifs with h₀ hk hk
    · rw [lookup_cons_eq, if_pos hk]
    · rw [lookup_cons_eq, if_neg hk, lookup_cons_eq, if_neg (h₀ ▸ hk)]
    · rw [lookup_cons_eq, ih, if_pos hk, if_neg (fun h => h₀ (h.symm.trans hk))]
    · rw [lookup_cons_eq, lookup_cons_eq, ih, if_neg hk]

theorem lookup_map (f : α → β) (k : κ) (m : List (κ × α)) :
    (m.map (Prod.map id f)).lookup k = (m.lookup k).map f := by
  induction m with
  | nil => rfl
  | cons e m ih =>
    obtain ⟨k', a'⟩ := e
    rw [List.map_cons, Prod.map_apply, id_eq, lookup_cons_eq, lookup_cons_eq, ih]
    split_ifs <;> rfl

/-- If the keys are distinct, every entry is found. -/
theorem lookup_of_mem {k : κ} {a : α} {m : List (κ × α)} (hkeys : (m.map Prod.fst).Nodup)
    (h : (k, a) ∈ m) : m.lookup k = some a := by
  induction m with
  | nil => cases h
  | cons e m ih =>
    obtain ⟨k', a'⟩ := e
    obtain ⟨hnew, hnodup⟩ := List.nodup_cons.mp hkeys
    rw [lookup_cons_eq]
    rcases List.mem_cons.mp h with heq | hmem
    · obtain ⟨rfl, rfl⟩ := Prod.mk.inj heq
      exact if_pos rfl
    · have hne : k ≠ k' := by
        rintro rfl
        exact hnew (List.mem_map.mpr ⟨_, hmem, rfl⟩)
      rw [if_neg hne, ih hnodup hmem]

/-- Mapping the values of the entries goes past an insertion. -/
theorem map_insert (f : α → β) (k : κ) (a : α) (m : List (κ × α)) :
    (insert k a m).map (Prod.map id f) = insert k (f a) (m.map (Prod.map id f)) := by
  induction m with
  | nil => rfl
  | cons e m ih =>
    obtain ⟨k', a'⟩ := e
    rw [insert, List.map_cons, Prod.map_apply, id_eq, insert]
    split_ifs
    · rfl
    · rw [List.map_cons, ih, Prod.map_apply, id_eq]

/-! ## Inserting several entries -/

/-- Insert the entries of a list, one after the other. -/
def extend (m l : List (κ × α)) : List (κ × α) := l.foldl (fun m e => insert e.1 e.2 m) m

theorem nodup_extend {m l : List (κ × α)} (h : (m.map Prod.fst).Nodup) :
    ((extend m l).map Prod.fst).Nodup := by
  induction l generalizing m with
  | nil => exact h
  | cons e l ih => exact ih (nodup_insert h)

theorem mem_extend {m l : List (κ × α)} {e : κ × α} (h : e ∈ extend m l) : e ∈ m ∨ e ∈ l := by
  induction l generalizing m with
  | nil => exact .inl h
  | cons e' l ih =>
    rcases ih h with hm | hl
    · rcases mem_insert hm with rfl | hold
      · exact .inr List.mem_cons_self
      · exact .inl hold
    · exact .inr (List.mem_cons_of_mem _ hl)

theorem sum_extend_le (f : κ × α → ℕ) (m l : List (κ × α)) :
    ((extend m l).map f).sum ≤ (m.map f).sum + (l.map f).sum := by
  induction l generalizing m with
  | nil => exact Nat.le_refl _
  | cons e l ih =>
    obtain ⟨k, a⟩ := e
    have hinsert := sum_insert_le f k a m
    have hrest := ih (insert k a m)
    rw [List.map_cons, List.sum_cons]
    show ((extend (insert k a m) l).map f).sum ≤ _
    omega

theorem length_extend_le (m l : List (κ × α)) : (extend m l).length ≤ m.length + l.length := by
  simpa using sum_extend_le (fun _ => 1) m l

theorem lookup_extend_of_not_mem {k : κ} {l : List (κ × α)} (h : k ∉ l.map Prod.fst)
    (m : List (κ × α)) : (extend m l).lookup k = m.lookup k := by
  induction l generalizing m with
  | nil => rfl
  | cons e l ih =>
    rw [List.map_cons, List.mem_cons, not_or] at h
    show (extend (insert e.1 e.2 m) l).lookup k = _
    rw [ih h.2, lookup_insert, if_neg h.1]

/-- An entry whose key is no other entry's is found. -/
theorem lookup_extend_of_mem {k : κ} {a : α} {l : List (κ × α)} (h : (k, a) ∈ l)
    (hkey : ∀ e ∈ l, e.1 = k → e.2 = a) (m : List (κ × α)) :
    (extend m l).lookup k = some a := by
  induction l generalizing m with
  | nil => cases h
  | cons e l ih =>
    obtain ⟨hhead, hrest⟩ := List.forall_mem_cons.mp hkey
    show (extend (insert e.1 e.2 m) l).lookup k = _
    by_cases hmem : k ∈ l.map Prod.fst
    · obtain ⟨e', he', rfl⟩ := List.mem_map.mp hmem
      exact ih (hrest e' he' rfl ▸ he') hrest _
    · obtain rfl | hl := List.mem_cons.mp h
      · rw [lookup_extend_of_not_mem hmem, lookup_insert, if_pos rfl]
      · exact absurd (List.mem_map_of_mem hl) hmem

theorem map_extend (f : α → β) (m l : List (κ × α)) :
    (extend m l).map (Prod.map id f) =
      extend (m.map (Prod.map id f)) (l.map (Prod.map id f)) := by
  induction l generalizing m with
  | nil => rfl
  | cons e l ih =>
    show (extend (insert e.1 e.2 m) l).map (Prod.map id f) = _
    rw [ih, map_insert]
    rfl

/-! ## Two maps filled alike -/

/-- The entries have the same keys in the same order, their values related by `R`. -/
def Alike (R : α → β → Prop) : List (κ × α) → List (κ × β) → Prop :=
  List.Forall₂ fun e e' => e.1 = e'.1 ∧ R e.2 e'.2

section Alike

variable {R : α → β → Prop}

theorem Alike.insert {k : κ} {a : α} {b : β} {m : List (κ × α)} {m' : List (κ × β)}
    (hab : R a b) (h : Alike R m m') : Alike R (insert k a m) (insert k b m') := by
  induction h with
  | nil => exact .cons ⟨rfl, hab⟩ .nil
  | @cons e e' m m' he h ih =>
    obtain ⟨k', a'⟩ := e
    obtain ⟨k'', b'⟩ := e'
    obtain ⟨rfl, hR⟩ := he
    rw [IndexMap.insert, IndexMap.insert]
    split_ifs
    · exact .cons ⟨rfl, hab⟩ h
    · exact .cons ⟨rfl, hR⟩ ih

theorem Alike.extend {m l : List (κ × α)} {m' l' : List (κ × β)} (h : Alike R m m')
    (hl : Alike R l l') : Alike R (extend m l) (extend m' l') := by
  induction hl generalizing m m' with
  | nil => exact h
  | @cons e e' _ _ he _ ih =>
    obtain ⟨k, a⟩ := e
    obtain ⟨k', b⟩ := e'
    obtain ⟨rfl, hR⟩ := he
    exact ih (h.insert hR)

end Alike

/-- New keys that differ are appended in their order. -/
theorem extend_of_nodup {m l : List (κ × α)} (h : (m.map Prod.fst ++ l.map Prod.fst).Nodup) :
    extend m l = m ++ l := by
  induction l generalizing m with
  | nil => exact (List.append_nil m).symm
  | cons e l ih =>
    have hnew : e.1 ∉ m.map Prod.fst := fun hmem =>
      (List.nodup_append.mp h).2.2 e.1 hmem e.1 List.mem_cons_self rfl
    have hnodup : ((m ++ [(e.1, e.2)]).map Prod.fst ++ l.map Prod.fst).Nodup := by
      rw [List.map_append, List.append_assoc]
      exact h
    show extend (insert e.1 e.2 m) l = _
    rw [insert_of_not_mem hnew, ih hnodup, List.append_assoc]
    rfl

theorem extend_nil {l : List (κ × α)} (h : (l.map Prod.fst).Nodup) : extend [] l = l :=
  extend_of_nodup h

end IndexMap
