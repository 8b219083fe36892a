import Mathlib.Data.List.Count
import Mathlib.Data.List.Infix

/-!
# Channels that drop their oldest items

A receiver of a bounded broadcast channel holds at most `cap` items: when one more is sent, the
oldest is lost. If every item has a rank, items are sent in any order, and at no time more than
`cap` of them are on their way, then whatever is lost is outranked by something the receiver still
holds.
-/

namespace Lagging

variable {α : Type*} (cap : ℕ)

/-- What the receiver holds after `a` is sent. -/
def send (queue : List α) (a : α) : List α := (queue ++ [a]).drop (queue.length + 1 - cap)

/-- What the receiver loses when `a` is sent. -/
def lost (queue : List α) (a : α) : List α := (queue ++ [a]).take (queue.length + 1 - cap)

variable {cap} {queue : List α} {a x : α}

theorem lost_append_send : lost cap queue a ++ send cap queue a = queue ++ [a] :=
  List.take_append_drop _ _

theorem mem_of_mem_send (h : x ∈ send cap queue a) : x ∈ queue ∨ x = a := by
  have hmem := List.mem_of_mem_drop h
  rwa [List.mem_append, List.mem_singleton] at hmem

theorem mem_send_or_lost (h : x ∈ queue ++ [a]) : x ∈ send cap queue a ∨ x ∈ lost cap queue a := by
  rw [← @lost_append_send _ cap, List.mem_append] at h
  exact h.symm

theorem send_nil (hcap : 0 < cap) : send cap [] a = [a] := by
  unfold send
  rw [show ([] : List α).length + 1 - cap = 0 from Nat.sub_eq_zero_of_le hcap]
  rfl

theorem lost_nil (hcap : 0 < cap) : lost cap [] a = [] := by
  unfold lost
  rw [show ([] : List α).length + 1 - cap = 0 from Nat.sub_eq_zero_of_le hcap]
  rfl

theorem mem_send_self (hcap : 0 < cap) : a ∈ send cap queue a := by
  unfold send
  rw [List.drop_append_of_le_length (by omega)]
  exact List.mem_append_right _ (List.mem_singleton.mpr rfl)

/-! ## Ranks -/

section Rank

variable (rank : α → ℕ)

/-- How many items of the list rank below `x`. -/
def countBelow (x : α) (l : List α) : ℕ := l.countP fun y => decide (rank y < rank x)

/-- Fewer than `cap` of the items that were sent after one that is held, or are still on their way,
rank below it. -/
def Outranked (cap : ℕ) (queue pending : List α) : Prop :=
  ∀ x rest, x :: rest <:+ queue → countBelow rank x rest + countBelow rank x pending < cap

variable {rank} {pending : List α}

/-- Items that rank lowest of all cannot be outranked. -/
theorem Outranked.of_zero (hcap : 0 < cap) (h : ∀ x ∈ queue, rank x = 0) :
    Outranked rank cap queue pending := by
  intro x rest hsuffix
  have hzero := h x (hsuffix.subset List.mem_cons_self)
  have hcount : ∀ l : List α, countBelow rank x l = 0 := by
    intro l
    unfold countBelow
    rw [hzero]
    exact List.countP_eq_zero.mpr (by simp)
  rw [hcount, hcount]
  exact hcap

/-- Items on their way that rank no lower than all that is held make no difference. -/
theorem Outranked.cons_pending (h : Outranked rank cap queue pending) {b : α}
    (hb : ∀ x ∈ queue, rank x ≤ rank b) : Outranked rank cap queue (b :: pending) := by
  intro x rest hsuffix
  have hle := hb x (hsuffix.subset List.mem_cons_self)
  have hcount : countBelow rank x (b :: pending) = countBelow rank x pending := by
    unfold countBelow
    rw [List.countP_cons_of_neg (by simpa using hle)]
  rw [hcount]
  exact h x rest hsuffix

theorem Outranked.tail {b : α} (h : Outranked rank cap (b :: queue) pending) :
    Outranked rank cap queue pending :=
  fun x rest hsuffix => h x rest (hsuffix.trans (List.suffix_cons b queue))

theorem countBelow_perm {pending' : List α} (hperm : pending.Perm (a :: pending')) :
    countBelow rank x pending = countBelow rank x [a] + countBelow rank x pending' := by
  unfold countBelow
  rw [hperm.countP_eq, ← List.countP_append]
  rfl

theorem Outranked.send {pending' : List α} (h : Outranked rank cap queue pending)
    (hperm : pending.Perm (a :: pending')) (hpending : pending.length ≤ cap) :
    Outranked rank cap (send cap queue a) pending' := by
  intro x rest hsuffix
  have hsuffix' : x :: rest <:+ queue ++ [a] := hsuffix.trans (List.drop_suffix _ _)
  rcases List.suffix_concat_iff.mp hsuffix' with hnil | ⟨rest', hrest, hqueue⟩
  · cases hnil
  · cases rest' with
    | nil =>
      -- `x` is what was just sent
      obtain ⟨rfl, rfl⟩ := List.cons.inj hrest
      have hle : countBelow rank x pending' ≤ pending'.length := List.countP_le_length
      have hlen := hperm.length_eq
      have hzero : countBelow rank x [] = 0 := rfl
      rw [List.length_cons] at hlen
      omega
    | cons x' rest' =>
      rw [List.cons_append] at hrest
      obtain ⟨rfl, rfl⟩ := List.cons.inj hrest
      have hbound := h x rest' hqueue
      have hsplit : countBelow rank x (rest' ++ [a]) =
          countBelow rank x rest' + countBelow rank x [a] := List.countP_append
      have hmoved := @countBelow_perm _ a x rank pending pending' hperm
      omega

/-- Whatever is lost is outranked by something that is held. -/
theorem Outranked.covered (h : Outranked rank cap queue pending) (ha : a ∈ pending)
    (hcap : 0 < cap) (hx : x ∈ lost cap queue a) :
    ∃ y ∈ Lagging.send cap queue a, rank x ≤ rank y := by
  by_contra hnone
  push Not at hnone
  have hfull : cap ≤ queue.length := by
    by_contra hlt
    have hnil : lost cap queue a = [] := by
      unfold lost
      rw [show queue.length + 1 - cap = 0 by omega, List.take_zero]
    rw [hnil] at hx
    cases hx
  have hsend : Lagging.send cap queue a = queue.drop (queue.length + 1 - cap) ++ [a] := by
    unfold Lagging.send
    rw [List.drop_append_of_le_length (by omega)]
  obtain ⟨before, mid, hlost⟩ := List.append_of_mem hx
  -- everything that is held was sent after `x`
  have hqueue : x :: (mid ++ queue.drop (queue.length + 1 - cap)) <:+ queue := by
    have happend : (before ++ x :: (mid ++ queue.drop (queue.length + 1 - cap))) ++ [a] =
        queue ++ [a] := by
      rw [← @lost_append_send _ cap queue a, hlost, hsend]
      simp
    exact ⟨before, List.append_cancel_right happend⟩
  have hbound := h x _ hqueue
  have hbelow : countBelow rank x (Lagging.send cap queue a) = cap := by
    unfold countBelow
    rw [List.countP_eq_length.mpr (by simpa using hnone), hsend]
    simp only [List.length_append, List.length_drop, List.length_singleton]
    omega
  have hsplit : countBelow rank x (Lagging.send cap queue a) =
      countBelow rank x (queue.drop (queue.length + 1 - cap)) + countBelow rank x [a] := by
    rw [hsend]
    exact List.countP_append
  have hmid : countBelow rank x (mid ++ queue.drop (queue.length + 1 - cap)) =
      countBelow rank x mid + countBelow rank x (queue.drop (queue.length + 1 - cap)) :=
    List.countP_append
  have hpending : countBelow rank x [a] ≤ countBelow rank x pending :=
    (List.singleton_sublist.mpr ha).countP_le
  omega

end Rank

end Lagging
