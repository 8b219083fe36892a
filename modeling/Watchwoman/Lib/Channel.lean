import Mathlib.Data.List.Basic

/-!
# Unbounded channels

Senders put items into a channel, and one receiver takes them out in the same order. Sending does
nothing once the receiver is gone, and what it had not taken by then is lost. A channel keeps what
was taken and what was lost, so that it knows all that was ever sent into it.
-/

structure Channel (α : Type*) where
  received : List α
  waiting : List α
  lost : List α
  isOpen : Bool
  kept : isOpen = true → lost = []
  emptied : isOpen = false → waiting = []

namespace Channel

variable {α β : Type*} {c c' : Channel α} {a : α}

def empty : Channel α := ⟨[], [], [], true, fun _ => rfl, fun _ => rfl⟩

/-- All that was sent while there was a receiver. -/
def sent (c : Channel α) : List α := c.received ++ (c.waiting ++ c.lost)

def send (c : Channel α) (a : α) : Channel α :=
  if hopen : c.isOpen then
    { c with
      waiting := c.waiting ++ [a]
      emptied := fun h => absurd hopen (ne_true_of_eq_false h) }
  else c

/-- The next item, and the channel without it. -/
def recv (c : Channel α) : Option (α × Channel α) :=
  match hwaiting : c.waiting with
  | [] => none
  | a :: rest => some (a, { c with
      received := c.received ++ [a]
      waiting := rest
      emptied := fun h => absurd (hwaiting.symm.trans (c.emptied h)) (List.cons_ne_nil a rest) })

/-- The receiver goes. -/
def close (c : Channel α) : Channel α where
  received := c.received
  waiting := []
  lost := c.waiting ++ c.lost
  isOpen := false
  kept h := nomatch h
  emptied _ := rfl

@[simp] theorem isOpen_send : (c.send a).isOpen = c.isOpen := by
  unfold send
  split_ifs <;> rfl

@[simp] theorem received_send : (c.send a).received = c.received := by
  unfold send
  split_ifs <;> rfl

theorem sent_send (h : c.isOpen = true) : (c.send a).sent = c.sent ++ [a] := by
  have hsend : (c.send a).sent = c.received ++ ((c.waiting ++ [a]) ++ c.lost) := by
    unfold send
    rw [dif_pos h]
    rfl
  rw [hsend, sent, c.kept h]
  simp

theorem send_closed (h : c.isOpen = false) : c.send a = c := by
  unfold send
  rw [dif_neg (by simp [h])]

theorem mem_sent_send {b : α} (h : b ∈ (c.send a).sent) : b ∈ c.sent ∨ b = a := by
  cases hopen : c.isOpen with
  | true =>
    rw [sent_send hopen] at h
    simpa using h
  | false =>
    rw [send_closed hopen] at h
    exact .inl h

theorem of_recv (h : c.recv = some (a, c')) :
    c.waiting = a :: c'.waiting ∧ c'.received = c.received ++ [a] ∧ c'.lost = c.lost ∧
      c'.isOpen = c.isOpen := by
  unfold recv at h
  split at h
  · cases h
  · rename_i rest hwaiting
    obtain ⟨rfl, rfl⟩ := Prod.mk.inj (Option.some.inj h)
    exact ⟨hwaiting, rfl, rfl, rfl⟩

theorem sent_recv (h : c.recv = some (a, c')) : c'.sent = c.sent := by
  obtain ⟨hwaiting, hreceived, hlost, -⟩ := of_recv h
  unfold sent
  rw [hwaiting, hreceived, hlost]
  simp

theorem isOpen_of_recv (h : c.recv = some (a, c')) : c.isOpen = true := by
  obtain ⟨hwaiting, -⟩ := of_recv h
  by_contra hclosed
  rw [c.emptied (Bool.eq_false_iff.mpr hclosed)] at hwaiting
  cases hwaiting

/-- What is sent into an empty channel is the next item. -/
theorem exists_recv_send (c : Channel α) (a : α) (hopen : c.isOpen = true)
    (hwaiting : c.waiting = []) :
    ∃ c', (c.send a).recv = some (a, c') ∧ c'.isOpen = true ∧ c'.waiting = [] := by
  have hsend : (c.send a).waiting = [a] := by
    unfold send
    rw [dif_pos hopen]
    show c.waiting ++ [a] = [a]
    rw [hwaiting, List.nil_append]
  unfold recv
  split
  · rename_i hnil
    rw [hnil] at hsend
    cases hsend
  · rename_i b rest hcons
    obtain ⟨rfl, rfl⟩ := List.cons.inj (hcons.symm.trans hsend)
    exact ⟨_, rfl, isOpen_send.trans hopen, rfl⟩

theorem filterMap_received (f : α → Option β) (c : Channel α) :
    c.received.filterMap f <+: c.sent.filterMap f :=
  (List.prefix_append c.received _).filterMap f

theorem received_eq_sent (hopen : c.isOpen = true) (hwaiting : c.waiting = []) :
    c.received = c.sent := by
  unfold sent
  rw [hwaiting, c.kept hopen]
  simp

end Channel
