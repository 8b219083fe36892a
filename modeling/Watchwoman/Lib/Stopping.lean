import Mathlib.Algebra.Order.Group.Nat
import Watchwoman.Lib.Transition

/-!
# A loop that is told to stop

The loop waits for a piece of work or for a notification, whichever comes first; after a piece of
work it looks at a flag before it waits again. Whoever stops it raises the flag and then notifies
it, which does nothing unless it waits at that moment. A loop that is just between its look at the
flag and its wait when both happen misses them (`System.late`). Any other loop stops by itself, and
each begins at most one more piece of work.
-/

namespace Stopping

open Transition

inductive Phase where
  /-- It has looked at the flag and does not wait yet. -/
  | arming
  | waiting (notified : Bool)
  | working
  | checking
  | ended

namespace Phase

/-- A notification reaches a loop that waits. -/
def wake : Phase → Phase
  | waiting _ => waiting true
  | p => p

def isArming : Phase → Bool
  | arming => true
  | _ => false

end Phase

/-- The last two fields are not read by any step: the pieces of work begun since the flag was
raised, and whether the loop was arming then. -/
structure System where
  flag : Bool
  told : Bool
  phase : Phase
  begun : ℕ
  late : Bool

inductive Step : System → System → Prop
  | arm {s : System} (hphase : s.phase = .arming) : Step s { s with phase := .waiting false }
  | begin {s : System} {notified : Bool} (hphase : s.phase = .waiting notified) :
    Step s { s with phase := .working, begun := if s.flag then s.begun + 1 else s.begun }
  | hear {s : System} (hphase : s.phase = .waiting true) : Step s { s with phase := .ended }
  | finish {s : System} (hphase : s.phase = .working) : Step s { s with phase := .checking }
  | check {s : System} (hphase : s.phase = .checking) :
    Step s { s with phase := if s.flag then .ended else .arming }
  | raise {s : System} (hflag : s.flag = false) :
    Step s { s with flag := true, late := s.phase.isArming }
  | tell {s : System} (hflag : s.flag = true) (htold : s.told = false) :
    Step s { s with told := true, phase := s.phase.wake }

/-- What holds once the flag is raised. -/
structure Winding (s : System) : Prop where
  begun_le : s.begun ≤ 1
  begun : s.begun = 1 → s.phase = .working ∨ s.phase = .checking ∨ s.phase = .ended
  arming : s.phase = .arming → s.late = true
  waiting : s.told = true → s.phase = .waiting false → s.late = true

structure Inv (s : System) : Prop where
  told : s.told = true → s.flag = true
  idle : s.flag = false → s.begun = 0
  winding : s.flag = true → Winding s

variable {s s' : System}

theorem Winding.begun_eq_zero (h : Winding s) {notified : Bool}
    (hphase : s.phase = .waiting notified) : s.begun = 0 := by
  have hle := h.begun_le
  by_contra hne
  rcases h.begun (by omega) with hp | hp | hp <;> rw [hphase] at hp <;> cases hp

theorem Inv.step (h : Inv s) (hs : Step s s') : Inv s' := by
  cases hs with
  | arm hphase =>
    refine ⟨h.told, h.idle, fun hflag => ?_⟩
    have hold := h.winding hflag
    refine ⟨hold.begun_le, fun hbegun => ?_, by rintro ⟨⟩, fun _ _ => hold.arming hphase⟩
    rcases hold.begun hbegun with hp | hp | hp <;> rw [hphase] at hp <;> cases hp
  | begin hphase =>
    refine ⟨h.told, fun hflag => ?_, fun hflag => ?_⟩
    · show (if s.flag = true then _ else _) = 0
      rw [if_neg (by rw [hflag]; decide)]
      exact h.idle hflag
    · have hzero := (h.winding hflag).begun_eq_zero hphase
      change s.flag = true at hflag
      have hone : (if s.flag = true then s.begun + 1 else s.begun) = 1 := by
        rw [if_pos hflag, hzero]
      exact ⟨hone.le, fun _ => .inl rfl, by rintro ⟨⟩, by rintro - ⟨⟩⟩
  | hear hphase =>
    refine ⟨h.told, h.idle, fun hflag => ?_⟩
    exact ⟨(h.winding hflag).begun_le, fun _ => .inr (.inr rfl), by rintro ⟨⟩, by rintro - ⟨⟩⟩
  | finish hphase =>
    refine ⟨h.told, h.idle, fun hflag => ?_⟩
    exact ⟨(h.winding hflag).begun_le, fun _ => .inr (.inl rfl), by rintro ⟨⟩, by rintro - ⟨⟩⟩
  | check hphase =>
    refine ⟨h.told, h.idle, fun hflag => ?_⟩
    have hold := h.winding hflag
    change s.flag = true at hflag
    have hended : (if s.flag = true then Phase.ended else Phase.arming) = .ended := if_pos hflag
    refine ⟨hold.begun_le, fun _ => .inr (.inr hended), fun harming => ?_, fun _ hwaiting => ?_⟩
    · cases hended.symm.trans harming
    · cases hended.symm.trans hwaiting
  | raise hflag =>
    refine ⟨fun _ => rfl, by rintro ⟨⟩, fun _ => ?_⟩
    have hzero := h.idle hflag
    have htold : s.told = false := by
      rw [← Bool.not_eq_true]
      intro htold
      rw [h.told htold] at hflag
      cases hflag
    refine ⟨hzero.trans_le (Nat.zero_le 1), fun hbegun => ?_, fun harming => ?_, fun htold' => ?_⟩
    · cases hzero.symm.trans hbegun
    · change s.phase = .arming at harming
      show s.phase.isArming = true
      rw [harming]
      rfl
    · cases htold.symm.trans htold'
  | tell hflag htold =>
    refine ⟨fun _ => hflag, fun hnot => ?_, fun _ => ?_⟩
    · cases hflag.symm.trans hnot
    · have hold := h.winding hflag
      refine ⟨hold.begun_le, fun hbegun => ?_, fun harming => ?_, fun _ hwaiting => ?_⟩
      · rcases hold.begun hbegun with hp | hp | hp
        · exact .inl (by show s.phase.wake = _; rw [hp]; rfl)
        · exact .inr (.inl (by show s.phase.wake = _; rw [hp]; rfl))
        · exact .inr (.inr (by show s.phase.wake = _; rw [hp]; rfl))
      · refine hold.arming ?_
        change s.phase.wake = .arming at harming
        cases hp : s.phase <;> rw [hp] at harming <;> first | rfl | cases harming
      · change s.phase.wake = .waiting false at hwaiting
        cases hp : s.phase <;> rw [hp] at hwaiting <;> cases hwaiting

/-! ## The end -/

def Phase.work : Phase → ℕ
  | .arming => 2
  | .waiting _ => 1
  | .working => 2
  | .checking => 1
  | .ended => 0

/-- How many steps are left at most once the flag is raised. -/
def work (s : System) : ℕ := s.phase.work + 2 * (1 - s.begun) + (if s.told then 0 else 1)

theorem work_wake (p : Phase) : p.wake.work = p.work := by
  cases p <;> rfl

theorem Step.work_lt (hs : Step s s') (h : Inv s) (hflag : s.flag = true) : work s' < work s := by
  unfold work
  cases hs with
  | arm hphase =>
    rw [hphase]
    simp only [Phase.work]
    omega
  | begin hphase =>
    have hzero := (h.winding hflag).begun_eq_zero hphase
    rw [hphase, if_pos hflag, hzero]
    simp only [Phase.work]
    omega
  | hear hphase =>
    rw [hphase]
    simp only [Phase.work]
    omega
  | finish hphase =>
    rw [hphase]
    simp only [Phase.work]
    omega
  | check hphase =>
    rw [hphase, if_pos hflag]
    simp only [Phase.work]
    omega
  | raise hnot => cases hflag.symm.trans hnot
  | tell _ htold =>
    rw [htold, work_wake]
    simp only [if_true, Bool.false_eq_true, if_false]
    omega

end Stopping
