import Mathlib.Data.List.Basic
import Mathlib.Tactic.Common

/-!
Counting semaphores with hand-off.

`up` gives its unit to the process that has waited longest, or adds it to the value
if nobody waits; `down` takes a unit or queues the process. A unit is in the value
only when nobody waits for it, which the type says.
-/

namespace LiNos

structure Semaphore (P : Type*) where
  value : ℕ
  waiting : List P
  drained : waiting ≠ [] → value = 0

namespace Semaphore

variable {P : Type*}

def init (value : ℕ) : Semaphore P := ⟨value, [], fun waits => absurd rfl waits⟩

/-- The state after `up`, and the process that was handed the unit. -/
def up (s : Semaphore P) : Semaphore P × Option P :=
  match s with
  | ⟨value, [], _⟩ => (⟨value + 1, [], fun waits => absurd rfl waits⟩, none)
  | ⟨value, p :: rest, drained⟩ =>
    (⟨value, rest, fun _ => drained (List.cons_ne_nil p rest)⟩, some p)

theorem no_waiters (s : Semaphore P) (positive : 0 < s.value) : s.waiting = [] := by
  by_contra waits
  exact absurd (s.drained waits) (Nat.pos_iff_ne_zero.mp positive)

/-- The state after `down`, and whether it took a unit. -/
def down (s : Semaphore P) (p : P) : Semaphore P × Bool :=
  if positive : 0 < s.value then
    (⟨s.value - 1, s.waiting, fun waits => absurd (s.no_waiters positive) waits⟩, true)
  else (⟨s.value, s.waiting ++ [p], fun _ => Nat.eq_zero_of_not_pos positive⟩, false)

section Laws

variable {s : Semaphore P} {p : P} {rest : List P}

@[simp] theorem init_value (value : ℕ) : (init value : Semaphore P).value = value := rfl
@[simp] theorem init_waiting (value : ℕ) : (init value : Semaphore P).waiting = [] := rfl

theorem up_free (free : s.waiting = []) :
    s.up.1.value = s.value + 1 ∧ s.up.1.waiting = [] ∧ s.up.2 = none := by
  obtain ⟨value, waiting, drained⟩ := s
  subst free
  exact ⟨rfl, rfl, rfl⟩

theorem up_handed (waits : s.waiting = p :: rest) :
    s.up.1.value = s.value ∧ s.up.1.waiting = rest ∧ s.up.2 = some p := by
  obtain ⟨value, waiting, drained⟩ := s
  subst waits
  exact ⟨rfl, rfl, rfl⟩

theorem down_taken (p : P) (positive : 0 < s.value) :
    (s.down p).1.value = s.value - 1 ∧ (s.down p).1.waiting = s.waiting ∧ (s.down p).2 = true := by
  simp [down, positive]

theorem down_queued (p : P) (zero : s.value = 0) :
    (s.down p).1.value = 0 ∧ (s.down p).1.waiting = s.waiting ++ [p] ∧ (s.down p).2 = false := by
  simp [down, zero]

end Laws

end Semaphore

end LiNos
