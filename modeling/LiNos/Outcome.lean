import Mathlib.Data.Int.Notation

/-!
Kernel code with return codes.

A call works on a state. It comes back with a value, or with an error code, and in
both cases with the state as it is then; or it does not come back at all, because an
assertion failed or the kernel panicked. Sequencing stops at the first error code,
as the code does that tests every return value; `attempt` hands the code to the
caller instead, for the places where something is cleaned up first.
-/

namespace LiNos

/-- How a call ends. -/
inductive Outcome (φ σ α : Type) where
  | ok (value : α) (state : σ)
  | err (code : ℤ) (state : σ)
  | fault (reason : φ)

/-- A value comes with a state in `Q`, an error code with a state in `E`, and a fault
is one of `B`. -/
def Outcome.Ends {φ σ α : Type} (Q : α → σ → Prop) (E : ℤ → σ → Prop) (B : φ → Prop) :
    Outcome φ σ α → Prop
  | .ok a s => Q a s
  | .err e s => E e s
  | .fault reason => B reason

/-- How a call on given data ends can be found out by running it. -/
instance {φ σ α : Type} (Q : α → σ → Prop) (E : ℤ → σ → Prop) (B : φ → Prop) [∀ a s, Decidable (Q a s)]
    [∀ e s, Decidable (E e s)] [∀ reason, Decidable (B reason)] : (o : Outcome φ σ α) → Decidable (o.Ends Q E B)
  | .ok a s => inferInstanceAs (Decidable (Q a s))
  | .err e s => inferInstanceAs (Decidable (E e s))
  | .fault reason => inferInstanceAs (Decidable (B reason))

/-- The call came back, with a value or an error code, and left the state `t`. -/
def Outcome.Leaves {φ σ α : Type} (o : Outcome φ σ α) (t : σ) : Prop :=
  (∃ a, o = .ok a t) ∨ ∃ e, o = .err e t

/-- The state around the one a call worked on, after it has come back. -/
def Outcome.conclude {φ σ τ α : Type} (o : Outcome φ σ α) (value : α → σ → τ) (code : σ → τ) :
    Outcome φ τ Unit :=
  match o with
  | .ok a s => .ok () (value a s)
  | .err e s => .err e (code s)
  | .fault reason => .fault reason

/-- A call on a state `σ`. -/
def Kernel (φ σ α : Type) : Type := σ → Outcome φ σ α

namespace Kernel

variable {φ σ τ α β : Type} {m : Kernel φ σ α} {f : α → Kernel φ σ β} {s t : σ} {a : α} {b : β}
  {e : ℤ} {reason : φ} {p : Prop} {write : σ → σ} {E' : ℤ → σ → Prop}

instance : Monad (Kernel φ σ) where
  pure a := fun s => .ok a s
  bind m f := fun s =>
    match m s with
    | .ok a t => f a t
    | .err e t => .err e t
    | .fault reason => .fault reason

/-- The state. -/
def get : Kernel φ σ σ := fun s => .ok s s

/-- A write to the state. -/
def modify (write : σ → σ) : Kernel φ σ Unit := fun s => .ok () (write s)

/-- `return e` for an error code. -/
def fail (e : ℤ) : Kernel φ σ α := fun s => .err e s

/-- `panic`. -/
def stop (reason : φ) : Kernel φ σ α := fun _ => .fault reason

/-- `assert`. -/
def require (p : Prop) [Decidable p] (reason : φ) : Kernel φ σ Unit := fun s =>
  if p then .ok () s else .fault reason

/-- The call with its return code handed to the caller. -/
def attempt (m : Kernel φ σ α) : Kernel φ σ (Except ℤ α) := fun s =>
  match m s with
  | .ok a t => .ok (.ok a) t
  | .err e t => .ok (.error e) t
  | .fault reason => .fault reason

/-- A call on a part of the state. -/
def zoom (part : σ → τ) (put : σ → τ → σ) (m : Kernel φ τ α) : Kernel φ σ α := fun s =>
  match m (part s) with
  | .ok a t => .ok a (put s t)
  | .err e t => .err e (put s t)
  | .fault reason => .fault reason

/-- A counter goes up. -/
def countUp : Kernel φ Nat Unit := modify (· + 1)

/-- A counter goes down; it has to be above 0. -/
def countDown (reason : φ) : Kernel φ Nat Unit := do
  let count ← get
  require (0 < count) reason
  modify (· - 1)

/-! ## How calls compose -/

@[simp] theorem pure_run (a : α) (s : σ) : (pure a : Kernel φ σ α) s = .ok a s := rfl

@[simp] theorem modify_run (write : σ → σ) (s : σ) :
    (modify write : Kernel φ σ Unit) s = .ok () (write s) := rfl

theorem require_run [Decidable p] (holds : p) (reason : φ) (s : σ) :
    require p reason s = .ok () s := if_pos holds

theorem bind_ok (ran : m s = .ok a t) : (m >>= f) s = f a t := by
  change (match m s with
    | .ok a t => f a t
    | .err e t => .err e t
    | .fault reason => .fault reason) = f a t
  rw [ran]

theorem bind_err (ran : m s = .err e t) : (m >>= f) s = .err e t := by
  change (match m s with
    | .ok a t => f a t
    | .err e t => .err e t
    | .fault reason => .fault reason) = .err e t
  rw [ran]

theorem bind_fault (ran : m s = .fault reason) : (m >>= f) s = .fault reason := by
  change (match m s with
    | .ok a t => f a t
    | .err e t => .err e t
    | .fault reason => .fault reason) = .fault reason
  rw [ran]

@[simp] theorem pure_bind_run (a : α) (f : α → Kernel φ σ β) (s : σ) :
    (pure a >>= f : Kernel φ σ β) s = f a s := rfl

@[simp] theorem get_bind_run (f : σ → Kernel φ σ β) (s : σ) :
    (get >>= f : Kernel φ σ β) s = f s s := rfl

@[simp] theorem modify_bind_run (write : σ → σ) (f : Unit → Kernel φ σ β) (s : σ) :
    (modify write >>= f : Kernel φ σ β) s = f () (write s) := rfl

theorem require_bind_run [Decidable p] (holds : p) (reason : φ)
    (f : Unit → Kernel φ σ β) (s : σ) : (require p reason >>= f : Kernel φ σ β) s = f () s :=
  bind_ok (require_run holds reason s)

theorem require_bind_fault [Decidable p] (fails : ¬ p) (reason : φ)
    (f : Unit → Kernel φ σ β) (s : σ) : (require p reason >>= f : Kernel φ σ β) s = .fault reason :=
  bind_fault (if_neg fails)

theorem attempt_ok (ran : m s = .ok a t) : attempt m s = .ok (.ok a) t := by
  rw [attempt, ran]

theorem attempt_err (ran : m s = .err e t) : attempt m s = .ok (.error e) t := by
  rw [attempt, ran]

theorem attempt_fault (ran : m s = .fault reason) : attempt m s = .fault reason := by
  rw [attempt, ran]

theorem countDown_run {count : Nat} (positive : 0 < count) (reason : φ) :
    countDown reason count = .ok () (count - 1) := by
  rw [countDown, get_bind_run, require_bind_run positive]
  rfl

section Zoom

variable {part : σ → τ} {put : σ → τ → σ} {n : Kernel φ τ α} {t' : τ}

theorem zoom_ok (ran : n (part s) = .ok a t') : zoom part put n s = .ok a (put s t') := by
  rw [zoom, ran]

theorem zoom_err (ran : n (part s) = .err e t') :
    zoom part put n s = (.err e (put s t') : Outcome φ σ α) := by
  rw [zoom, ran]

theorem zoom_fault (ran : n (part s) = .fault reason) :
    zoom part put n s = (.fault reason : Outcome φ σ α) := by
  rw [zoom, ran]

end Zoom

/-! ## What a composed call did -/

theorem bind_eq_ok {u : σ} (ran : (m >>= f) s = .ok b u) :
    ∃ a t, m s = .ok a t ∧ f a t = .ok b u := by
  cases step : m s with
  | ok a t => exact ⟨a, t, rfl, (bind_ok step).symm.trans ran⟩
  | err e t => exact absurd ((bind_err step).symm.trans ran) (by simp)
  | fault reason => exact absurd ((bind_fault step).symm.trans ran) (by simp)

theorem require_eq_ok [Decidable p] {u : Unit} (ran : require p reason s = .ok u t) :
    p ∧ t = s := by
  unfold require at ran
  split at ran
  · cases ran
    exact ⟨‹p›, rfl⟩
  · cases ran

/-! ## Pre- and postconditions

`Meets P m Q`: from a state with `P` the call leaves a state with `Q` when it comes
back with a value. -/

/-- The call keeps to a precondition and a postcondition. -/
def Meets (P : σ → Prop) (m : Kernel φ σ α) (Q : α → σ → Prop) : Prop :=
  ∀ s a t, P s → m s = .ok a t → Q a t

variable {P P' : σ → Prop} {Q Q' : α → σ → Prop} {R : β → σ → Prop}

theorem Meets.bind (first : Meets P m Q) (second : ∀ a, Meets (Q a) (f a) R) :
    Meets P (m >>= f) R := by
  intro s b u before ran
  obtain ⟨a, t, one, two⟩ := bind_eq_ok ran
  exact second a t b u (first s a t before one) two

theorem Meets.imp (meets : Meets P m Q) (before : ∀ s, P' s → P s) (after : ∀ a s, Q a s → Q' a s) :
    Meets P' m Q' := fun s a t holds ran => after a t (meets s a t (before s holds) ran)

theorem meets_pure (keeps : ∀ s, P s → Q a s) : Meets P (pure a : Kernel φ σ α) Q := by
  intro s b t holds ran
  cases ran
  exact keeps s holds

theorem meets_modify {Q : Unit → σ → Prop} (keeps : ∀ s, P s → Q () (write s)) :
    Meets P (modify write : Kernel φ σ Unit) Q := by
  intro s b t holds ran
  cases ran
  exact keeps s holds

theorem meets_stop : Meets P (stop reason : Kernel φ σ α) Q := by
  intro s b t _ ran
  cases ran

theorem meets_require [Decidable p] :
    Meets P (require p reason : Kernel φ σ Unit) fun _ s => P s ∧ p := by
  intro s b t holds ran
  obtain ⟨proved, rfl⟩ := require_eq_ok ran
  exact ⟨holds, proved⟩

theorem meets_get : Meets P (get : Kernel φ σ σ) fun a s => P s ∧ a = s := by
  intro s b t holds ran
  cases ran
  exact ⟨holds, rfl⟩

theorem meets_ite [Decidable p] {n : Kernel φ σ α}
    (yes : p → Meets P m Q) (no : ¬ p → Meets P n Q) : Meets P (if p then m else n) Q := by
  by_cases holds : p
  · rw [if_pos holds]
    exact yes holds
  · rw [if_neg holds]
    exact no holds

/-! ## All three ways to end -/

variable {E : ℤ → σ → Prop} {B : φ → Prop} {o : Outcome φ σ α}

theorem ends_any (o : Outcome φ σ α) : o.Ends (fun _ _ => True) (fun _ _ => True) (fun _ => True) := by
  cases o <;> trivial

theorem Ends.imp {B' : φ → Prop} (ends : o.Ends Q E B)
    (value : ∀ a s, Q a s → Q' a s) (code : ∀ e s, E e s → E' e s) (fault : ∀ r, B r → B' r) :
    o.Ends Q' E' B' := by
  cases o with
  | ok a s => exact value a s ends
  | err e s => exact code e s ends
  | fault r => exact fault r ends

theorem Ends.mono (ends : o.Ends Q E B) (value : ∀ a s, Q a s → Q' a s)
    (code : ∀ e s, E e s → E' e s) : o.Ends Q' E' B :=
  Ends.imp ends value code fun _ bad => bad

theorem Ends.returned (ends : o.Ends Q (fun _ _ => False) (fun _ => False)) : ∃ a s, o = .ok a s ∧ Q a s := by
  cases o with
  | ok a s => exact ⟨a, s, rfl, ends⟩
  | err e s => exact ends.elim
  | fault reason => exact ends.elim

theorem Ends.bind (first : (m s).Ends Q E B) (second : ∀ a t, Q a t → (f a t).Ends R E B) :
    ((m >>= f) s).Ends R E B := by
  cases ran : m s with
  | ok a t =>
    rw [ran] at first
    rw [bind_ok ran]
    exact second a t first
  | err e t =>
    rw [ran] at first
    rw [bind_err ran]
    exact first
  | fault r =>
    rw [ran] at first
    rw [bind_fault ran]
    exact first

theorem ends_require [Decidable p] {Q : Unit → σ → Prop} (yes : p → Q () s)
    (no : ¬ p → B reason) : (require p reason s : Outcome φ σ Unit).Ends Q E B := by
  unfold require
  by_cases holds : p
  · rw [if_pos holds]
    exact yes holds
  · rw [if_neg holds]
    exact no holds

theorem Ends.attempt {Q' : Except ℤ α → σ → Prop} {E' : ℤ → σ → Prop} (ends : (m s).Ends Q E B)
    (value : ∀ a t, Q a t → Q' (.ok a) t) (code : ∀ e t, E e t → Q' (.error e) t) :
    (attempt m s).Ends Q' E' B := by
  cases ran : m s with
  | ok a t =>
    rw [ran] at ends
    rw [attempt_ok ran]
    exact value a t ends
  | err e t =>
    rw [ran] at ends
    rw [attempt_err ran]
    exact code e t ends
  | fault r =>
    rw [ran] at ends
    rw [Kernel.attempt, ran]
    exact ends

theorem Ends.attempt_bind {g : Except ℤ α → Kernel φ σ β} (ends : (m s).Ends Q E B)
    (value : ∀ a t, Q a t → (g (.ok a) t).Ends R E' B)
    (code : ∀ e t, E e t → (g (.error e) t).Ends R E' B) : ((Kernel.attempt m >>= g) s).Ends R E' B :=
  Ends.bind (Ends.attempt ends value code) fun _ _ holds => holds

theorem Ends.zoom {part : σ → τ} {put : σ → τ → σ} {n : Kernel φ τ α} {Q : α → τ → Prop}
    {E : ℤ → τ → Prop} {Q' : α → σ → Prop} (ends : (n (part s)).Ends Q E B)
    (value : ∀ a t, Q a t → Q' a (put s t)) (code : ∀ e t, E e t → E' e (put s t)) :
    (zoom part put n s).Ends Q' E' B := by
  cases ran : n (part s) with
  | ok a t =>
    rw [ran] at ends
    rw [zoom_ok ran]
    exact value a t ends
  | err e t =>
    rw [ran] at ends
    rw [zoom_err ran]
    exact code e t ends
  | fault r =>
    rw [ran] at ends
    rw [zoom_fault ran]
    exact ends

theorem Ends.conclude {P : τ → Prop} {value : α → σ → τ} {code : σ → τ} (ends : o.Ends Q E B)
    (ok : ∀ a s, Q a s → P (value a s)) (err : ∀ e s, E e s → P (code s)) :
    (o.conclude value code).Ends (fun _ => P) (fun _ => P) B := by
  cases o with
  | ok a s => exact ok a s ends
  | err e s => exact err e s ends
  | fault r => exact ends

theorem Ends.leaves {P : σ → Prop} (ends : o.Ends (fun _ => P) (fun _ => P) B) (leaves : o.Leaves t) : P t := by
  rcases leaves with ⟨a, rfl⟩ | ⟨e, rfl⟩
  · exact ends
  · exact ends

/-! ## Invariants of calls -/

/-- The call keeps `P`, its error codes come with states in `E`, its faults are in `B`. -/
def Keeps (P : σ → Prop) (E : ℤ → σ → Prop) (B : φ → Prop) (m : Kernel φ σ α) : Prop :=
  ∀ s, P s → (m s).Ends (fun _ => P) E B

section Keeps

theorem Keeps.bind (first : Keeps P E B m) (second : ∀ a, Keeps P E B (f a)) :
    Keeps P E B (m >>= f) := fun s before =>
  Ends.bind (first s before) fun a t between => second a t between

theorem keeps_pure (a : α) : Keeps P E B (pure a : Kernel φ σ α) := fun _ before => before

theorem keeps_get : Keeps P E B (get : Kernel φ σ σ) := fun _ before => before

theorem keeps_modify (kept : ∀ s, P s → P (write s)) :
    Keeps P E B (modify write : Kernel φ σ Unit) := fun s before => kept s before

theorem keeps_fail (code : ∀ s, P s → E e s) : Keeps P E B (fail e : Kernel φ σ α) :=
  fun s before => code s before

theorem keeps_stop (fault : B reason) : Keeps P E B (stop reason : Kernel φ σ α) := fun _ _ => fault

theorem keeps_require [Decidable p] (fault : B reason) :
    Keeps P E B (require p reason : Kernel φ σ Unit) := fun _ before =>
  ends_require (fun _ => before) fun _ => fault

theorem keeps_ite [Decidable p] {n : Kernel φ σ α} (yes : p → Keeps P E B m)
    (no : ¬ p → Keeps P E B n) : Keeps P E B (if p then m else n) := by
  by_cases holds : p
  · rw [if_pos holds]
    exact yes holds
  · rw [if_neg holds]
    exact no holds

theorem Keeps.attempt {E' : ℤ → σ → Prop} (keeps : Keeps P E B m) (code : ∀ e s, E e s → P s) :
    Keeps P E' B (attempt m) := fun s before =>
  Ends.attempt (keeps s before) (fun _ _ after => after) code

/-- A call on a part of the state that the invariant does not look at. -/
theorem keeps_zoom {part : σ → τ} {put : σ → τ → σ} {n : Kernel φ τ α} {P' : τ → Prop}
    {E' : ℤ → τ → Prop} (keeps : Keeps P' E' B n) (inside : ∀ s, P s → P' (part s))
    (value : ∀ s t, P s → P' t → P (put s t)) (code : ∀ e s t, P s → E' e t → E e (put s t)) :
    Keeps P E B (zoom part put n) := fun s before =>
  Ends.zoom (keeps (part s) (inside s before)) (fun _ t after => value s t before after)
    fun e t after => code e s t before after

end Keeps

end Kernel

end LiNos
