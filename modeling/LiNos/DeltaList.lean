import Mathlib.Logic.Function.Basic
import Mathlib.Data.List.Nodup
import Mathlib.Algebra.Order.Ring.Nat

/-!
Lists of differences.

Each entry of a list carries only its difference to the entry before it; what an entry
stands for is the sum of the differences up to it. An entry is put in by taking its
difference out of its successor, and taken out by adding it to its successor again, and
the sums of all others stay.
-/

namespace LiNos.DeltaList

open Function List

variable {α : Type} [DecidableEq α] {delta delta' : α → ℕ} {l : List α} {a b c : α} {n : ℕ}

/-- The sum of the differences up to and with `a`. -/
def due (delta : α → ℕ) : List α → α → Option ℕ
  | [], _ => none
  | b :: l, a => if b = a then some (delta b) else (due delta l a).map (delta b + ·)

@[simp] theorem due_nil (a : α) : due delta [] a = none := rfl

@[simp] theorem due_head (a : α) (l : List α) : due delta (a :: l) a = some (delta a) := if_pos rfl

theorem due_cons (other : b ≠ a) : due delta (b :: l) a = (due delta l a).map (delta b + ·) := if_neg other

@[simp] theorem due_eq_none : due delta l a = none ↔ a ∉ l := by
  induction l with
  | nil => simp
  | cons b l ih =>
    by_cases same : b = a
    · simp [same]
    · simp [due_cons same, ih, Ne.symm same]

theorem due_congr (same : ∀ b ∈ l, delta b = delta' b) (a : α) : due delta l a = due delta' l a := by
  induction l with
  | nil => rfl
  | cons b l ih =>
    rw [due, due, same b mem_cons_self, ih fun b member => same b (mem_cons_of_mem _ member)]

/-- An entry outside the list does not matter. -/
theorem due_update (outside : b ∉ l) (a : α) : due (update delta b n) l a = due delta l a := by
  apply due_congr
  intro c member
  apply update_of_ne
  rintro rfl
  exact outside member

/-- The first difference is part of every sum. -/
theorem due_pred (a : α) (fresh : b ∉ l) :
    due (update delta b (delta b - 1)) (b :: l) a =
      if 0 < delta b then (due delta (b :: l) a).map (· - 1) else due delta (b :: l) a := by
  by_cases same : b = a
  · subst same
    by_cases positive : 0 < delta b
    · simp [positive]
    · have zero : delta b = 0 := by omega
      simp [zero]
  · rw [due_cons same, due_cons same, due_update fresh, update_self]
    by_cases positive : 0 < delta b
    · rw [if_pos positive]
      cases due delta l a with
      | none => rfl
      | some m =>
        simp only [Option.map_some, Option.some.injEq]
        omega
    · have zero : delta b = 0 := by omega
      rw [if_neg positive, zero]

/-- Every sum is at least the first difference. -/
theorem le_due (found : due delta (b :: l) a = some n) : delta b ≤ n := by
  by_cases same : b = a
  · subst same
    rw [due_head, Option.some.injEq] at found
    exact found.le
  · rw [due_cons same] at found
    obtain ⟨m, -, rfl⟩ := Option.map_eq_some_iff.mp found
    exact Nat.le_add_right _ _

theorem le_due_self (found : due delta l a = some n) : delta a ≤ n := by
  induction l generalizing n with
  | nil => cases found
  | cons b l ih =>
    by_cases same : b = a
    · subst same
      exact le_due found
    · rw [due_cons same] at found
      obtain ⟨m, later, rfl⟩ := Option.map_eq_some_iff.mp found
      exact (ih later).trans (Nat.le_add_left _ _)

/-! ## Entries that are due -/

/-- The entries whose sum is 0 are a first piece of the list. -/
theorem mem_takeWhile_zero (distinct : l.Nodup) :
    a ∈ l.takeWhile (fun b => decide (delta b = 0)) ↔ due delta l a = some 0 := by
  induction l with
  | nil => simp
  | cons b l ih =>
    obtain ⟨fresh, rest⟩ := nodup_cons.mp distinct
    by_cases same : b = a
    · subst same
      by_cases zero : delta b = 0 <;> simp [zero]
    · rw [due_cons same]
      by_cases zero : delta b = 0
      · simp [zero, ih rest, Ne.symm same]
      · simp [zero]

/-- Without them the sums of the others are as before. -/
theorem due_dropWhile_zero (distinct : l.Nodup) :
    due delta (l.dropWhile fun b => decide (delta b = 0)) a =
      if due delta l a = some 0 then none else due delta l a := by
  induction l with
  | nil => simp
  | cons b l ih =>
    obtain ⟨fresh, rest⟩ := nodup_cons.mp distinct
    by_cases zero : delta b = 0
    · rw [dropWhile_cons_of_pos (by simpa using zero), ih rest]
      by_cases same : b = a
      · subst same
        have absent : due delta l b = none := due_eq_none.mpr fresh
        simp [absent, zero]
      · rw [due_cons same, zero]
        simp
    · rw [dropWhile_cons_of_neg (by simpa using zero), if_neg]
      intro found
      exact zero (Nat.le_zero.mp (le_due found))

/-! ## Taking an entry out -/

/-- The entry behind `a`. -/
def nextOf : List α → α → Option α
  | [], _ => none
  | b :: l, a => if b = a then l.head? else nextOf l a

theorem nextOf_mem (found : nextOf l a = some b) : b ∈ l := by
  induction l with
  | nil => cases found
  | cons c l ih =>
    unfold nextOf at found
    split at found
    · exact mem_cons_of_mem _ (mem_of_mem_head? found)
    · exact mem_cons_of_mem _ (ih found)

theorem nextOf_ne (distinct : l.Nodup) (found : nextOf l a = some b) : b ≠ a := by
  induction l with
  | nil => cases found
  | cons c l ih =>
    obtain ⟨fresh, distinctTail⟩ := nodup_cons.mp distinct
    unfold nextOf at found
    split at found
    · rename_i same
      rintro rfl
      exact fresh (same ▸ mem_of_mem_head? found)
    · exact ih distinctTail found

/-- The differences once that of `a` is added to its successor. -/
def giveOn (delta : α → ℕ) (l : List α) (a : α) : α → ℕ :=
  match nextOf l a with
  | some b => update delta b (delta b + delta a)
  | none => delta

theorem giveOn_apart (outside : b ∉ l) : giveOn delta l a b = delta b := by
  unfold giveOn
  cases next : nextOf l a with
  | none => rfl
  | some c =>
    apply update_of_ne
    rintro rfl
    exact outside (nextOf_mem next)

theorem giveOn_self (distinct : l.Nodup) : giveOn delta l a a = delta a := by
  unfold giveOn
  cases next : nextOf l a with
  | none => rfl
  | some b => exact update_of_ne (Ne.symm (nextOf_ne distinct next)) _ _

theorem giveOn_zero (zero : delta a = 0) : giveOn delta l a = delta := by
  unfold giveOn
  cases nextOf l a with
  | none => rfl
  | some b =>
    dsimp only
    rw [zero, Nat.add_zero, update_eq_self]

/-- The sum up to the successor contains both differences. -/
theorem due_nextOf (distinct : l.Nodup) (next : nextOf l a = some b) (member : a ∈ l) :
    ∃ n, due delta l b = some n ∧ delta b + delta a ≤ n := by
  induction l with
  | nil => cases member
  | cons c l ih =>
    obtain ⟨fresh, rest⟩ := nodup_cons.mp distinct
    by_cases same : c = a
    · subst same
      rw [nextOf, if_pos rfl] at next
      cases l with
      | nil => cases next
      | cons d l =>
        rw [head?_cons, Option.some.injEq] at next
        subst next
        have other : c ≠ d := fun same => fresh (same ▸ mem_cons_self)
        refine ⟨delta c + delta d, ?_, by omega⟩
        rw [due_cons other, due_head, Option.map_some]
    · rw [nextOf, if_neg same] at next
      have inside : a ∈ l := (mem_cons.mp member).resolve_left (Ne.symm same)
      obtain ⟨n, found, below⟩ := ih rest next inside
      have other : c ≠ b := fun same => fresh (same ▸ nextOf_mem next)
      refine ⟨delta c + n, ?_, by omega⟩
      rw [due_cons other, found, Option.map_some]

theorem due_giveOn (distinct : l.Nodup) (c : α) :
    due (giveOn delta l a) (l.erase a) c = if c = a then none else due delta l c := by
  induction l with
  | nil => simp
  | cons b l ih =>
    obtain ⟨fresh, rest⟩ := nodup_cons.mp distinct
    by_cases same : b = a
    · subst same
      rw [erase_cons_head]
      by_cases here : c = b
      · subst here
        rw [if_pos rfl]
        exact due_eq_none.mpr fresh
      · rw [if_neg here, due_cons (Ne.symm here)]
        have next : nextOf (b :: l) b = l.head? := if_pos rfl
        unfold giveOn
        rw [next]
        cases l with
        | nil => rfl
        | cons d l =>
          -- the successor stands for both differences now
          obtain ⟨fresh', -⟩ := nodup_cons.mp rest
          dsimp only [head?_cons]
          by_cases first : d = c
          · subst first
            rw [due_head, due_head, update_self, Option.map_some, Nat.add_comm]
          · rw [due_cons first, due_cons first, due_update fresh', update_self, Option.map_map]
            congr 1
            funext m
            simp only [comp_apply]
            omega
    · rw [erase_cons_tail (by simpa using same)]
      have next : giveOn delta (b :: l) a = giveOn delta l a := by
        unfold giveOn
        rw [nextOf, if_neg same]
      rw [next]
      by_cases here : b = c
      · subst here
        rw [due_head, due_head, if_neg same, giveOn_apart fresh]
      · rw [due_cons here, due_cons here, ih rest, giveOn_apart fresh]
        by_cases gone : c = a
        · rw [if_pos gone, if_pos gone]
          rfl
        · rw [if_neg gone, if_neg gone]

end LiNos.DeltaList
