import Mathlib.Data.List.Nodup
import Mathlib.Logic.Function.Basic

/-!
Cycles through a `next` field.

`Cycle next l` says that following `next` from any entry of `l` visits the rest of the list
in order and comes back. A cycle has no first entry (`Cycle.rotate`), so an operation next to
some entry is stated for the list turned to begin there: a node is put in behind the first
one, or the second one is taken out.
-/

namespace LiNos.NextCycle

open List

variable {α : Type} {next next' : α → α} {a b x z : α} {xs ys l : List α} {fuel : ℕ}

/-- `next` leads from `a` through `xs` to `z`. -/
def Trail (next : α → α) : α → List α → α → Prop
  | a, [], z => next a = z
  | a, x :: xs, z => next a = x ∧ Trail next x xs z

theorem trail_append : Trail next a (xs ++ x :: ys) z ↔ Trail next a xs x ∧ Trail next x ys z := by
  induction xs generalizing a with
  | nil => exact Iff.rfl
  | cons y xs ih =>
    change next a = y ∧ Trail next y (xs ++ x :: ys) z ↔ (next a = y ∧ Trail next y xs x) ∧ _
    rw [ih, and_assoc]

theorem trail_congr (trail : Trail next a xs z) (same : ∀ x ∈ a :: xs, next' x = next x) :
    Trail next' a xs z := by
  induction xs generalizing a with
  | nil => exact (same a mem_cons_self).trans trail
  | cons y xs ih =>
    exact ⟨(same a mem_cons_self).trans trail.1,
      ih trail.2 fun x member => same x (mem_cons_of_mem _ member)⟩

/-- Some entry of a trail leads to its end. -/
theorem trail_last (trail : Trail next a xs z) : ∃ x ∈ a :: xs, next x = z := by
  induction xs generalizing a with
  | nil => exact ⟨a, mem_cons_self, trail⟩
  | cons y xs ih =>
    obtain ⟨x, member, last⟩ := ih trail.2
    exact ⟨x, mem_cons_of_mem _ member, last⟩

/-- Following `next` from any entry visits the others in order, each once, and comes back. -/
def Cycle (next : α → α) : List α → Prop
  | [] => True
  | a :: xs => Trail next a xs a ∧ (a :: xs).Nodup

theorem Cycle.nodup (cycle : Cycle next l) : l.Nodup := by
  cases l with
  | nil => exact nodup_nil
  | cons a xs => exact cycle.2

theorem Cycle.rotate (cycle : Cycle next (xs ++ ys)) : Cycle next (ys ++ xs) := by
  cases xs with
  | nil => simpa using cycle
  | cons a xs =>
    cases ys with
    | nil => simpa using cycle
    | cons y ys =>
      obtain ⟨there, back⟩ := trail_append.mp cycle.1
      refine ⟨trail_append.mpr ⟨back, there⟩, ?_⟩
      have perm : (y :: ys ++ a :: xs).Perm (a :: xs ++ y :: ys) := perm_append_comm
      exact perm.nodup_iff.mpr cycle.2

theorem Cycle.congr (cycle : Cycle next l) (same : ∀ x ∈ l, next' x = next x) : Cycle next' l := by
  cases l with
  | nil => trivial
  | cons a xs => exact ⟨trail_congr cycle.1 same, cycle.2⟩

/-- The list turned to begin at one of its entries. -/
theorem Cycle.turn {l : List α} (cycle : Cycle next l) (member : a ∈ l) :
    ∃ xs ys, l = ys ++ a :: xs ∧ Cycle next (a :: (xs ++ ys)) := by
  obtain ⟨ys, xs, rfl⟩ := append_of_mem member
  exact ⟨xs, ys, rfl, cycle.rotate⟩

/-- Every entry is the next one of some entry. -/
theorem Cycle.exists_prev (cycle : Cycle next l) (member : a ∈ l) : ∃ x ∈ l, next x = a :=
    by
  obtain ⟨xs, ys, rfl, turned⟩ := cycle.turn member
  obtain ⟨x, inside, last⟩ := trail_last turned.1
  refine ⟨x, ?_, last⟩
  simp only [mem_cons, mem_append] at inside ⊢
  tauto

/-- An entry is followed by the next one of the list, or is the last and followed by the
first. -/
theorem Cycle.beside {l : List α} (cycle : Cycle next l) (member : a ∈ l) (other : next a ≠ a) :
    (∃ ys xs, l = ys ++ a :: next a :: xs) ∨ ∃ ys, l = next a :: (ys ++ [a]) := by
  obtain ⟨xs, ys, rfl, turned⟩ := cycle.turn member
  cases xs with
  | cons x xs =>
    left
    have step : next a = x := turned.1.1
    exact ⟨ys, xs, by rw [step]⟩
  | nil =>
    cases ys with
    | nil => exact absurd turned.1 other
    | cons y ys =>
      right
      have step : next a = y := turned.1.1
      exact ⟨ys, by rw [step]; rfl⟩

theorem Cycle.next_mem (cycle : Cycle next l) (member : a ∈ l) : next a ∈ l := by
  by_cases same : next a = a
  · rwa [same]
  · rcases cycle.beside member same with ⟨ys, xs, shape⟩ | ⟨ys, shape⟩
    · rw [shape]
      simp
    · rw [shape]
      exact mem_cons_self

/-! ## Writes -/

/-- A node goes in behind the first entry. -/
theorem Cycle.insert (cycle : Cycle next (a :: xs)) (fresh : b ∉ a :: xs) (first : next' a = b)
    (second : next' b = next a) (same : ∀ x ∈ xs, next' x = next x) : Cycle next' (a :: b :: xs) := by
  obtain ⟨trail, distinct⟩ := cycle
  refine ⟨⟨first, ?_⟩, ?_⟩
  · cases xs with
    | nil => exact second.trans trail
    | cons x xs => exact ⟨second.trans trail.1, trail_congr trail.2 same⟩
  · have perm : (a :: b :: xs).Perm (b :: a :: xs) := List.Perm.swap b a xs
    exact perm.nodup_iff.mpr (nodup_cons.mpr ⟨fresh, distinct⟩)

/-- The second entry is taken out. -/
theorem Cycle.remove (cycle : Cycle next (a :: b :: xs)) (first : next' a = next b)
    (same : ∀ x ∈ xs, next' x = next x) : Cycle next' (a :: xs) := by
  obtain ⟨⟨-, trail⟩, distinct⟩ := cycle
  refine ⟨?_, (nodup_cons.mp ((List.Perm.swap b a xs).nodup_iff.mp distinct)).2⟩
  cases xs with
  | nil => exact first.trans trail
  | cons x xs => exact ⟨first.trans trail.1, trail_congr trail.2 same⟩

/-! ## Walks -/

/-- Follows `next` until `stop` says so. -/
def seek (next : α → α) (stop : α → Bool) : ℕ → α → Option α
  | 0, _ => none
  | fuel + 1, a => if stop a then some a else seek next stop fuel (next a)

theorem seek_more {stop : α → Bool} {more : ℕ} (found : seek next stop fuel a = some b)
    (enough : fuel ≤ more) : seek next stop more a = some b := by
  induction fuel generalizing a more with
  | zero => cases found
  | succ fuel ih =>
    obtain ⟨more, rfl⟩ : ∃ k, more = k + 1 := ⟨more - 1, by omega⟩
    rw [seek] at found ⊢
    split
    · rename_i here
      rwa [if_pos here] at found
    · rename_i onward
      rw [if_neg onward] at found
      exact ih found (Nat.le_of_succ_le_succ enough)

/-- A walk along a trail ends at or before an entry where it may stop. -/
theorem seek_trail (stop : α → Bool) (trail : Trail next a xs z) (member : b ∈ a :: xs)
    (stops : stop b = true) (enough : xs.length < fuel) :
    ∃ c ∈ a :: xs, seek next stop fuel a = some c ∧ stop c = true := by
  induction xs generalizing a fuel with
  | nil =>
    obtain ⟨fuel, rfl⟩ : ∃ k, fuel = k + 1 := ⟨fuel - 1, by omega⟩
    obtain rfl : b = a := by simpa using member
    exact ⟨b, mem_cons_self, by rw [seek, if_pos stops], stops⟩
  | cons x xs ih =>
    obtain ⟨fuel, rfl⟩ : ∃ k, fuel = k + 1 := ⟨fuel - 1, by omega⟩
    by_cases here : stop a = true
    · exact ⟨a, mem_cons_self, by rw [seek, if_pos here], here⟩
    · have later : b ∈ x :: xs := by
        rcases mem_cons.mp member with rfl | later
        · exact absurd stops here
        · exact later
      obtain ⟨c, inside, found, last⟩ := ih trail.2 later (Nat.lt_of_succ_lt_succ enough)
      refine ⟨c, mem_cons_of_mem _ inside, ?_, last⟩
      rw [seek, if_neg here, trail.1, found]

end LiNos.NextCycle
