import Mathlib.Data.List.Basic
import Mathlib.Logic.Function.Basic
import Mathlib.Data.Nat.Notation

/-!
A ring of cells under positions that only grow.

Position `i` stands for cell `i % size`. What lies between a read and a write position is
read back as a list; it is what was put in as long as the two positions are at most `size`
apart.
-/

namespace LiNos.RingBuffer

open Function List

variable {α : Type} {cell : ℕ → α} {size r w : ℕ} {a : α}

/-- The cells from position `r` up to position `w`. -/
def contents (cell : ℕ → α) (size r w : ℕ) : List α :=
  (range' r (w - r)).map fun i => cell (i % size)

@[simp] theorem length_contents : (contents cell size r w).length = w - r := by
  simp [contents]

theorem contents_head (nonempty : r < w) :
    contents cell size r w = cell (r % size) :: contents cell size (r + 1) w := by
  obtain ⟨n, shape⟩ : ∃ n, w - r = n + 1 := ⟨w - r - 1, by omega⟩
  rw [contents, contents, shape, show w - (r + 1) = n by omega, range'_succ, map_cons]

/-- Two positions less than a round apart are different cells. -/
theorem mod_ne {i : ℕ} (before : i < w) (near : w - i < size) : i % size ≠ w % size := by
  intro same
  have round : size ∣ w - i := Nat.dvd_of_mod_eq_zero (Nat.sub_mod_eq_zero_of_mod_eq same.symm)
  have zero := Nat.eq_zero_of_dvd_of_lt round near
  omega

/-- A store at the write position leaves what is less than a round behind it alone. -/
theorem contents_store (near : w - r < size) :
    contents (update cell (w % size) a) size r w = contents cell size r w := by
  apply map_congr_left
  intro i member
  rw [mem_range'_1] at member
  exact update_of_ne (mod_ne (by omega) (by omega)) _ _

theorem contents_push (order : r ≤ w) (near : w - r < size) :
    contents (update cell (w % size) a) size r (w + 1) = contents cell size r w ++ [a] := by
  rw [← contents_store near, contents, contents, show w + 1 - r = w - r + 1 by omega,
    range'_1_concat, map_append, map_singleton, show r + (w - r) = w by omega,
    update_self]

/-- In a full ring a store at the write position replaces the oldest entry. -/
theorem contents_overwrite (full : w = r + size) (nonempty : 0 < size) :
    contents (update cell (w % size) a) size r w = a :: contents cell size (r + 1) w := by
  have same : r % size = w % size := by
    rw [full, Nat.add_mod_right]
  rw [contents_head (by omega), contents_store (by omega), same, update_self]

end LiNos.RingBuffer
