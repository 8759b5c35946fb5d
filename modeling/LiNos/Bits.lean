import Mathlib.Data.Nat.Bitwise
import Mathlib.Data.Nat.Log

/-!
Powers of two by bit smearing.

Or-ing a word with itself shifted right by 1, 2, 4, … copies its leading bit
into every lower place. The word and-ed with that mask shifted by one is the
word without its leading bit, from which the powers of two below and above it
are one subtraction and one shift away.

The second part is about words that hold a number above some low bits of flags,
as page table entries do.
-/

namespace LiNos.Bits

variable {a b x i j k m w : ℕ}

/-- `a | (a >> n)` -/
def shrOr (a n : ℕ) : ℕ := a ||| (a >>> n)

/-- Every bit of `a` is also found in the `m - 1` places below it in `x`. -/
def Smeared (a m x : ℕ) : Prop := ∀ i, x.testBit i = true ↔ ∃ j < m, a.testBit (i + j) = true

theorem smeared_self (a : ℕ) : Smeared a 1 a := by
  intro i
  constructor
  · exact fun bit => ⟨0, Nat.one_pos, bit⟩
  · rintro ⟨j, small, bit⟩
    have zero : j = 0 := by omega
    simpa [zero] using bit

/-- One more smearing step doubles the reach. -/
theorem Smeared.shrOr (smeared : Smeared a m x) : Smeared a (m + m) (shrOr x m) := by
  intro i
  rw [Bits.shrOr, Nat.testBit_or, Nat.testBit_shiftRight, Bool.or_eq_true, smeared i,
    smeared (m + i)]
  constructor
  · rintro (⟨j, small, bit⟩ | ⟨j, small, bit⟩)
    · exact ⟨j, by omega, bit⟩
    · exact ⟨m + j, by omega, by rwa [← Nat.add_assoc, Nat.add_comm i m]⟩
  · rintro ⟨j, small, bit⟩
    by_cases near : j < m
    · exact Or.inl ⟨j, near, bit⟩
    · refine Or.inr ⟨j - m, by omega, ?_⟩
      rwa [show m + i + (j - m) = i + j by omega]

/-- Smeared over its whole width a non-zero word is a mask up to its leading bit. -/
theorem Smeared.shiftRight_one (smeared : Smeared a w x) (positive : a ≠ 0) (fits : a < 2 ^ w) :
    x >>> 1 = 2 ^ Nat.log 2 a - 1 := by
  have below : Nat.log 2 a < w := Nat.log_lt_of_lt_pow positive fits
  apply Nat.eq_of_testBit_eq
  intro i
  rw [Nat.testBit_shiftRight, Nat.testBit_two_pow_sub_one, Bool.eq_iff_iff, smeared (1 + i),
    decide_eq_true_iff]
  constructor
  · rintro ⟨j, -, bit⟩
    have high : 2 ^ (1 + i + j) ≤ a := Nat.ge_two_pow_of_testBit bit
    have reach : 1 + i + j ≤ Nat.log 2 a := Nat.le_log_of_pow_le Nat.one_lt_two high
    omega
  · intro low
    refine ⟨Nat.log 2 a - (1 + i), by omega, ?_⟩
    rw [show 1 + i + (Nat.log 2 a - (1 + i)) = Nat.log 2 a by omega]
    rw [← Nat.log2_eq_log_two]
    exact Nat.testBit_log2 positive

/-- A power of two that meets a word is at most the word. -/
theorem two_pow_le_of_and (meets : 2 ^ k &&& x ≠ 0) : 2 ^ k ≤ x := by
  rw [Nat.and_comm, Nat.and_two_pow] at meets
  apply Nat.ge_two_pow_of_testBit
  cases bit : x.testBit k with
  | false => simp [bit] at meets
  | true => rfl

/-- A power of two at most a join is at most one of the two parts. -/
theorem two_pow_le_or (fits : 2 ^ k ≤ a ||| b) : 2 ^ k ≤ a ∨ 2 ^ k ≤ b := by
  by_contra none
  have both : a < 2 ^ k ∧ b < 2 ^ k := by omega
  exact absurd (Nat.or_lt_two_pow both.1 both.2) (Nat.not_lt.mpr fits)

/-! ## A number above flags -/

variable {hi lo mask : ℕ}

/-- The number is read back by shifting the flags out. -/
theorem packed_shiftRight (small : lo < 2 ^ k) : ((hi <<< k) ||| lo) >>> k = hi := by
  rw [Nat.shiftRight_or_distrib, Nat.shiftLeft_shiftRight, Nat.shiftRight_eq_zero lo k small,
    Nat.or_zero]

/-- Masking the low bits off does not change what is above them. -/
theorem and_mask_shiftRight (bound : a < 2 ^ (k + m)) :
    (a &&& ((2 ^ m - 1) <<< k)) >>> k = a >>> k := by
  rw [Nat.shiftRight_and_distrib, Nat.shiftLeft_shiftRight, Nat.and_two_pow_sub_one_eq_mod,
    Nat.mod_eq_of_lt]
  rw [Nat.shiftRight_eq_div_pow, Nat.div_lt_iff_lt_mul (Nat.two_pow_pos k), ← pow_add, Nat.add_comm]
  exact bound

/-- A flag of the word is a flag of the low part. -/
theorem packed_and_low (below : mask < 2 ^ k) : ((hi <<< k) ||| lo) &&& mask = lo &&& mask := by
  apply Nat.eq_of_testBit_eq
  intro i
  by_cases inside : i < k
  · simp [show ¬ k ≤ i by omega]
  · have out : mask.testBit i = false :=
      Nat.testBit_lt_two_pow (below.trans_le (Nat.pow_le_pow_right (by omega) (by omega)))
    simp [out]

end LiNos.Bits
