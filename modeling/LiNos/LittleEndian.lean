import Mathlib.Algebra.Order.Ring.Nat

/-!
Numbers in memory.

A piece of memory is a function from positions to bytes. A number of `width` bytes
lies there with its low byte first. Reading looks at these bytes only, copying
changes no others, and what was written is read back.
-/

namespace LiNos.LittleEndian

variable {mem mem' src : ℕ → UInt8} {pos pos' width width' len n i : ℕ}

/-- The number of `width` bytes at `pos`. -/
def getLE (mem : ℕ → UInt8) (pos : ℕ) : ℕ → ℕ
  | 0 => 0
  | width + 1 => (mem pos).toNat + 256 * getLE mem (pos + 1) width

/-- The bytes of a number. -/
def bytesLE (n : ℕ) : ℕ → UInt8 := fun i => UInt8.ofNat (n / 256 ^ i)

/-- `memcpy` of `len` bytes to `pos`. -/
def copy (mem : ℕ → UInt8) (pos : ℕ) (src : ℕ → UInt8) (len : ℕ) : ℕ → UInt8 := fun i =>
  if pos ≤ i ∧ i < pos + len then src (i - pos) else mem i

theorem copy_inside (inside : i < len) : copy mem pos src len (pos + i) = src i := by
  rw [copy, if_pos ⟨by omega, by omega⟩, Nat.add_sub_cancel_left]

theorem copy_apart (apart : i < pos ∨ pos + len ≤ i) : copy mem pos src len i = mem i := by
  rw [copy, if_neg (by omega)]

theorem getLE_lt (mem : ℕ → UInt8) (pos width : ℕ) : getLE mem pos width < 256 ^ width := by
  induction width generalizing pos with
  | zero => simp [getLE]
  | succ width ih =>
    have low := (mem pos).toNat_lt
    have high := ih (pos + 1)
    rw [getLE, pow_succ]
    omega

theorem getLE_congr (same : ∀ i < width, mem (pos + i) = mem' (pos' + i)) :
    getLE mem pos width = getLE mem' pos' width := by
  induction width generalizing pos pos' with
  | zero => rfl
  | succ width ih =>
    have first := same 0 (by omega)
    rw [add_zero, add_zero] at first
    have rest : getLE mem (pos + 1) width = getLE mem' (pos' + 1) width := by
      apply ih
      intro i inside
      have byte := same (i + 1) (by omega)
      rwa [← add_assoc, ← add_assoc, add_right_comm, add_right_comm pos'] at byte
    rw [getLE, getLE, first, rest]

/-- A number is the same in a buffer that starts where it lies. -/
theorem getLE_shift (mem : ℕ → UInt8) (pos width : ℕ) :
    getLE (fun i => mem (pos + i)) 0 width = getLE mem pos width := by
  apply getLE_congr
  intro i _
  rw [zero_add]

/-- The bytes of a number determine it. -/
theorem getLE_bytesLE (small : n < 256 ^ width) : getLE (bytesLE n) 0 width = n := by
  suffices shifted : ∀ pos, n / 256 ^ pos < 256 ^ width →
      getLE (bytesLE n) pos width = n / 256 ^ pos by
    simpa using shifted 0 (by simpa using small)
  clear small
  induction width with
  | zero =>
    intro pos small
    exact (Nat.lt_one_iff.mp small).symm
  | succ width ih =>
    intro pos small
    have next : n / 256 ^ (pos + 1) = n / 256 ^ pos / 256 := by
      rw [pow_succ, Nat.div_div_eq_div_mul]
    have rest : getLE (bytesLE n) (pos + 1) width = n / 256 ^ pos / 256 := by
      rw [← next]
      apply ih
      rw [next]
      rw [pow_succ] at small
      exact Nat.div_lt_of_lt_mul (by omega)
    rw [getLE, rest, bytesLE, UInt8.toNat_ofNat']
    omega

/-- A number is read back where its bytes were copied. -/
theorem getLE_copy (inside : pos' + width ≤ len) :
    getLE (copy mem pos src len) (pos + pos') width = getLE src pos' width := by
  apply getLE_congr
  intro i below
  rw [add_assoc, copy_inside (by omega)]

theorem getLE_copy_bytesLE (small : n < 256 ^ width) :
    getLE (copy mem pos (bytesLE n) width) pos width = n := by
  have read := @getLE_copy mem (bytesLE n) pos 0 width width (by omega)
  rw [add_zero] at read
  rw [read, getLE_bytesLE small]

theorem getLE_copy_apart (apart : pos + width ≤ pos' ∨ pos' + len ≤ pos) :
    getLE (copy mem pos' src len) pos width = getLE mem pos width :=
  getLE_congr fun _ _ => copy_apart (by omega)

/-! ## Structures

The fields of a structure, each with its width, one after the other. -/

/-- The memory image of a structure. -/
def packed : List (ℕ × ℕ) → ℕ → UInt8
  | [], _ => 0
  | (width, n) :: fields, i => if i < width then bytesLE n i else packed fields (i - width)

/-- How many bytes the fields take. -/
def span (fields : List (ℕ × ℕ)) : ℕ := (fields.map Prod.fst).sum

@[simp] theorem span_nil : span [] = 0 := rfl

@[simp] theorem span_cons (field : ℕ × ℕ) (fields : List (ℕ × ℕ)) :
    span (field :: fields) = field.1 + span fields := by
  simp [span]

@[simp] theorem span_append (fields rest : List (ℕ × ℕ)) :
    span (fields ++ rest) = span fields + span rest := by
  simp [span]

/-- The fields of an array. -/
@[simp] theorem span_map (width : ℕ) (ns : List ℕ) :
    span (ns.map fun n => (width, n)) = ns.length * width := by
  induction ns with
  | nil => simp
  | cons n ns ih =>
    rw [List.map_cons, span_cons, ih, List.length_cons, Nat.succ_mul, add_comm]

/-- Behind the first fields comes the rest. -/
theorem packed_append (fields rest : List (ℕ × ℕ)) (i : ℕ) :
    packed (fields ++ rest) (span fields + i) = packed rest i := by
  induction fields with
  | nil => simp
  | cons field fields ih =>
    obtain ⟨width, n⟩ := field
    rw [List.cons_append, packed, span_cons, if_neg (by simp; omega)]
    rw [show width + span fields + i - width = span fields + i by omega, ih]

/-- A field is read back at the place the fields before it leave it. -/
theorem getLE_packed (fields rest : List (ℕ × ℕ)) (small : n < 256 ^ width) :
    getLE (packed (fields ++ (width, n) :: rest)) (span fields) width = n := by
  have field : getLE (packed (fields ++ (width, n) :: rest)) (span fields) width =
      getLE (bytesLE n) 0 width := by
    apply getLE_congr
    intro i inside
    rw [packed_append, packed, if_pos inside, zero_add]
  rw [field, getLE_bytesLE small]

end LiNos.LittleEndian
