import Mathlib.Logic.Function.Basic
import Mathlib.Algebra.Order.Ring.Nat
import Mathlib.Data.Finset.Range
import Mathlib.Data.Finset.Erase
import Mathlib.Data.Finset.Insert
import LiNos.FsDefs

/-!
The free map (bitmap.c).

The bits are kept in 32-bit words; a set bit is a free block. Each function is given
word by word, and what it does is stated for the bits: a bit is its word's bit at
the remainder, and every other bit stays.
-/

namespace LiNos.Fs

open Kernel Function

/-- `WORD_BITS`. -/
def wordBits : ℕ := 32

/-- `struct bitmap`. -/
structure Bitmap where
  nbits : ℕ
  nwords : ℕ
  map : ℕ → BitVec 32

/-- The mask of the bit at `offset` of a word. -/
def mask (offset : ℕ) : BitVec 32 := 1#32 <<< offset

/-- `bitmap_create`, when there is memory for it. -/
def bitmapCreate (nbits : ℕ) : Except Fault Bitmap :=
  if nbits ≠ 0 ∧ nbits < (nbits + wordBits) % 2 ^ 32 then
    let nwords := (nbits + wordBits - 1) / wordBits
    let map : ℕ → BitVec 32 := fun _ => 0xFFFFFFFF#32
    if nbits ≠ nwords * wordBits then
      let ix := nwords - 1
      let overbits := nbits - ix * wordBits
      if nbits / wordBits = ix ∧ 0 < overbits ∧ overbits < wordBits then
        .ok ⟨nbits, nwords, update map ix
          ((List.range' overbits (wordBits - overbits)).foldl (fun word o => word ^^^ mask o) (map ix))⟩
      else .error .assertion
    else .ok ⟨nbits, nwords, map⟩
  else .error .assertion

/-- The outer loop of `bitmap_alloc`: the first word from `ix` on that is not 0. -/
def findWord (map : ℕ → BitVec 32) : ℕ → ℕ → Option ℕ
  | 0, _ => none
  | left + 1, ix => if map ix ≠ 0#32 then some ix else findWord map left (ix + 1)

/-- The inner loop of `bitmap_alloc`: the first bit from `offset` on that is set. -/
def findBit (word : BitVec 32) : ℕ → ℕ → Option ℕ
  | 0, _ => none
  | left + 1, offset =>
    if word &&& mask offset ≠ 0#32 then some offset else findBit word left (offset + 1)

/-- `bitmap_alloc`. -/
def bitmapAlloc : Kernel Fault Bitmap ℕ := do
  let bitmap ← get
  match findWord bitmap.map bitmap.nwords 0 with
  | none => fail (-eNoMem)
  | some ix =>
    match findBit (bitmap.map ix) wordBits 0 with
    | none => stop .assertion
    | some offset =>
      modify fun bitmap =>
        { bitmap with map := update bitmap.map ix (bitmap.map ix ^^^ mask offset) }
      pure (ix * wordBits + offset)

/-- `bitmap_test`, with the word and the mask of `bitmap_translate`. -/
def bitmapTest (index : ℕ) : Kernel Fault Bitmap Bool := do
  let bitmap ← get
  require (index < bitmap.nbits) .assertion
  pure (bitmap.map (index / wordBits) &&& mask (index % wordBits) ≠ 0#32)

/-- `bitmap_free`, with the word and the mask of `bitmap_translate`. -/
def bitmapFree (index : ℕ) : Kernel Fault Bitmap Unit := do
  let bitmap ← get
  require (index < bitmap.nbits) .assertion
  require (bitmap.map (index / wordBits) &&& mask (index % wordBits) = 0#32) .assertion
  let word := bitmap.map (index / wordBits) ||| mask (index % wordBits)
  modify fun bitmap => { bitmap with map := update bitmap.map (index / wordBits) word }

/-! ## The bits -/

variable {bitmap : Bitmap} {i j ix offset left : ℕ} {word : BitVec 32} {map : ℕ → BitVec 32}

/-- The bit of a block. -/
def Bitmap.bit (bitmap : Bitmap) (i : ℕ) : Bool :=
  (bitmap.map (i / wordBits)).getLsbD (i % wordBits)

theorem getLsbD_mask (offset i : ℕ) : (mask offset).getLsbD i = decide (i < 32 ∧ i = offset) := by
  by_cases inside : i < 32
  · by_cases same : i = offset
    · subst same
      simp [mask, inside]
    · by_cases below : i < offset
      · simp [mask, inside, below, same]
      · have positive : i - offset ≠ 0 := by omega
        simp [mask, inside, below, same, positive]
  · simp [mask, inside]

/-- A word and a mask have something in common when the word has the bit. -/
theorem and_mask_ne_zero (inside : offset < 32) :
    word &&& mask offset ≠ 0#32 ↔ word.getLsbD offset = true := by
  constructor
  · intro nonzero
    by_contra clear
    apply nonzero
    apply BitVec.eq_of_getLsbD_eq
    intro i below
    by_cases same : i = offset
    · subst same
      simp [BitVec.getLsbD_and, eq_false_of_ne_true clear]
    · simp [BitVec.getLsbD_and, getLsbD_mask, same]
  · intro set zero
    have bits := congrArg (fun w => BitVec.getLsbD w offset) zero
    simp only [BitVec.getLsbD_and, set, getLsbD_mask, inside, BitVec.getLsbD_zero] at bits
    simp at bits

theorem and_mask_eq_zero (inside : offset < 32) :
    word &&& mask offset = 0#32 ↔ word.getLsbD offset = false := by
  have nonzero := @and_mask_ne_zero offset word inside
  cases set : word.getLsbD offset with
  | false => simpa [set] using nonzero
  | true => simpa [set] using nonzero

/-- The bits of a map in which one word has changed in one bit. -/
theorem bit_update (i : ℕ) (value : Bool) (changed : word.getLsbD (i % wordBits) = value)
    (kept : ∀ offset < 32, offset ≠ i % wordBits →
      word.getLsbD offset = (bitmap.map (i / wordBits)).getLsbD offset) (j : ℕ) :
    Bitmap.bit { bitmap with map := update bitmap.map (i / wordBits) word } j =
      if j = i then value else bitmap.bit j := by
  simp only [Bitmap.bit]
  by_cases home : j / wordBits = i / wordBits
  · rw [home, update_self]
    by_cases same : j = i
    · subst same
      rw [if_pos rfl, changed]
    · have differs : j % wordBits ≠ i % wordBits := by
        unfold wordBits at *
        omega
      rw [if_neg same]
      exact kept _ (Nat.mod_lt _ (by decide)) differs
  · have other : j ≠ i := by
      rintro rfl
      exact home rfl
    rw [update_of_ne home, if_neg other]

/-- The loops of `bitmap_alloc` are searches through a range. -/
theorem findWord_eq : findWord map left ix = (List.range' ix left).find? fun j => map j ≠ 0#32 := by
  induction left generalizing ix with
  | zero => rfl
  | succ left ih =>
    rw [findWord, ih, List.range'_succ, List.find?_cons]
    split <;> simp_all

theorem findBit_eq :
    findBit word left offset = (List.range' offset left).find? fun j => word &&& mask j ≠ 0#32 := by
  induction left generalizing offset with
  | zero => rfl
  | succ left ih =>
    rw [findBit, ih, List.range'_succ, List.find?_cons]
    split <;> simp_all

theorem findBit_some (found : findBit word wordBits 0 = some i) :
    i < 32 ∧ word.getLsbD i = true ∧ ∀ j < i, word.getLsbD j = false := by
  rw [findBit_eq, List.find?_range'_eq_some, List.mem_range'_1, decide_eq_true_iff] at found
  obtain ⟨set, ⟨-, small⟩, before⟩ := found
  have inside : i < 32 := by simpa [wordBits] using small
  refine ⟨inside, (and_mask_ne_zero inside).mp set, fun j low => ?_⟩
  rw [← and_mask_eq_zero (low.trans inside)]
  simpa using before j (Nat.zero_le j) low

theorem findWord_some (found : findWord map left 0 = some i) :
    i < left ∧ map i ≠ 0#32 ∧ ∀ j < i, map j = 0#32 := by
  rw [findWord_eq, List.find?_range'_eq_some, List.mem_range'_1, decide_eq_true_iff] at found
  obtain ⟨nonzero, ⟨-, below⟩, before⟩ := found
  exact ⟨by omega, nonzero, fun j low => by simpa using before j (Nat.zero_le j) low⟩

/-! ## What the functions do to the bits -/

theorem bitmapTest_run (inside : i < bitmap.nbits) :
    bitmapTest i bitmap = .ok (bitmap.bit i) bitmap := by
  rw [bitmapTest, get_bind_run, require_bind_run inside, pure_run]
  have small : i % wordBits < 32 := Nat.mod_lt _ (by decide)
  congr 1
  rw [Bool.eq_iff_iff, decide_eq_true_iff]
  exact and_mask_ne_zero small

theorem bitmapFree_run (inside : i < bitmap.nbits) (used : bitmap.bit i = false) :
    ∃ bitmap', bitmapFree i bitmap = .ok () bitmap' ∧ bitmap'.nbits = bitmap.nbits ∧
      bitmap'.nwords = bitmap.nwords ∧ ∀ j, bitmap'.bit j = if j = i then true else bitmap.bit j := by
  have small : i % wordBits < 32 := Nat.mod_lt _ (by decide)
  have ran : bitmapFree i bitmap = .ok () { bitmap with
      map := update bitmap.map (i / wordBits)
        (bitmap.map (i / wordBits) ||| mask (i % wordBits)) } := by
    rw [bitmapFree, get_bind_run, require_bind_run inside,
      require_bind_run ((and_mask_eq_zero small).mpr used), modify_run]
  refine ⟨_, ran, rfl, rfl, ?_⟩
  · intro j
    refine bit_update i true ?_ ?_ j
    · simp [getLsbD_mask, small]
    · intro offset _ differs
      simp [BitVec.getLsbD_or, getLsbD_mask, differs]

/-- `bitmap_alloc` takes the first bit that is set; it fails when there is none. -/
theorem bitmapAlloc_cases (bitmap : Bitmap) :
    (∃ i bitmap', bitmapAlloc bitmap = .ok i bitmap' ∧ i < bitmap.nwords * wordBits ∧
        bitmap.bit i = true ∧ (∀ j < i, bitmap.bit j = false) ∧ bitmap'.nbits = bitmap.nbits ∧
        bitmap'.nwords = bitmap.nwords ∧
        ∀ j, bitmap'.bit j = if j = i then false else bitmap.bit j) ∨
      (bitmapAlloc bitmap = .err (-eNoMem) bitmap ∧
        ∀ i < bitmap.nwords * wordBits, bitmap.bit i = false) := by
  unfold bitmapAlloc
  rw [get_bind_run]
  cases words : findWord bitmap.map bitmap.nwords 0 with
  | none =>
    right
    refine ⟨rfl, ?_⟩
    intro i inside
    rw [findWord_eq, List.find?_range'_eq_none] at words
    have zero := words (i / wordBits) (Nat.zero_le _) (by
      unfold wordBits at *
      omega)
    simp_all [Bitmap.bit]
  | some ix =>
    obtain ⟨below, nonzero, before⟩ := findWord_some words
    cases bits : findBit (bitmap.map ix) wordBits 0 with
    | none =>
      exfalso
      apply nonzero
      apply BitVec.eq_of_getLsbD_eq
      intro i inside
      rw [findBit_eq, List.find?_range'_eq_none] at bits
      rw [(and_mask_eq_zero inside).mp (by simpa using bits i (Nat.zero_le i) (by simpa [wordBits]))]
      simp
    | some offset =>
      obtain ⟨small, set, lower⟩ := findBit_some bits
      have word : (ix * wordBits + offset) / wordBits = ix := by
        unfold wordBits at *
        omega
      have place : (ix * wordBits + offset) % wordBits = offset := by
        unfold wordBits at *
        omega
      left
      refine ⟨ix * wordBits + offset, { bitmap with
        map := update bitmap.map ix (bitmap.map ix ^^^ mask offset) }, ?_, ?_, ?_, ?_, rfl, rfl, ?_⟩
      · simp only [bits]
        rfl
      · unfold wordBits at *
        omega
      · rw [Bitmap.bit, word, place, set]
      · intro j low
        by_cases home : j / wordBits = ix
        · rw [Bitmap.bit, home]
          apply lower
          unfold wordBits at *
          omega
        · have zero := before (j / wordBits) (by
            unfold wordBits at *
            omega)
          simp [Bitmap.bit, zero]
      · intro j
        have changed := @bit_update bitmap (bitmap.map ix ^^^ mask offset) (ix * wordBits + offset) false
        rw [word, place] at changed
        refine changed ?_ ?_ j
        · rw [BitVec.getLsbD_xor, set, getLsbD_mask]
          simp [small]
        · intro other _ differs
          simp [BitVec.getLsbD_xor, getLsbD_mask, differs]

/-! ## The free map as a set -/

variable {n : ℕ} {free : Finset ℕ}

/-- The marking loop of `bitmap_create` flips the bits from `i` on. -/
theorem getLsbD_flips (word : BitVec 32) (i count j : ℕ) :
    ((List.range' i count).foldl (fun word o => word ^^^ mask o) word).getLsbD j =
      (word.getLsbD j ^^ decide (j < 32 ∧ i ≤ j ∧ j < i + count)) := by
  induction count generalizing word i with
  | zero => simp [show ¬ (i ≤ j ∧ j < i) by omega]
  | succ count ih =>
    rw [List.range'_succ, List.foldl_cons, ih, BitVec.getLsbD_xor, getLsbD_mask]
    by_cases here : j = i
    · simp [here]
    · simp [here, show i + 1 ≤ j ↔ i ≤ j by omega, show i + 1 + count = i + (count + 1) by omega]

/-- The set bits are those of the free indices, which are below `nbits`. -/
structure Bitmap.Marks (bitmap : Bitmap) (n : ℕ) (free : Finset ℕ) : Prop where
  nbits : bitmap.nbits = n
  room : n ≤ bitmap.nwords * wordBits
  bit : ∀ i < bitmap.nwords * wordBits, bitmap.bit i = decide (i ∈ free)
  below : ∀ i ∈ free, i < n

theorem bitmapCreate_marks (positive : 0 < n) (small : n + wordBits < 2 ^ 32) :
    ∃ bitmap, bitmapCreate n = .ok bitmap ∧ bitmap.Marks n (.range n) := by
  have ones : ∀ j < 32, (0xFFFFFFFF#32).getLsbD j = true := by decide
  have low : ∀ j, j % wordBits < 32 := fun j => Nat.mod_lt j (by decide)
  unfold bitmapCreate
  rw [if_pos ⟨positive.ne', by rw [Nat.mod_eq_of_lt small]; exact Nat.lt_add_of_pos_right (by decide)⟩]
  by_cases whole : n = (n + wordBits - 1) / wordBits * wordBits
  · refine ⟨_, if_neg (not_not.mpr whole), rfl, whole.le, fun j inside => ?_, fun j => Finset.mem_range.mp⟩
    rw [Bitmap.bit, ones _ (low j)]
    exact (decide_eq_true (Finset.mem_range.mpr (inside.trans_eq whole.symm))).symm
  · have last : n / wordBits = (n + wordBits - 1) / wordBits - 1 ∧
        0 < n - ((n + wordBits - 1) / wordBits - 1) * wordBits ∧
        n - ((n + wordBits - 1) / wordBits - 1) * wordBits < wordBits := by
      unfold wordBits at *
      omega
    refine ⟨_, (if_pos whole).trans (if_pos last), rfl, ?_, fun j inside => ?_, fun j => Finset.mem_range.mp⟩
    · unfold wordBits
      dsimp only
      omega
    · dsimp only at inside
      rw [Bitmap.bit]
      dsimp only
      rw [← last.1]
      by_cases home : j / wordBits = n / wordBits
      · rw [home, update_self, getLsbD_flips, ones _ (low j), Bool.eq_iff_iff]
        simp only [Bool.true_xor, Bool.not_eq_true', decide_eq_false_iff_not, decide_eq_true_iff,
          Finset.mem_range]
        unfold wordBits at *
        omega
      · rw [update_of_ne home, ones _ (low j)]
        symm
        rw [decide_eq_true_iff, Finset.mem_range]
        unfold wordBits at *
        omega

/-- Histories of a bitmap of `n` bits, with the indices that are free. -/
inductive BitmapRun (n : ℕ) : Bitmap → Finset ℕ → Prop
  | create {bitmap : Bitmap} (ran : bitmapCreate n = .ok bitmap) : BitmapRun n bitmap (.range n)
  | alloc {bitmap bitmap' : Bitmap} {free : Finset ℕ} {i : ℕ} (run : BitmapRun n bitmap free)
      (ran : bitmapAlloc bitmap = .ok i bitmap') : BitmapRun n bitmap' (free.erase i)
  | full {bitmap bitmap' : Bitmap} {free : Finset ℕ} {e : ℤ} (run : BitmapRun n bitmap free)
      (ran : bitmapAlloc bitmap = .err e bitmap') : BitmapRun n bitmap' free
  | test {bitmap bitmap' : Bitmap} {free : Finset ℕ} {i : ℕ} {set : Bool} (run : BitmapRun n bitmap free)
      (inside : i < n) (ran : bitmapTest i bitmap = .ok set bitmap') : BitmapRun n bitmap' free
  | free {bitmap bitmap' : Bitmap} {free : Finset ℕ} {i : ℕ} (run : BitmapRun n bitmap free)
      (inside : i < n) (used : i ∉ free) (ran : bitmapFree i bitmap = .ok () bitmap') :
      BitmapRun n bitmap' (insert i free)

namespace Bitmap.Marks

variable (marks : bitmap.Marks n free)
include marks

theorem inside (below : i < n) : bitmap.bit i = decide (i ∈ free) :=
  marks.bit i (below.trans_le marks.room)

theorem test (below : i < n) : bitmapTest i bitmap = .ok (decide (i ∈ free)) bitmap := by
  rw [bitmapTest_run (marks.nbits ▸ below), marks.inside below]

theorem alloc :
    (∃ i bitmap', bitmapAlloc bitmap = .ok i bitmap' ∧ (i ∈ free ∧ ∀ j ∈ free, i ≤ j) ∧
        bitmap'.Marks n (free.erase i)) ∨
      free = ∅ ∧ bitmapAlloc bitmap = .err (-eNoMem) bitmap := by
  have known : ∀ i ∈ free, bitmap.bit i = true := fun i member =>
    (marks.inside (marks.below i member)).trans (decide_eq_true member)
  rcases bitmapAlloc_cases bitmap with ⟨i, bitmap', ran, room, set, before, nbits, nwords, bits⟩ | ⟨ran, none⟩
  · refine .inl ⟨i, bitmap', ran, ⟨?_, fun j member => ?_⟩, nbits.trans marks.nbits, ?_, fun j inside => ?_, ?_⟩
    · rwa [marks.bit i room, decide_eq_true_iff] at set
    · by_contra! less
      cases (known j member).symm.trans (before j less)
    · rw [nwords]
      exact marks.room
    · rw [nwords] at inside
      rw [bits, marks.bit j inside]
      by_cases same : j = i <;> simp [same]
    · exact fun j member => marks.below j (Finset.mem_of_mem_erase member)
  · refine .inr ⟨Finset.eq_empty_of_forall_notMem fun i member => ?_, ran⟩
    have clear := none i ((marks.below i member).trans_le marks.room)
    rw [known i member] at clear
    cases clear

theorem release (below : i < n) (used : i ∉ free) :
    ∃ bitmap', bitmapFree i bitmap = .ok () bitmap' ∧ bitmap'.Marks n (insert i free) := by
  obtain ⟨bitmap', ran, nbits, nwords, bits⟩ := bitmapFree_run (marks.nbits ▸ below)
    ((marks.inside below).trans (decide_eq_false used))
  refine ⟨bitmap', ran, nbits.trans marks.nbits, ?_, fun j inside => ?_, ?_⟩
  · rw [nwords]
    exact marks.room
  · rw [nwords] at inside
    rw [bits, marks.bit j inside]
    by_cases same : j = i <;> simp [same]
  · exact (Finset.forall_mem_insert _ _ _).mpr ⟨below, marks.below⟩

end Bitmap.Marks

section Runs

variable (positive : 0 < n) (small : n + wordBits < 2 ^ 32)
include positive small

theorem BitmapRun.marks (run : BitmapRun n bitmap free) : bitmap.Marks n free := by
  induction run with
  | create ran =>
    obtain ⟨bitmap, made, marks⟩ := bitmapCreate_marks positive small
    rw [made] at ran
    cases ran
    exact marks
  | alloc _ ran ih =>
    rcases ih.alloc with ⟨i, bitmap', taken, -, marks⟩ | ⟨-, none⟩
    · cases taken.symm.trans ran
      exact marks
    · cases none.symm.trans ran
  | full _ ran ih =>
    rcases ih.alloc with ⟨i, bitmap', taken, -⟩ | ⟨-, none⟩
    · cases taken.symm.trans ran
    · cases none.symm.trans ran
      exact ih
  | test _ inside ran ih =>
    cases (ih.test inside).symm.trans ran
    exact ih
  | free _ inside used ran ih =>
    obtain ⟨bitmap', freed, marks⟩ := ih.release inside used
    cases freed.symm.trans ran
    exact marks

/-- The bitmap is the set of its free indices. -/
theorem bitmap_is_set : (∃ bitmap, bitmapCreate n = .ok bitmap) ∧ ∀ bitmap free, BitmapRun n bitmap free →
    (∀ i ∈ free, i < n) ∧ (∀ i < n, bitmapTest i bitmap = .ok (decide (i ∈ free)) bitmap) ∧
    ((∃ i bitmap', bitmapAlloc bitmap = .ok i bitmap' ∧ i ∈ free ∧ ∀ j ∈ free, i ≤ j) ∨
      free = ∅ ∧ bitmapAlloc bitmap = .err (-eNoMem) bitmap) ∧
    ∀ i < n, i ∉ free → ∃ bitmap', bitmapFree i bitmap = .ok () bitmap' := by
  obtain ⟨bitmap, made, -⟩ := bitmapCreate_marks positive small
  refine ⟨⟨bitmap, made⟩, fun bitmap free run => ?_⟩
  have marks := run.marks positive small
  refine ⟨marks.below, fun i => marks.test, ?_, fun i below used => ?_⟩
  · rcases marks.alloc with ⟨i, bitmap', ran, least, -⟩ | none
    · exact .inl ⟨i, bitmap', ran, least⟩
    · exact .inr none
  · obtain ⟨bitmap', ran, -⟩ := marks.release below used
    exact ⟨bitmap', ran⟩

end Runs

/-- Of 40 indices, in two words, the first two are taken; index 0 is freed and taken
again, as the least one. -/
theorem bitmap_is_set_reused : ∃ bitmap,
    BitmapRun 40 bitmap ((insert 0 (((Finset.range 40).erase 0).erase 1)).erase 0) ∧
      bitmapTest 0 bitmap = .ok false bitmap ∧ bitmapTest 39 bitmap = .ok true bitmap := by
  have made : BitmapRun 40 _ _ := .create rfl
  have taken := (made.alloc (i := 0) rfl).alloc (i := 1) rfl
  have reused := (taken.free (i := 0) (by decide) (by decide) rfl).alloc (i := 0) rfl
  obtain ⟨-, tests, -⟩ := (bitmap_is_set (by decide) (by decide)).2 _ _ reused
  exact ⟨_, reused, tests 0 (by decide), tests 39 (by decide)⟩

end LiNos.Fs
