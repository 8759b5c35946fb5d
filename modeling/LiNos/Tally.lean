import Mathlib.Data.Finset.Card
import Mathlib.Algebra.Order.Ring.Nat

/-!
How often a partial map takes a value.

`tally keys view b` counts the keys of a finite set that `view` sends to `b`.
Changing the map at one key moves one unit at most, from the old value to the
new one; a reference count that is moved along stays the tally.
-/

namespace LiNos.Tally

open Function Finset

variable {α β : Type*} [DecidableEq β] {keys : Finset α} {view view' : α → Option β} {x : α} {b : β}

/-- The number of keys that are mapped to `b`. -/
def tally (keys : Finset α) (view : α → Option β) (b : β) : ℕ :=
  (keys.filter fun x => view x = some b).card

theorem tally_congr (same : ∀ x ∈ keys, view' x = view x) : tally keys view' b = tally keys view b := by
  unfold tally
  congr 1
  exact filter_congr fun x member => by rw [same x member]

/-- Keys that are not mapped to `b` do not count. -/
theorem tally_subset {keys' : Finset α} (subset : keys' ⊆ keys)
    (never : ∀ x ∈ keys, x ∉ keys' → view x ≠ some b) : tally keys' view b = tally keys view b := by
  unfold tally
  congr 1
  ext x
  simp only [mem_filter]
  constructor
  · exact fun ⟨member, here⟩ => ⟨subset member, here⟩
  · intro ⟨member, here⟩
    refine ⟨?_, here⟩
    by_contra outside
    exact never x member outside here

theorem tally_pos_iff : 0 < tally keys view b ↔ ∃ x ∈ keys, view x = some b := by
  simp only [tally, card_pos, Finset.Nonempty, mem_filter]

theorem tally_eq_zero_iff : tally keys view b = 0 ↔ ∀ x ∈ keys, view x ≠ some b := by
  simp only [tally, card_eq_zero, filter_eq_empty_iff, ne_eq]

/-- A value taken once is taken at one key. -/
theorem tally_eq_one_unique (once : tally keys view b = 1) {y : α} (left : x ∈ keys)
    (here : view x = some b) (right : y ∈ keys) (there : view y = some b) : x = y := by
  obtain ⟨z, only⟩ := card_eq_one.mp once
  have first : x ∈ keys.filter fun x => view x = some b := mem_filter.mpr ⟨left, here⟩
  have second : y ∈ keys.filter fun x => view x = some b := mem_filter.mpr ⟨right, there⟩
  rw [only, mem_singleton] at first second
  exact first.trans second.symm

theorem tally_eq_one (member : x ∈ keys) (here : view x = some b)
    (only : ∀ y ∈ keys, view y = some b → y = x) : tally keys view b = 1 := by
  refine card_eq_one.mpr ⟨x, ?_⟩
  ext y
  rw [mem_filter, mem_singleton]
  constructor
  · exact fun ⟨inside, there⟩ => only y inside there
  · rintro rfl
    exact ⟨member, here⟩

variable [DecidableEq α]

/-- The keys apart from `x` count as before. -/
theorem tally_split (view : α → Option β) (member : x ∈ keys) :
    tally keys view b = tally (keys.erase x) view b + if view x = some b then 1 else 0 := by
  unfold tally
  nth_rewrite 1 [← insert_erase member]
  rw [filter_insert]
  split
  · rw [card_insert_of_notMem (by simp)]
  · rfl

/-- Changing the value at one key. -/
theorem tally_change (member : x ∈ keys) (same : ∀ y ∈ keys, y ≠ x → view' y = view y) :
    tally keys view' b + (if view x = some b then 1 else 0) =
      tally keys view b + if view' x = some b then 1 else 0 := by
  have others : tally (keys.erase x) view' b = tally (keys.erase x) view b :=
    tally_congr fun y inside => same y (mem_of_mem_erase inside) (ne_of_mem_erase inside)
  rw [tally_split view' member, tally_split view member, others]
  omega

/-- Keys that stop being mapped count no more. -/
theorem tally_drop {part : Finset α} (subset : part ⊆ keys) (gone : ∀ x ∈ part, view' x = none)
    (kept : ∀ x ∈ keys, x ∉ part → view' x = view x) :
    tally keys view b = tally keys view' b + tally part view b := by
  have split : (keys.filter fun x => view x = some b) =
      (keys.filter fun x => view' x = some b) ∪ part.filter fun x => view x = some b := by
    ext x
    simp only [mem_union, mem_filter]
    by_cases inside : x ∈ part
    · simp [inside, gone x inside, subset inside]
    · simp only [inside, false_and, or_false]
      exact and_congr_right fun member => by rw [kept x member inside]
  rw [tally, split, card_union_of_disjoint]
  · rfl
  · refine disjoint_left.mpr fun x first second => ?_
    have none := gone x (mem_filter.mp second).1
    simp [none] at first

/-! ## Contributions -/

/-- One where the value is taken. -/
def hit (value : Option β) (b : β) : ℕ := if value = some b then 1 else 0

@[simp] theorem hit_none (b : β) : hit none b = 0 := rfl

@[simp] theorem hit_some (b : β) : hit (some b) b = 1 := if_pos rfl

/-- A tally moves by what one key contributes. -/
theorem tally_move (view view' : α → Option β) (member : x ∈ keys)
    (same : ∀ y, y ≠ x → view' y = view y) (b : β) :
    tally keys view' b + hit (view x) b = tally keys view b + hit (view' x) b :=
  tally_change member fun y _ other => same y other

theorem tally_update {γ : Type*} (view : γ → Option β) (f : α → γ) (v : γ) (member : x ∈ keys) (b : β) :
    tally keys (fun y => view (update f x v y)) b + hit (view (f x)) b =
      tally keys (fun y => view (f y)) b + hit (view v) b := by
  have moved := tally_move (fun y => view (f y)) (fun y => view (update f x v y)) member
    (fun y other => by simp [other]) b
  simpa using moved

end LiNos.Tally
