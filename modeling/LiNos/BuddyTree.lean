import LiNos.Blocks
import LiNos.Bits
import Mathlib.Tactic.Ring

/-!
Buddy trees: blocks of power-of-two length, halved again and again.

A cell is one of the places that the numbers below `2 ^ H` fall into at some
height. A tree says for every cell that is not halved further whether it is
free, used or out of range. The cells are numbered as in a heap: the root is
1, the halves of cell `a` are `2a` and `2a + 1`.

A `Path` leads from a cell back to the root, nearest ancestor first, and carries
the trees beside it. An algorithm that walks down to a cell and up again is
followed by a tree in focus and the path around it; `plug` puts the two back
together.
-/

namespace LiNos.BuddyTree

open Blocks Bits List

/-- What a cell that is not halved is used for. -/
inductive Use where
  | free
  | used
  | out
  deriving DecidableEq, Repr

inductive Tree where
  | leaf (use : Use)
  | split (left right : Tree)
  deriving DecidableEq, Repr

/-- The cell at place `r` among those of height `h`. -/
def cell (r h : ℕ) : Block := ⟨r * 2 ^ h, 2 ^ h⟩

/-- The cells of one use, from left to right. -/
def Tree.cells (use : Use) : Tree → ℕ → ℕ → List Block
  | .leaf here, r, h => if here = use then [cell r h] else []
  | .split left right, r, h =>
    left.cells use (2 * r) (h - 1) ++ right.cells use (2 * r + 1) (h - 1)

/-- The join of the lengths of all free cells; a free tree is its own length. -/
def Tree.value : Tree → ℕ → ℕ
  | .leaf .free, h => 2 ^ h
  | .leaf _, _ => 0
  | .split left right, h => left.value (h - 1) ||| right.value (h - 1)

/-- The tree fits the numbers below `size`: a free or used cell lies inside, an
unused one outside, a halved one at least partly inside, and two free halves
would have been merged. -/
def Shaped (size : ℕ) : Tree → ℕ → ℕ → Prop
  | .leaf .out, r, h => size ≤ (cell r h).start
  | .leaf _, r, h => (cell r h).stop ≤ size
  | .split left right, r, h =>
    0 < h ∧ (cell r h).start < size ∧ ¬ (left = .leaf .free ∧ right = .leaf .free) ∧
      Shaped size left (2 * r) (h - 1) ∧ Shaped size right (2 * r + 1) (h - 1)

variable {use kind : Use} {t : Tree} {r h i size a k q : ℕ} {b c : Block} {seg seg' : ℕ → ℕ}

/-! ## Cells -/

@[simp] theorem cell_len (r h : ℕ) : (cell r h).len = 2 ^ h := rfl

/-- The halves of a cell, side by side. -/
theorem cell_halves (r h : ℕ) :
    (cell (2 * r) h).start = (cell r (h + 1)).start ∧
      (cell (2 * r) h).stop = (cell (2 * r + 1) h).start ∧
      (cell (2 * r + 1) h).stop = (cell r (h + 1)).stop := by
  simp only [cell, Block.stop, pow_succ]
  refine ⟨?_, ?_, ?_⟩ <;> ring

theorem within_left (r h : ℕ) : Within (cell (2 * r) h) (cell r (h + 1)) := by
  obtain ⟨start, middle, stop⟩ := cell_halves r h
  refine ⟨start.ge, ?_⟩
  rw [middle, ← stop]
  exact Nat.le_add_right _ _

theorem within_right (r h : ℕ) : Within (cell (2 * r + 1) h) (cell r (h + 1)) := by
  obtain ⟨start, middle, stop⟩ := cell_halves r h
  refine ⟨?_, stop.le⟩
  rw [← start, ← middle]
  exact Nat.le_add_right _ _

theorem halves_beside (r h : ℕ) : Beside (cell (2 * r) h) (cell (2 * r + 1) h) :=
  .inl (cell_halves r h).2.1.le

/-! ## The cells of a tree -/

/-- Following a shaped tree down, with the height of its halves. -/
@[elab_as_elim] theorem Shaped.descend {motive : ∀ t r h, Shaped size t r h → Prop}
    (leaf : ∀ use r h (shaped : Shaped size (.leaf use) r h), motive (.leaf use) r h shaped)
    (split : ∀ left right r h (shaped : Shaped size (.split left right) r (h + 1))
      (shapedLeft : Shaped size left (2 * r) h) (shapedRight : Shaped size right (2 * r + 1) h),
      motive left (2 * r) h shapedLeft → motive right (2 * r + 1) h shapedRight →
      motive (.split left right) r (h + 1) shaped)
    (shaped : Shaped size t r h) : motive t r h shaped := by
  induction t generalizing r h with
  | leaf use => exact leaf use r h shaped
  | split left right ihLeft ihRight =>
    obtain ⟨h, rfl⟩ : ∃ k, h = k + 1 := ⟨h - 1, by have := shaped.1; omega⟩
    exact split left right r h shaped shaped.2.2.2.1 shaped.2.2.2.2 (ihLeft _) (ihRight _)

theorem mem_leaf {here : Use} : b ∈ (Tree.leaf here).cells use r h ↔ here = use ∧ b = cell r h := by
  unfold Tree.cells
  split_ifs with same <;> simp [same]

theorem cells_within (shaped : Shaped size t r h) (member : b ∈ t.cells use r h) :
    Within b (cell r h) := by
  induction shaped using Shaped.descend with
  | leaf use r h =>
    obtain ⟨-, rfl⟩ := mem_leaf.mp member
    exact ⟨Nat.le_refl _, Nat.le_refl _⟩
  | split left right r h _ _ _ ihLeft ihRight =>
    rcases mem_append.mp member with member | member
    · exact (ihLeft member).trans (within_left r h)
    · exact (ihRight member).trans (within_right r h)

/-- Every cell has power-of-two length and is aligned to it. -/
theorem cells_aligned (member : b ∈ t.cells use r h) :
    ∃ k place, b = cell place k ∧ k ≤ h := by
  induction t generalizing r h with
  | leaf here => exact ⟨h, r, (mem_leaf.mp member).2, Nat.le_refl _⟩
  | split left right ihLeft ihRight =>
    rcases mem_append.mp member with member | member
    · obtain ⟨k, place, same, low⟩ := ihLeft member
      exact ⟨k, place, same, by omega⟩
    · obtain ⟨k, place, same, low⟩ := ihRight member
      exact ⟨k, place, same, by omega⟩

/-- Free and used cells lie below the size. -/
theorem cells_stop_le (shaped : Shaped size t r h) (inside : use ≠ .out)
    (member : b ∈ t.cells use r h) : b.stop ≤ size := by
  induction shaped using Shaped.descend with
  | leaf here r h shaped =>
    obtain ⟨rfl, rfl⟩ := mem_leaf.mp member
    cases here with
    | free => exact shaped
    | used => exact shaped
    | out => exact absurd rfl inside
  | split left right r h _ _ _ ihLeft ihRight =>
    exact (mem_append.mp member).elim ihLeft ihRight

/-- Cells of the two halves do not overlap. -/
theorem cells_apart {left right : Tree} (shapedLeft : Shaped size left (2 * r) h)
    (shapedRight : Shaped size right (2 * r + 1) h) (inLeft : b ∈ left.cells use (2 * r) h)
    (inRight : c ∈ right.cells kind (2 * r + 1) h) : Beside b c :=
  have apart := (halves_beside r h).within (cells_within shapedLeft inLeft)
  (apart.symm.within (cells_within shapedRight inRight)).symm

/-- Cells of one use do not overlap. -/
theorem cells_pairwise (shaped : Shaped size t r h) : (t.cells use r h).Pairwise Beside := by
  induction shaped using Shaped.descend with
  | leaf here =>
    unfold Tree.cells
    split
    · exact pairwise_singleton _ _
    · exact List.Pairwise.nil
  | split left right r h _ shapedLeft shapedRight ihLeft ihRight =>
    refine pairwise_append.mpr ⟨ihLeft, ihRight, fun b inLeft c inRight => ?_⟩
    exact cells_apart shapedLeft shapedRight inLeft inRight

/-- Cells of different uses do not overlap either. -/
theorem cells_beside (shaped : Shaped size t r h) (differ : use ≠ kind)
    (first : b ∈ t.cells use r h) (second : c ∈ t.cells kind r h) : Beside b c := by
  induction shaped using Shaped.descend with
  | leaf here => exact absurd ((mem_leaf.mp first).1.symm.trans (mem_leaf.mp second).1) differ
  | split left right r h _ shapedLeft shapedRight ihLeft ihRight =>
    rcases mem_append.mp first with first | first <;>
      rcases mem_append.mp second with second | second
    · exact ihLeft first second
    · exact cells_apart shapedLeft shapedRight first second
    · exact (cells_apart shapedLeft shapedRight second first).symm
    · exact ihRight first second

/-- Nothing below the size is lost. -/
theorem cells_cover (shaped : Shaped size t r h) (inside : (cell r h).Covers i) (below : i < size) :
    Covered (t.cells .free r h) i ∨ Covered (t.cells .used r h) i := by
  induction shaped using Shaped.descend with
  | leaf here r h shaped =>
    cases here with
    | free => exact .inl (by simpa [Tree.cells] using inside)
    | used => exact .inr (by simpa [Tree.cells] using inside)
    | out =>
      have above : size ≤ (cell r h).start := shaped
      exact absurd (above.trans inside.1) (Nat.not_le.mpr below)
  | split left right r h _ _ _ ihLeft ihRight =>
    obtain ⟨start, middle, stop⟩ := cell_halves r h
    simp only [Tree.cells, Nat.add_sub_cancel, covered_append]
    by_cases low : i < (cell (2 * r) h).stop
    · rcases ihLeft ⟨start ▸ inside.1, low⟩ with found | found <;> simp [found]
    · rcases ihRight ⟨middle ▸ Nat.not_lt.mp low, stop ▸ inside.2⟩ with found | found <;>
        simp [found]

/-- A whole cell can only be listed by a leaf. -/
theorem cells_full (shaped : Shaped size t r h) (member : cell r h ∈ t.cells use r h) :
    t = .leaf use := by
  cases shaped using Shaped.descend with
  | leaf here => rw [(mem_leaf.mp member).1]
  | split left right r h _ shapedLeft shapedRight =>
    have width := Nat.two_pow_pos h
    rcases mem_append.mp member with member | member
    · have inner := cells_within shapedLeft member
      simp only [Within, cell, Block.stop, pow_succ] at inner
      omega
    · have inner := cells_within shapedRight member
      simp only [Within, cell, Block.stop, pow_succ] at inner
      omega

/-- The boundary between two halves determines their height and place. -/
theorem boundary_unique {j : ℕ} (low : k ≤ j)
    (same : (2 * q + 1) * 2 ^ k = (2 * r + 1) * 2 ^ j) : k = j ∧ q = r := by
  obtain ⟨e, rfl⟩ := Nat.exists_eq_add_of_le low
  rw [pow_add, Nat.mul_comm (2 ^ k), ← Nat.mul_assoc] at same
  have odd := Nat.eq_of_mul_eq_mul_right (Nat.two_pow_pos k) same
  cases e with
  | zero =>
    rw [pow_zero, Nat.mul_one] at odd
    omega
  | succ e =>
    rw [pow_succ, ← Nat.mul_assoc] at odd
    omega

/-- Two halves of one cell are never both free. -/
theorem not_both_free (shaped : Shaped size t r h)
    (left : cell (2 * q) k ∈ t.cells .free r h) : cell (2 * q + 1) k ∉ t.cells .free r h := by
  intro right
  obtain ⟨-, touch, -⟩ := cell_halves q k
  have width := Nat.two_pow_pos k
  have start : (cell (2 * q) k).start + 2 ^ k = (cell (2 * q) k).stop := rfl
  have stop : (cell (2 * q + 1) k).start + 2 ^ k = (cell (2 * q + 1) k).stop := rfl
  induction shaped using Shaped.descend with
  | leaf here =>
    have same := congrArg Block.start ((mem_leaf.mp left).2.trans (mem_leaf.mp right).2.symm)
    omega
  | split first second r h shaped shapedFirst shapedSecond ihFirst ihSecond =>
    obtain ⟨-, middle, -⟩ := cell_halves r h
    rcases mem_append.mp left with inFirst | inSecond <;>
      rcases mem_append.mp right with alsoFirst | alsoSecond
    · exact ihFirst inFirst alsoFirst
    · -- the pair straddles the middle, so it is the pair of halves itself
      have below := (cells_within shapedFirst inFirst).2
      have above := (cells_within shapedSecond alsoSecond).1
      have boundary : (2 * q + 1) * 2 ^ k = (2 * r + 1) * 2 ^ h := by
        change (cell (2 * q + 1) k).start = (cell (2 * r + 1) h).start
        omega
      have low : k ≤ h := by
        obtain ⟨j, place, same, low⟩ := cells_aligned inFirst
        have lengths : 2 ^ k = 2 ^ j := congrArg Block.len same
        rwa [Nat.pow_right_injective (Nat.le_refl 2) lengths]
      obtain ⟨rfl, rfl⟩ := boundary_unique low boundary
      exact shaped.2.2.1 ⟨cells_full shapedFirst inFirst, cells_full shapedSecond alsoSecond⟩
    · have above := (cells_within shapedSecond inSecond).1
      have below := (cells_within shapedFirst alsoFirst).2
      omega
    · exact ihSecond inSecond alsoSecond

/-! ## Values -/

theorem value_le (t : Tree) (h : ℕ) : t.value h ≤ 2 ^ h := by
  induction t generalizing h with
  | leaf here => cases here <;> simp [Tree.value]
  | split left right ihLeft ihRight =>
    have joined : left.value (h - 1) ||| right.value (h - 1) < 2 ^ (h - 1 + 1) :=
      Nat.or_lt_two_pow (lt_of_le_of_lt (ihLeft _) (Nat.pow_lt_pow_succ Nat.one_lt_two))
        (lt_of_le_of_lt (ihRight _) (Nat.pow_lt_pow_succ Nat.one_lt_two))
    cases h with
    | zero => exact Nat.le_of_lt_succ joined
    | succ h => exact joined.le

theorem value_split_lt (left right : Tree) (h : ℕ) :
    (Tree.split left right).value (h + 1) < 2 ^ (h + 1) :=
  Nat.or_lt_two_pow (lt_of_le_of_lt (value_le left h) (Nat.pow_lt_pow_succ Nat.one_lt_two))
    (lt_of_le_of_lt (value_le right h) (Nat.pow_lt_pow_succ Nat.one_lt_two))

/-- Only a free tree has its full length for a value. -/
theorem value_eq_iff (shaped : Shaped size t r h) : t.value h = 2 ^ h ↔ t = .leaf .free := by
  cases shaped using Shaped.descend with
  | leaf here =>
    have positive : 0 ≠ 2 ^ h := (Nat.two_pow_pos h).ne
    cases here <;> simp [Tree.value, positive]
  | split left right r h => exact iff_of_false (value_split_lt left right h).ne (by simp)

/-- The value says whether some free cell is long enough. -/
theorem le_value_iff : 2 ^ k ≤ t.value h ↔ ∃ b ∈ t.cells .free r h, 2 ^ k ≤ b.len := by
  induction t generalizing r h with
  | leaf here => cases here <;> simp [Tree.value, Tree.cells]
  | split left right ihLeft ihRight =>
    have either : 2 ^ k ≤ left.value (h - 1) ||| right.value (h - 1) ↔
        2 ^ k ≤ left.value (h - 1) ∨ 2 ^ k ≤ right.value (h - 1) :=
      ⟨two_pow_le_or, fun some => some.elim (·.trans Nat.left_le_or) (·.trans Nat.right_le_or)⟩
    rw [Tree.value, either, ihLeft (r := 2 * r), ihRight (r := 2 * r + 1)]
    simp only [Tree.cells, mem_append, or_and_right, exists_or]

/-! ## Trees stored in an array

Entry `a` of the array belongs to cell `a`. What is stored below a cell that is
not halved does not count. -/

def Stored (seg : ℕ → ℕ) : ℕ → Tree → ℕ → Prop
  | a, .leaf use, h => seg a = (Tree.leaf use).value h
  | a, .split left right, h =>
    seg a = seg (2 * a) ||| seg (2 * a + 1) ∧
      Stored seg (2 * a) left (h - 1) ∧ Stored seg (2 * a + 1) right (h - 1)

theorem Stored.value {a : ℕ} (stored : Stored seg a t h) : seg a = t.value h := by
  induction t generalizing a h with
  | leaf use => exact stored
  | split left right ihLeft ihRight =>
    rw [stored.1, ihLeft stored.2.1, ihRight stored.2.2]
    rfl

/-- Cell `i` is `a` or lies somewhere below it. -/
def Under (a i : ℕ) : Prop := ∃ e, i / 2 ^ e = a

theorem under_self (a : ℕ) : Under a a := ⟨0, by simp⟩

theorem Under.half {a b i : ℕ} (half : b / 2 = a) (under : Under b i) : Under a i := by
  obtain ⟨e, same⟩ := under
  refine ⟨e + 1, ?_⟩
  rw [pow_succ, ← Nat.div_div_eq_div_mul, same, half]

theorem Under.left {a i : ℕ} (under : Under (2 * a) i) : Under a i := under.half (by omega)

theorem Under.right {a i : ℕ} (under : Under (2 * a + 1) i) : Under a i := under.half (by omega)

theorem not_under_of_lt (below : i < a) : ¬ Under a i := by
  rintro ⟨e, same⟩
  have low : i / 2 ^ e ≤ i := Nat.div_le_self _ _
  omega

theorem under_disjoint (positive : 0 < a) (first : Under (2 * a) i) :
    ¬ Under (2 * a + 1) i := by
  rintro ⟨f, second⟩
  obtain ⟨e, first⟩ := first
  rcases Nat.lt_trichotomy e f with order | same | order
  · obtain ⟨k, rfl⟩ := Nat.exists_eq_add_of_lt order
    have deeper : i / 2 ^ (e + k + 1) = 2 * a / 2 ^ (k + 1) := by
      rw [Nat.add_assoc, pow_add, ← Nat.div_div_eq_div_mul, first]
    have low := Nat.div_le_self (2 * a) (2 ^ (k + 1))
    omega
  · subst same
    omega
  · obtain ⟨k, rfl⟩ := Nat.exists_eq_add_of_lt order
    have deeper : i / 2 ^ (f + k + 1) = (2 * a + 1) / 2 ^ (k + 1) := by
      rw [Nat.add_assoc, pow_add, ← Nat.div_div_eq_div_mul, second]
    have half : (2 * a + 1) / 2 ^ (k + 1) ≤ a := by
      rw [pow_succ', ← Nat.div_div_eq_div_mul]
      refine (Nat.div_le_self _ _).trans ?_
      omega
    omega

/-- Writes that stay away from a cell and everything below it leave the tree. -/
theorem Stored.congr (stored : Stored seg a t h)
    (same : ∀ i, Under a i → seg' i = seg i) : Stored seg' a t h := by
  induction t generalizing a h with
  | leaf use => exact (same a (under_self a)).trans stored
  | split left right ihLeft ihRight =>
    have inLeft : ∀ i, Under (2 * a) i → seg' i = seg i :=
      fun i under => same i (under.left)
    have inRight : ∀ i, Under (2 * a + 1) i → seg' i = seg i :=
      fun i under => same i (under.right)
    refine ⟨?_, ihLeft stored.2.1 inLeft, ihRight stored.2.2 inRight⟩
    rw [same a (under_self a), inLeft _ (under_self _), inRight _ (under_self _)]
    exact stored.1

/-! ## Paths -/

/-- Which half the focus is. -/
inductive Side where
  | left
  | right
  deriving DecidableEq, Repr

def Side.bit : Side → ℕ
  | .left => 0
  | .right => 1

def Side.other : Side → Side
  | .left => .right
  | .right => .left

/-- One ancestor of the focus: which half the focus is, and the tree of the
other half. -/
structure Frame where
  side : Side
  sibling : Tree
  deriving DecidableEq, Repr

/-- The ancestors of the focus, nearest first. -/
abbrev Path := List Frame

/-- The place of the focus among the cells of its height. -/
def place : Path → ℕ
  | [] => 0
  | frame :: rest => 2 * place rest + frame.side.bit

/-- The number of the focus in the heap order. -/
def index : Path → ℕ
  | [] => 1
  | frame :: rest => 2 * index rest + frame.side.bit

/-- Place and number of the other half. -/
def siblingPlace (frame : Frame) (rest : Path) : ℕ := 2 * place rest + frame.side.other.bit

def siblingIndex (frame : Frame) (rest : Path) : ℕ := 2 * index rest + frame.side.other.bit

/-- The ancestor, with `t` for the half in focus. -/
def Frame.fill (frame : Frame) (t : Tree) : Tree :=
  match frame.side with
  | .left => .split t frame.sibling
  | .right => .split frame.sibling t

/-- The whole tree, with `t` in focus. -/
def plug : Path → Tree → Tree
  | [], t => t
  | frame :: rest, t => plug rest (frame.fill t)

/-- The ancestor after two free halves have been merged. -/
def Frame.merge (frame : Frame) (t : Tree) : Tree :=
  if t = .leaf .free ∧ frame.sibling = .leaf .free then .leaf .free else frame.fill t

/-- The whole tree after merging from the focus up. -/
def mergeAll : Path → Tree → Tree
  | [], t => t
  | frame :: rest, t => mergeAll rest (frame.merge t)

/-- The cells of one use beside the focus; `h` is its height. -/
def aroundCells (use : Use) : Path → ℕ → List Block
  | [], _ => []
  | frame :: rest, h =>
    frame.sibling.cells use (siblingPlace frame rest) h ++ aroundCells use rest (h + 1)

def ShapedAround (size : ℕ) : Path → ℕ → Prop
  | [], _ => True
  | frame :: rest, h =>
    Shaped size frame.sibling (siblingPlace frame rest) h ∧
      (cell (place rest) (h + 1)).start < size ∧ ShapedAround size rest (h + 1)

/-- The trees beside the focus are stored; nothing is said of the ancestors'
own entries. -/
def StoredAround (seg : ℕ → ℕ) : Path → ℕ → Prop
  | [], _ => True
  | frame :: rest, h =>
    Stored seg (siblingIndex frame rest) frame.sibling h ∧ StoredAround seg rest (h + 1)

variable {frame : Frame} {path rest : Path}

theorem height_cons (h : ℕ) (frame : Frame) (rest : Path) :
    h + (frame :: rest).length = h + 1 + rest.length := by
  rw [length_cons]
  omega

theorem place_lt (path : Path) : place path < 2 ^ path.length := by
  induction path with
  | nil => simp [place]
  | cons frame rest ih =>
    cases same : frame.side <;>
      simp only [place, same, Side.bit, length_cons, pow_succ] <;> omega

theorem index_eq (path : Path) : index path = 2 ^ path.length + place path := by
  induction path with
  | nil => simp [index, place]
  | cons frame rest ih =>
    simp only [index, place, ih, length_cons, pow_succ]
    ring

theorem index_pos (path : Path) : 0 < index path := by
  rw [index_eq]
  exact Nat.add_pos_left (Nat.two_pow_pos _) _

theorem index_div_two (frame : Frame) (rest : Path) : index (frame :: rest) / 2 = index rest := by
  cases same : frame.side <;> simp only [index, same, Side.bit] <;> omega

theorem index_ne_one (frame : Frame) (rest : Path) : index (frame :: rest) ≠ 1 := by
  have positive := index_pos rest
  simp only [index]
  omega

theorem index_lt (path : Path) : index path < 2 ^ (path.length + 1) := by
  have bound := place_lt path
  rw [index_eq, pow_succ]
  omega

/-- The focus is a half of the ancestor, beside the other half. -/
theorem cell_place_halves (frame : Frame) (rest : Path) (h : ℕ) :
    Within (cell (place (frame :: rest)) h) (cell (place rest) (h + 1)) ∧
      Beside (cell (siblingPlace frame rest) h) (cell (place (frame :: rest)) h) := by
  obtain ⟨_ | _, sibling⟩ := frame
  · exact ⟨within_left _ h, (halves_beside _ h).symm⟩
  · exact ⟨within_right _ h, halves_beside _ h⟩

theorem fill_cells (use : Use) (frame : Frame) (rest : Path) (t : Tree) (h : ℕ) :
    ((frame.fill t).cells use (place rest) (h + 1)).Perm
      (t.cells use (place (frame :: rest)) h ++
        frame.sibling.cells use (siblingPlace frame rest) h) := by
  obtain ⟨_ | _, sibling⟩ := frame
  · exact .refl _
  · exact perm_append_comm

/-- Moving the focus between an ancestor and one of its halves moves no cell. -/
theorem cells_focus (use : Use) (frame : Frame) (rest : Path) (t : Tree) (h : ℕ) :
    ((frame.fill t).cells use (place rest) (h + 1) ++ aroundCells use rest (h + 1)).Perm
      (t.cells use (place (frame :: rest)) h ++ aroundCells use (frame :: rest) h) := by
  have moved := (fill_cells use frame rest t h).append_right (aroundCells use rest (h + 1))
  rwa [append_assoc] at moved

/-- The cells of the whole tree are those of the focus and those around it. -/
theorem plug_cells (use : Use) (path : Path) (t : Tree) (h : ℕ) :
    ((plug path t).cells use 0 (h + path.length)).Perm
      (t.cells use (place path) h ++ aroundCells use path h) := by
  induction path generalizing t h with
  | nil => simp [plug, place, aroundCells]
  | cons frame rest ih =>
    rw [height_cons]
    exact (ih (frame.fill t) (h + 1)).trans (cells_focus use frame rest t h)

theorem around_beside (shaped : ShapedAround size path h) (member : b ∈ aroundCells use path h) :
    Beside b (cell (place path) h) := by
  induction path generalizing h with
  | nil => cases member
  | cons frame rest ih =>
    obtain ⟨shapedSibling, -, shapedRest⟩ := shaped
    obtain ⟨focusIn, apart⟩ := cell_place_halves frame rest h
    rcases mem_append.mp member with member | member
    · exact apart.within (cells_within shapedSibling member)
    · exact ((ih shapedRest member).symm.within focusIn).symm

theorem cells_len_pos (member : b ∈ t.cells use r h) : 0 < b.len := by
  obtain ⟨k, place, rfl, -⟩ := cells_aligned member
  exact Nat.two_pow_pos k

theorem around_len_pos (member : b ∈ aroundCells use path h) : 0 < b.len := by
  induction path generalizing h with
  | nil => cases member
  | cons frame rest ih =>
    rcases mem_append.mp member with member | member
    · exact cells_len_pos member
    · exact ih member

/-- No cell around the focus starts inside it. -/
theorem around_start_ne (shaped : ShapedAround size path h) (member : b ∈ aroundCells use path h)
    (inside : (cell (place path) h).Covers i) : b.start ≠ i := by
  rintro rfl
  have positive := around_len_pos member
  have own : b.Covers b.start := ⟨Nat.le_refl _, Nat.lt_add_of_pos_right positive⟩
  exact (around_beside shaped member).not_covers own inside

/-- A cell of one use can be brought into focus. -/
theorem exists_focus (path : Path) (member : b ∈ t.cells use (place path) h)
    (shaped : Shaped size t (place path) h) :
    ∃ (inner : Path) (k : ℕ), plug inner (.leaf use) = plug path t ∧ b = cell (place inner) k ∧
      k + inner.length = h + path.length := by
  induction t generalizing path h with
  | leaf here =>
    obtain ⟨rfl, same⟩ := mem_leaf.mp member
    exact ⟨path, h, rfl, same, rfl⟩
  | split left right ihLeft ihRight =>
    obtain ⟨positive, -, -, shapedLeft, shapedRight⟩ := shaped
    rw [← Nat.sub_add_cancel positive, ← height_cons _ ⟨.left, right⟩]
    rcases mem_append.mp member with member | member
    · exact ihLeft (⟨.left, right⟩ :: path) member shapedLeft
    · exact ihRight (⟨.right, left⟩ :: path) member shapedRight

/-! ### Putting shapes together -/

section

variable (focus : Shaped size t (place (frame :: rest)) h)
  (sibling : Shaped size frame.sibling (siblingPlace frame rest) h)
  (partly : (cell (place rest) (h + 1)).start < size)
include focus sibling partly

theorem shaped_fill
    (unmerged : ¬ (t = .leaf .free ∧ frame.sibling = .leaf .free)) :
    Shaped size (frame.fill t) (place rest) (h + 1) := by
  obtain ⟨_ | _, beside⟩ := frame
  · exact ⟨Nat.succ_pos h, partly, unmerged, focus, sibling⟩
  · exact ⟨Nat.succ_pos h, partly, fun both => unmerged both.symm, sibling, focus⟩

theorem shaped_merge :
    Shaped size (frame.merge t) (place rest) (h + 1) := by
  unfold Frame.merge
  split_ifs with both
  · have stop := (cell_halves (place rest) h).2.2
    change (cell (place rest) (h + 1)).stop ≤ size
    rw [← stop]
    rw [both.1] at focus
    rw [both.2] at sibling
    obtain ⟨_ | _, beside⟩ := frame
    · exact sibling
    · exact focus
  · exact shaped_fill focus sibling partly both

end

theorem shaped_mergeAll (focus : Shaped size t (place path) h) (around : ShapedAround size path h) :
    Shaped size (mergeAll path t) 0 (h + path.length) := by
  induction path generalizing t h with
  | nil => exact focus
  | cons frame rest ih =>
    rw [height_cons]
    exact ih (shaped_merge focus around.1 around.2.1) around.2.2

theorem fill_ne_leaf (frame : Frame) (t : Tree) : frame.fill t ≠ .leaf use := by
  unfold Frame.fill
  split <;> simp

/-- A focus that does not merge with the other half stays as it is. -/
theorem mergeAll_eq_plug (unmerged : ∀ frame ∈ path.head?,
      ¬ (t = .leaf .free ∧ frame.sibling = .leaf .free)) : mergeAll path t = plug path t := by
  induction path generalizing t with
  | nil => rfl
  | cons frame rest ih =>
    have filled : frame.merge t = frame.fill t := if_neg (unmerged frame rfl)
    rw [mergeAll, plug, filled]
    exact ih fun _ _ both => fill_ne_leaf frame t both.1

/-- Entering a half that is not merged again changes nothing. -/
theorem mergeAll_fill (unmerged : ¬ (t = .leaf .free ∧ frame.sibling = .leaf .free)) :
    mergeAll (frame :: rest) t = mergeAll rest (frame.fill t) := by
  rw [mergeAll, Frame.merge, if_neg unmerged]

/-- Opening one ancestor. -/
theorem shaped_unfill (shaped : Shaped size (frame.fill t) (place rest) (h + 1)) :
    Shaped size t (place (frame :: rest)) h ∧
      Shaped size frame.sibling (siblingPlace frame rest) h ∧
      (cell (place rest) (h + 1)).start < size := by
  obtain ⟨_ | _, sibling⟩ := frame
  · obtain ⟨-, partly, -, focus, sibling⟩ := shaped
    exact ⟨focus, sibling, partly⟩
  · obtain ⟨-, partly, -, sibling, focus⟩ := shaped
    exact ⟨focus, sibling, partly⟩

/-! ### Putting stored trees together -/

theorem under_sibling (under : Under (siblingIndex frame rest) i) :
    ¬ Under (index (frame :: rest)) i := by
  obtain ⟨_ | _, sibling⟩ := frame
  · exact fun focus => under_disjoint (index_pos rest) focus under
  · exact under_disjoint (index_pos rest) under

theorem Under.up {i : ℕ} (under : Under (index (frame :: rest)) i) : Under (index rest) i := by
  obtain ⟨_ | _, sibling⟩ := frame
  · exact Under.left under
  · exact Under.right under

/-- Writes at the focus and below it leave the trees around it. -/
theorem StoredAround.congr (stored : StoredAround seg path h)
    (same : ∀ i, ¬ Under (index path) i → seg' i = seg i) : StoredAround seg' path h := by
  induction path generalizing h with
  | nil => trivial
  | cons frame rest ih =>
    refine ⟨stored.1.congr fun i under => same i (under_sibling under), ?_⟩
    exact ih stored.2 fun i outside => same i fun under => outside under.up

theorem stored_fill (focus : Stored seg (index (frame :: rest)) t h)
    (sibling : Stored seg (siblingIndex frame rest) frame.sibling h)
    (joined : seg (index rest) = seg (2 * index rest) ||| seg (2 * index rest + 1)) :
    Stored seg (index rest) (frame.fill t) (h + 1) := by
  obtain ⟨_ | _, beside⟩ := frame
  · exact ⟨joined, focus, sibling⟩
  · exact ⟨joined, sibling, focus⟩

/-- Every ancestor's entry is the join of its halves' entries. -/
def Spine (seg : ℕ → ℕ) : Path → Prop
  | [] => True
  | _ :: rest => seg (index rest) = seg (2 * index rest) ||| seg (2 * index rest + 1) ∧ Spine seg rest

theorem stored_plug (focus : Stored seg (index path) t h) (around : StoredAround seg path h)
    (spine : Spine seg path) : Stored seg 1 (plug path t) (h + path.length) := by
  induction path generalizing t h with
  | nil => exact focus
  | cons frame rest ih =>
    rw [height_cons]
    exact ih (stored_fill focus around.1 spine.1) around.2 spine.2

theorem stored_unfill (stored : Stored seg (index rest) (frame.fill t) (h + 1)) :
    Stored seg (index (frame :: rest)) t h ∧
      Stored seg (siblingIndex frame rest) frame.sibling h := by
  obtain ⟨_ | _, sibling⟩ := frame
  · exact ⟨stored.2.1, stored.2.2⟩
  · exact ⟨stored.2.2, stored.2.1⟩

end LiNos.BuddyTree
