import Mathlib.Data.List.Pairwise
import Mathlib.Algebra.Order.BigOperators.Group.List
import Mathlib.Algebra.Order.Ring.Nat

/-!
Runs of consecutive numbers and lists of them.

A free list is a list of blocks of which no two overlap or touch. The three
things an allocator does to such a list are stated here once, on plain lists:
`split` gives away the front of a block, `coalesce` swallows the neighbours of
a returned block in one pass over a list in *any* order, and `place` puts a
block in front of the first one above it. Each keeps the blocks apart and
accounts for every number and for the total length.
-/

namespace LiNos.Blocks

open List

/-- The numbers `start, …, start + len - 1`. -/
structure Block where
  start : ℕ
  len : ℕ
  deriving DecidableEq, Repr

/-- One past the last number. -/
def Block.stop (b : Block) : ℕ := b.start + b.len

def Block.Covers (b : Block) (i : ℕ) : Prop := b.start ≤ i ∧ i < b.stop

/-- Some block of the list holds the number. -/
def Covered (bs : List Block) (i : ℕ) : Prop := ∃ b ∈ bs, b.Covers i

/-- No number in common. -/
def Beside (a b : Block) : Prop := a.stop ≤ b.start ∨ b.stop ≤ a.start

/-- No number in common and a gap in between. -/
def Apart (a b : Block) : Prop := a.stop < b.start ∨ b.stop < a.start

/-- One block inside another. -/
def Within (a b : Block) : Prop := b.start ≤ a.start ∧ a.stop ≤ b.stop

/-- Strictly below, with a gap. -/
def Below (a b : Block) : Prop := a.stop < b.start

def total (bs : List Block) : ℕ := (bs.map Block.len).sum

instance (b : Block) (i : ℕ) : Decidable (b.Covers i) :=
  inferInstanceAs (Decidable (_ ∧ _))

instance : DecidableRel Beside := fun _ _ => inferInstanceAs (Decidable (_ ∨ _))

instance : DecidableRel Apart := fun _ _ => inferInstanceAs (Decidable (_ ∨ _))

instance : DecidableRel Below := fun _ _ => inferInstanceAs (Decidable (_ < _))

variable {a b d blk kept : Block} {bs ks xs ys : List Block} {i n : ℕ}

@[simp] theorem covered_nil : ¬ Covered [] i := by simp [Covered]

@[simp] theorem covered_cons : Covered (b :: bs) i ↔ b.Covers i ∨ Covered bs i := by
  simp [Covered]

@[simp] theorem covered_append : Covered (xs ++ ys) i ↔ Covered xs i ∨ Covered ys i := by
  simp [Covered, or_and_right, exists_or]

theorem covered_map {α : Type*} {f : α → Block} {l : List α} :
    Covered (l.map f) i ↔ ∃ a ∈ l, (f a).Covers i := by
  simp [Covered]

theorem covered_perm (perm : xs.Perm ys) : Covered xs i ↔ Covered ys i := by
  simp only [Covered, perm.mem_iff]

@[simp] theorem total_nil : total [] = 0 := rfl

@[simp] theorem total_cons : total (b :: bs) = b.len + total bs := by simp [total]

@[simp] theorem total_append : total (xs ++ ys) = total xs + total ys := by simp [total]

theorem Apart.symm (apart : Apart a b) : Apart b a := Or.symm apart

instance : Std.Symm Apart := ⟨fun _ _ => Apart.symm⟩

theorem Apart.beside (apart : Apart a b) : Beside a b :=
  apart.imp Nat.le_of_lt Nat.le_of_lt

theorem Below.apart (below : Below a b) : Apart a b := .inl below

/-- Blocks that share no number share no block's start either. -/
theorem Beside.not_covers (beside : Beside a b) (inside : a.Covers i) : ¬ b.Covers i := by
  unfold Beside at beside
  unfold Block.Covers at *
  omega

theorem Beside.symm (beside : Beside a b) : Beside b a := Or.symm beside

/-- Blocks without a common number lie beside each other. -/
theorem beside_of_not_covers (positive : 0 < a.len) (positive' : 0 < b.len)
    (disjoint : ∀ i, a.Covers i → ¬ b.Covers i) : Beside a b := by
  by_contra overlap
  -- they would have the larger of the two starts in common
  have common : a.Covers (max a.start b.start) ∧ b.Covers (max a.start b.start) := by
    simp only [Beside, Block.Covers, Block.stop] at *
    omega
  exact disjoint _ common.1 common.2

theorem Within.trans (inner : Within a b) (outer : Within b d) : Within a d :=
  ⟨outer.1.trans inner.1, inner.2.trans outer.2⟩

theorem Beside.within (beside : Beside a b) (inner : Within d a) : Beside d b :=
  beside.imp (fun low => inner.2.trans low) (fun high => high.trans inner.1)

theorem len_le_total (member : b ∈ bs) : b.len ≤ total bs :=
  le_sum_of_mem (mem_map_of_mem member)

/-! ## Giving away the front of a block -/

/-- What is left of a block after its first `n` numbers are taken. -/
def remainder (b : Block) (n : ℕ) : Block := ⟨b.start + n, b.len - n⟩

/-- The list entry that replaces a block whose first `n` numbers are taken:
none when nothing is left. -/
def split (b : Block) (n : ℕ) : List Block := if n < b.len then [remainder b n] else []

theorem covered_split (fits : n ≤ b.len) :
    Covered (split b n) i ↔ b.Covers i ∧ ¬ (⟨b.start, n⟩ : Block).Covers i := by
  unfold split
  split <;> simp [remainder, Block.Covers, Block.stop] <;> omega

theorem total_split (fits : n ≤ b.len) : total (split b n) + n = b.len := by
  unfold split
  split
  · simp [remainder]
    omega
  · simp
    omega

theorem split_len_pos (member : d ∈ split b n) : 0 < d.len := by
  unfold split at member
  split at member
  · simp only [mem_singleton] at member
    subst member
    simp [remainder]
    omega
  · simp at member

/-! ## One-pass coalescing -/

/-- Walks a list once with a block in hand: an entry that touches the block on
either side is taken off the list and joined to it, every other entry stays.
The result is the grown block and what stays on the list. -/
def coalesce (blk : Block) : List Block → Block × List Block
  | [] => (blk, [])
  | p :: rest =>
    if blk.stop = p.start then coalesce ⟨blk.start, blk.len + p.len⟩ rest
    else if p.stop = blk.start then coalesce ⟨p.start, p.len + blk.len⟩ rest
    else ((coalesce blk rest).1, p :: (coalesce blk rest).2)

theorem coalesce_sublist (blk : Block) (bs : List Block) : (coalesce blk bs).2.Sublist bs := by
  fun_induction coalesce blk bs with
  | case1 => exact .slnil
  | case2 _ _ _ _ ih => exact ih.cons _
  | case3 _ _ _ _ _ ih => exact ih.cons _
  | case4 _ _ _ _ _ ih => exact ih.cons_cons _

theorem coalesce_total (blk : Block) (bs : List Block) :
    (coalesce blk bs).1.len + total (coalesce blk bs).2 = blk.len + total bs := by
  fun_induction coalesce blk bs with
  | case1 => rfl
  | case2 | case3 | case4 =>
    simp only [total_cons] at *
    omega

theorem coalesce_len_pos (positive : 0 < blk.len) : 0 < (coalesce blk bs).1.len := by
  fun_induction coalesce blk bs with
  | case1 => exact positive
  | case2 _ _ _ _ ih => exact ih (Nat.add_pos_left positive _)
  | case3 _ _ _ _ _ ih => exact ih (Nat.add_pos_right _ positive)
  | case4 _ _ _ _ _ ih => exact ih positive

/-- No number is lost or gained. -/
theorem coalesce_covers (blk : Block) (bs : List Block) :
    ((coalesce blk bs).1.Covers i ∨ Covered (coalesce blk bs).2 i) ↔
      blk.Covers i ∨ Covered bs i := by
  fun_induction coalesce blk bs with
  | case1 => rfl
  | case2 | case3 =>
    simp only [covered_cons, Block.Covers, Block.stop] at *
    grind
  | case4 _ _ _ _ _ ih => rw [covered_cons, covered_cons, or_left_comm, ih, or_left_comm]

/-- Whatever keeps a gap from the block in hand and from every entry keeps one
from the grown block. -/
theorem coalesce_apart_of (fromBlock : Apart d blk) (fromList : ∀ b ∈ bs, Apart d b) :
    Apart d (coalesce blk bs).1 := by
  fun_induction coalesce blk bs with
  | case1 => exact fromBlock
  | case2 _ p _ _ ih | case3 _ p _ _ _ ih =>
    obtain ⟨head, tail⟩ := forall_mem_cons.mp fromList
    refine ih ?_ tail
    simp only [Apart, Block.stop] at *
    omega
  | case4 _ _ _ _ _ ih => exact ih fromBlock (forall_mem_cons.mp fromList).2

/-- After one pass nothing that stayed on the list touches the grown block,
whatever the order of the list was: an entry passed before the block grew in
its direction had a gap from the entry that made it grow. -/
theorem coalesce_apart (apart : bs.Pairwise Apart) (beside : ∀ b ∈ bs, Beside b blk) :
    ∀ k ∈ (coalesce blk bs).2, Apart k (coalesce blk bs).1 := by
  fun_induction coalesce blk bs with
  | case1 => simp
  | case2 _ p _ _ ih | case3 _ p _ _ _ ih =>
    obtain ⟨fromHead, apartRest⟩ := pairwise_cons.mp apart
    obtain ⟨head, tail⟩ := forall_mem_cons.mp beside
    refine ih apartRest ?_
    intro b member
    have gap := fromHead b member
    have side := tail b member
    simp only [Apart, Beside, Block.stop] at *
    omega
  | case4 _ p _ _ _ ih =>
    obtain ⟨fromHead, apartRest⟩ := pairwise_cons.mp apart
    obtain ⟨head, tail⟩ := forall_mem_cons.mp beside
    refine forall_mem_cons.mpr ⟨coalesce_apart_of ?_ fromHead, ih apartRest tail⟩
    simp only [Apart, Beside, Block.stop] at *
    omega

/-- The block in hand keeps its start unless an entry ends there. -/
theorem coalesce_start (noLeft : ∀ b ∈ bs, b.stop ≠ blk.start) : (coalesce blk bs).1.start =
    blk.start := by
  fun_induction coalesce blk bs with
  | case1 => rfl
  | case2 _ _ _ _ ih | case4 _ _ _ _ _ ih => exact ih (forall_mem_cons.mp noLeft).2
  | case3 _ _ _ _ touching => exact absurd touching (forall_mem_cons.mp noLeft).1

/-- Every entry that does not start where the block in hand ends is still the start of a
block: it stays, or the grown block starts there. -/
theorem coalesce_keeps_start (apart : bs.Pairwise Apart) (member : b ∈ bs)
    (other : b.start ≠ blk.stop) :
    b.start = (coalesce blk bs).1.start ∨ b ∈ (coalesce blk bs).2 := by
  fun_induction coalesce blk bs with
  | case1 => cases member
  | case2 _ p _ touching ih =>
    obtain ⟨fromHead, apartRest⟩ := pairwise_cons.mp apart
    rcases mem_cons.mp member with rfl | later
    · exact absurd touching.symm other
    · apply ih apartRest later
      have gap := fromHead b later
      simp only [Apart, Block.stop] at *
      omega
  | case3 _ p _ _ touching ih =>
    obtain ⟨fromHead, apartRest⟩ := pairwise_cons.mp apart
    rcases mem_cons.mp member with rfl | later
    · left
      rw [coalesce_start]
      intro d inList
      have gap := fromHead d inList
      simp only [Apart, Block.stop] at *
      omega
    · apply ih apartRest later
      simp only [Block.stop] at *
      omega
  | case4 _ p _ _ _ ih =>
    rcases mem_cons.mp member with rfl | later
    · exact .inr mem_cons_self
    · exact (ih (pairwise_cons.mp apart).2 later other).imp_right (mem_cons_of_mem _)

/-! ## Putting a block in its place -/

/-- In front of the first entry that does not start below the block's end. -/
def place (blk : Block) : List Block → List Block
  | [] => [blk]
  | p :: rest => if blk.stop ≤ p.start then blk :: p :: rest else p :: place blk rest

theorem place_perm (blk : Block) (bs : List Block) : (place blk bs).Perm (blk :: bs) := by
  fun_induction place blk bs with
  | case1 | case2 => exact .refl _
  | case3 p rest _ ih => exact (ih.cons p).trans (.swap blk p rest)

theorem mem_place : d ∈ place blk bs ↔ d = blk ∨ d ∈ bs := by
  rw [(place_perm blk bs).mem_iff, mem_cons]

theorem covered_place : Covered (place blk bs) i ↔ blk.Covers i ∨ Covered bs i := by
  simp only [Covered, mem_place, or_and_right, exists_or, exists_eq_left]

theorem total_place (blk : Block) (bs : List Block) : total (place blk bs) = blk.len + total bs := by
  have permuted := ((place_perm blk bs).map Block.len).sum_eq
  simpa [total] using permuted

/-- Placing a block that keeps its distance into an ascending list leaves it
ascending. -/
theorem place_below (ascending : bs.Pairwise Below) (apart : ∀ b ∈ bs, Apart b blk) :
    (place blk bs).Pairwise Below := by
  fun_induction place blk bs with
  | case1 => exact pairwise_singleton _ _
  | case2 p rest above =>
    refine pairwise_cons.mpr ⟨?_, ascending⟩
    have gap := apart p mem_cons_self
    intro b member
    rcases mem_cons.mp member with rfl | later
    · simp only [Below, Apart, Block.stop] at *
      omega
    · have below := (pairwise_cons.mp ascending).1 b later
      simp only [Below, Block.stop] at *
      omega
  | case3 p rest under ih =>
    obtain ⟨fromHead, ascendingRest⟩ := pairwise_cons.mp ascending
    obtain ⟨gap, gaps⟩ := forall_mem_cons.mp apart
    refine pairwise_cons.mpr ⟨?_, ih ascendingRest gaps⟩
    intro b member
    rcases mem_place.mp member with rfl | member
    · simp only [Below, Apart, Block.stop] at *
      omega
    · exact fromHead b member

theorem place_apart (apart : bs.Pairwise Apart) (fromBlock : ∀ b ∈ bs, Apart b blk) :
    (place blk bs).Pairwise Apart := by
  refine ((place_perm blk bs).pairwise_iff (fun gap => gap.symm)).mpr ?_
  exact pairwise_cons.mpr ⟨fun b member => (fromBlock b member).symm, apart⟩

/-- Shrinking one entry from the front keeps every order that shrinking
respects. -/
theorem pairwise_split {R : Block → Block → Prop} (ordered : (xs ++ b :: ys).Pairwise R)
    (left : n < b.len → ∀ d, R d b → R d (remainder b n))
    (right : n < b.len → ∀ d, R b d → R (remainder b n) d) :
    (xs ++ split b n ++ ys).Pairwise R := by
  unfold split
  split
  · rename_i less
    have shrunk : (xs ++ remainder b n :: ys).Pairwise R := by
      rw [pairwise_append, pairwise_cons] at ordered ⊢
      obtain ⟨before, ⟨fromBlock, after⟩, across⟩ := ordered
      refine ⟨before, ⟨fun d member => right less d (fromBlock d member), after⟩, ?_⟩
      intro d member e other
      rcases mem_cons.mp other with rfl | other
      · exact left less d (across d member b (by simp))
      · exact across d member e (by simp [other])
    simpa using shrunk
  · have shorter : (xs ++ ys).Sublist (xs ++ b :: ys) :=
      List.Sublist.append_left (sublist_cons_self b ys) xs
    simpa using ordered.sublist shorter

theorem apart_split (apart : (xs ++ b :: ys).Pairwise Apart) :
    (xs ++ split b n ++ ys).Pairwise Apart := by
  refine pairwise_split apart ?_ ?_ <;> intro less d gap <;>
    simp only [Apart, remainder, Block.stop] at * <;> omega

theorem below_split (ascending : (xs ++ b :: ys).Pairwise Below) :
    (xs ++ split b n ++ ys).Pairwise Below := by
  refine pairwise_split ascending ?_ ?_ <;> intro less d gap <;>
    simp only [Below, remainder, Block.stop] at * <;> omega

/-- Splitting takes the front of the block off what the list covers. -/
theorem covered_split_iff (gaps : (xs ++ b :: ys).Pairwise Apart) (fits : n ≤ b.len) :
    Covered (xs ++ split b n ++ ys) i ↔ Covered (xs ++ b :: ys) i ∧ ¬
      (⟨b.start, n⟩ : Block).Covers i := by
  obtain ⟨-, gapsHigh, across⟩ := pairwise_append.mp gaps
  have inside : (⟨b.start, n⟩ : Block).Covers i → b.Covers i := by
    intro covers
    simp only [Block.Covers, Block.stop] at *
    omega
  have apart : (⟨b.start, n⟩ : Block).Covers i → ¬ Covered xs i ∧ ¬ Covered ys i := by
    intro covers
    refine ⟨?_, ?_⟩
    · rintro ⟨d, member, hit⟩
      exact (across d member b mem_cons_self).beside.not_covers hit (inside covers)
    · rintro ⟨d, member, hit⟩
      exact ((pairwise_cons.mp gapsHigh).1 d member).beside.not_covers (inside covers) hit
  rw [covered_append, covered_append, covered_split fits, covered_append, covered_cons]
  tauto

/-- What a block covers is not covered by the others. -/
theorem covered_erase (disjoint : bs.Pairwise Beside) (member : b ∈ bs) :
    Covered (bs.erase b) i ↔ Covered bs i ∧ ¬ b.Covers i := by
  have perm := perm_cons_erase member
  have pairwise := (perm.pairwise_iff fun beside => Beside.symm beside).mp disjoint
  have others : b.Covers i → ¬ Covered (bs.erase b) i := by
    rintro covers ⟨d, inside, hit⟩
    exact ((pairwise_cons.mp pairwise).1 d inside).not_covers covers hit
  rw [covered_perm perm, covered_cons]
  tauto

/-! ## Joining at the front -/

/-- A block in front of a list, as one block with the first entry if the two touch. -/
def joinFront (b : Block) : List Block → List Block
  | [] => [b]
  | f :: rest => if b.stop = f.start then ⟨b.start, b.len + f.len⟩ :: rest else b :: f :: rest

theorem joinFront_cons (b : Block) (bs : List Block) :
    ∃ c rest, joinFront b bs = c :: rest ∧ c.start = b.start := by
  cases bs with
  | nil => exact ⟨b, [], rfl, rfl⟩
  | cons f rest =>
    rw [joinFront]
    split
    · exact ⟨_, rest, rfl, rfl⟩
    · exact ⟨b, f :: rest, rfl, rfl⟩

theorem covered_joinFront : Covered (joinFront b bs) i ↔ b.Covers i ∨ Covered bs i := by
  fun_cases joinFront b bs with
  | case1 => simp
  | case2 f rest touching =>
    rw [covered_cons, covered_cons, ← or_assoc]
    refine or_congr_left ?_
    simp only [Block.Covers, Block.stop] at *
    omega
  | case3 => rw [covered_cons]

theorem joinFront_below (ordered : ∀ f ∈ bs, b.stop ≤ f.start) (ascending : bs.Pairwise Below) :
    (joinFront b bs).Pairwise Below := by
  fun_cases joinFront b bs with
  | case1 => exact pairwise_singleton _ _
  | case2 f rest touching =>
    obtain ⟨fromFirst, ascendingTail⟩ := pairwise_cons.mp ascending
    refine pairwise_cons.mpr ⟨fun d member => ?_, ascendingTail⟩
    have below := fromFirst d member
    simp only [Below, Block.stop] at *
    omega
  | case3 f rest gap =>
    refine pairwise_cons.mpr ⟨fun d member => ?_, ascending⟩
    have first := ordered f mem_cons_self
    rcases mem_cons.mp member with rfl | later
    · exact lt_of_le_of_ne first gap
    · have below := (pairwise_cons.mp ascending).1 d later
      simp only [Below, Block.stop] at *
      omega

theorem mem_joinFront (member : d ∈ joinFront b bs) :
    d ∈ bs ∨ d = b ∨ ∃ f ∈ bs, b.stop = f.start ∧ d = ⟨b.start, b.len + f.len⟩ := by
  cases bs with
  | nil => exact .inr (.inl (by simpa [joinFront] using member))
  | cons f rest =>
    rw [joinFront] at member
    split at member
    · rename_i touching
      rcases mem_cons.mp member with same | later
      · exact .inr (.inr ⟨f, mem_cons_self, touching, same⟩)
      · exact .inl (mem_cons_of_mem _ later)
    · rcases mem_cons.mp member with same | later
      · exact .inr (.inl same)
      · exact .inl later

/-- A block that is not touched stays. -/
theorem mem_joinFront_of_ne (member : d ∈ bs) (apart : b.stop ≠ d.start) : d ∈ joinFront b bs := by
  cases bs with
  | nil => cases member
  | cons f rest =>
    rw [joinFront]
    split
    · rename_i touching
      rcases mem_cons.mp member with rfl | later
      · exact absurd touching apart
      · exact mem_cons_of_mem _ later
    · exact mem_cons_of_mem _ member

theorem joinFront_of_ne (apart : ∀ f ∈ bs, b.stop ≠ f.start) : joinFront b bs = b :: bs := by
  cases bs with
  | nil => rfl
  | cons f rest => rw [joinFront, if_neg (apart f mem_cons_self)]

theorem joinFront_len_pos (positive : 0 < b.len) (others : ∀ f ∈ bs, 0 < f.len) :
    ∀ d ∈ joinFront b bs, 0 < d.len := by
  intro d member
  rcases mem_joinFront member with old | rfl | ⟨f, -, -, rfl⟩
  · exact others d old
  · exact positive
  · exact Nat.add_pos_left positive _

/-- No block of the result starts before the one that was put in front. -/
theorem start_le_joinFront (ordered : ∀ f ∈ bs, b.start ≤ f.start) : ∀ d ∈ joinFront b bs,
    b.start ≤ d.start := by
  intro d member
  rcases mem_joinFront member with old | rfl | ⟨f, -, -, rfl⟩
  · exact ordered d old
  · exact Nat.le_refl _
  · exact Nat.le_refl _

theorem joinFront_append (apart : ∀ f ∈ ys, b.stop ≠ f.start) : joinFront b (xs ++ ys) =
    joinFront b xs ++ ys := by
  cases xs with
  | nil => exact joinFront_of_ne apart
  | cons f rest =>
    change joinFront b (f :: (rest ++ ys)) = joinFront b (f :: rest) ++ ys
    rw [joinFront, joinFront]
    split
    · rfl
    · rfl

section Between

variable {l : Block} {lows highs : List Block} (ascending : (lows ++ l :: highs).Pairwise Below)
  (below : l.stop ≤ blk.start) (above : ∀ f ∈ highs, blk.stop ≤ f.start)

include ascending below above

theorem stop_le_joinFront : ∀ f ∈ joinFront blk highs, l.stop ≤ f.start := by
  intro f member
  rcases mem_joinFront member with old | rfl | ⟨-, -, -, rfl⟩
  · have later := (pairwise_cons.mp (pairwise_append.mp ascending).2.1).1 f old
    exact Nat.le_of_lt later
  · exact below
  · exact below

/-- A block put between `l` and what is above it, joined with what it touches. -/
theorem joinBetween_below : (lows ++ joinFront l (joinFront blk highs)).Pairwise Below := by
  obtain ⟨ascendingLow, ascendingHigh, across⟩ := pairwise_append.mp ascending
  have follows := stop_le_joinFront ascending below above
  refine pairwise_append.mpr ⟨ascendingLow, joinFront_below follows ?_, ?_⟩
  · exact joinFront_below above (pairwise_cons.mp ascendingHigh).2
  · intro f member d member'
    have least := start_le_joinFront
      (fun g inside => (Nat.le_add_right _ _).trans (follows g inside)) d member'
    exact (across f member l mem_cons_self).trans_le least

/-- What is not touched stays. -/
theorem mem_joinBetween (member : d ∈ lows ++ l :: highs) (apart : Apart d blk) :
    d ∈ lows ++ joinFront l (joinFront blk highs) := by
  have ascendingHigh := (pairwise_append.mp ascending).2.1
  rcases mem_append.mp member with low | rest
  · exact mem_append_left _ low
  · apply mem_append_right
    rcases mem_cons.mp rest with rfl | high
    · rw [joinFront_of_ne]
      · exact mem_cons_self
      · intro f inside
        rcases mem_joinFront inside with old | rfl | ⟨g, -, -, rfl⟩
        · exact Nat.ne_of_lt ((pairwise_cons.mp ascendingHigh).1 f old)
        · simp only [Apart, Block.stop] at *
          omega
        · simp only [Apart, Block.stop] at *
          omega
    · have later := (pairwise_cons.mp ascendingHigh).1 d high
      refine mem_joinFront_of_ne (mem_joinFront_of_ne high ?_) (Nat.ne_of_lt later)
      simp only [Apart, Block.stop] at *
      omega

end Between

/-! ## A list in ascending order is given by the numbers it covers -/

/-- The first block of an ascending list starts at the least number covered. -/
theorem start_le_of_covered (ascending : (b :: bs).Pairwise Below) (covered : Covered (b :: bs) i) :
    b.start ≤ i := by
  rcases covered_cons.mp covered with inside | ⟨d, member, inside⟩
  · exact inside.1
  · have below := (pairwise_cons.mp ascending).1 d member
    exact (Nat.le_add_right _ _).trans (below.le.trans inside.1)

/-- It ends where the first gap is. -/
theorem not_covered_stop (ascending : (b :: bs).Pairwise Below) : ¬ Covered (b :: bs) b.stop := by
  intro covered
  rcases covered_cons.mp covered with inside | ⟨d, member, inside⟩
  · exact absurd inside.2 (Nat.lt_irrefl _)
  · have below := (pairwise_cons.mp ascending).1 d member
    exact absurd inside.1 (Nat.not_le.mpr below)

/-- A block of covered numbers lies within one block of the list. -/
theorem within_of_covered (ascending : bs.Pairwise Below) (positive : 0 < blk.len)
    (covered : ∀ i, blk.Covers i → Covered bs i) : ∃ d ∈ bs, Within blk d := by
  obtain ⟨d, member, inside⟩ := covered blk.start ⟨Nat.le_refl _, Nat.lt_add_of_pos_right positive⟩
  refine ⟨d, member, inside.1, ?_⟩
  by_contra short
  -- the end of `d` would be covered by another block, without a gap
  obtain ⟨e, member', inside'⟩ := covered d.stop ⟨Nat.le_of_lt inside.2, not_le.mp short⟩
  obtain ⟨xs, ys, rfl⟩ := append_of_mem member
  obtain ⟨-, ascendingHigh, across⟩ := pairwise_append.mp ascending
  rcases mem_append.mp member' with low | rest
  · have below := across e low d mem_cons_self
    simp only [Below, Block.Covers, Block.stop] at *
    omega
  · rcases mem_cons.mp rest with rfl | high
    · exact absurd inside'.2 (Nat.lt_irrefl _)
    · have below := (pairwise_cons.mp ascendingHigh).1 e high
      simp only [Below, Block.Covers, Block.stop] at *
      omega

theorem covered_tail (ascending : (b :: bs).Pairwise Below) :
    Covered bs i ↔ Covered (b :: bs) i ∧ ¬ b.Covers i := by
  rw [← covered_erase (ascending.imp fun below => below.apart.beside) mem_cons_self, erase_cons_head]

theorem below_unique (ascending : xs.Pairwise Below) (ascending' : ys.Pairwise Below)
    (positive : ∀ b ∈ xs, 0 < b.len) (positive' : ∀ b ∈ ys, 0 < b.len)
    (same : ∀ i, Covered xs i ↔ Covered ys i) : xs = ys := by
  induction xs generalizing ys with
  | nil =>
    cases ys with
    | nil => rfl
    | cons d ds =>
      have inside : d.Covers d.start := ⟨Nat.le_refl _, Nat.lt_add_of_pos_right (positive' d (by simp))⟩
      exact absurd ((same d.start).mpr (covered_cons.mpr (.inl inside))) covered_nil
  | cons b bs ih =>
    have first : b.Covers b.start := ⟨Nat.le_refl _, Nat.lt_add_of_pos_right (positive b (by simp))⟩
    cases ys with
    | nil => exact absurd ((same b.start).mp (covered_cons.mpr (.inl first))) covered_nil
    | cons d ds =>
      have first' : d.Covers d.start := ⟨Nat.le_refl _, Nat.lt_add_of_pos_right (positive' d (by simp))⟩
      have starts : b.start = d.start := by
        apply Nat.le_antisymm
        · exact start_le_of_covered ascending ((same _).mpr (covered_cons.mpr (.inl first')))
        · exact start_le_of_covered ascending' ((same _).mp (covered_cons.mpr (.inl first)))
      -- the end of the shorter one would be covered by the longer one
      have stops : b.stop = d.stop := by
        apply Nat.le_antisymm
        · by_contra longer
          refine not_covered_stop ascending'
            ((same _).mp (covered_cons.mpr (.inl ⟨?_, not_le.mp longer⟩)))
          exact starts.le.trans (Nat.le_add_right _ _)
        · by_contra longer
          refine not_covered_stop ascending
            ((same _).mpr (covered_cons.mpr (.inl ⟨?_, not_le.mp longer⟩)))
          exact starts.ge.trans (Nat.le_add_right _ _)
      have heads : b = d := by
        cases b
        cases d
        simp only [Block.stop] at starts stops
        simp only [Block.mk.injEq]
        omega
      subst heads
      congr 1
      apply ih (pairwise_cons.mp ascending).2 (pairwise_cons.mp ascending').2
      · exact fun a member => positive a (by simp [member])
      · exact fun a member => positive' a (by simp [member])
      · intro i
        rw [covered_tail ascending, covered_tail ascending', same]

end LiNos.Blocks
