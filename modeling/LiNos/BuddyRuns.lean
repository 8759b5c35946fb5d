import LiNos.BuddyInvariant
import Mathlib.Order.Bounds.Defs

/-!
Whole calls and whole runs of the buddy manager.

`buddy_init_memmap` builds the tree of the managed range, allocation and freeing
lead from one tree with the root in focus to another, and so every state of a
run has one (`buddy_invariant`). The walk down and the merge on the way up undo
each other, which makes allocation complete (`buddy_alloc_complete`). `buddy_sizes` is
the arithmetic under it.
-/

namespace LiNos.BuddyPmm

open CircularList Pmm Bits BuddyTree Function List Option
open Blocks hiding place split
open scoped List

variable {s s' : Buddy} {origin size k h n i fuel H a base m rest : ℕ} {live : List Block}
  {path : Path} {t : Tree}

/-! ## `buddy_alloc_pages` -/

/-- What `buddy_alloc_pages` does: it comes back, with `NULL` and nothing changed
when the root's entry is below the length, and otherwise with a block of exactly
the length, which its page and the free blocks beside it would merge back to the
tree before. -/
theorem buddyAllocPages_spec (focused : Focused s origin size live [] t h) (positive : n ≠ 0)
    (fits : n ≤ 2 ^ 31) :
    (t.value h < uint32RoundUp n ∧ buddyAllocPages s n = some (s, none)) ∨
      ∃ s' path k, buddyAllocPages s n = some (s', some (origin + (cell (place path) k).start)) ∧
        uint32RoundUp n = 2 ^ k ∧ 2 ^ k ≤ t.value h ∧ mergeAll path (.leaf .free) = t ∧
        k + path.length = h ∧ Focused s' origin size (cell (place path) k :: live) []
          (plug path (.leaf .used)) (k + path.length) := by
  obtain ⟨k, length, -, -⟩ := uint32RoundUp_eq positive fits
  have root := focused.seg
  have virtual : s.virtualSize = 2 ^ h := focused.virtual
  have enough : h < s.virtualSize := virtual ▸ Nat.lt_two_pow_self
  simp only [index] at root
  by_cases room : 2 ^ k ≤ t.value h
  · obtain ⟨s₁, inner, found, block, before, height⟩ := findBlock_spec focused room enough
    obtain ⟨s', updated, whole⟩ := updateUp_spec block.take (by simp) block.length_lt
    refine .inr ⟨s', inner, k, ?_, length, room, before, height, whole⟩
    have begin := buddyBegin_index inner block.virtual block.small
    have entry : s₁.seg (index inner) = some (2 ^ k) := block.seg
    simp only [index] at found
    simp only [buddyAllocPages, positive, length, found, entry, begin, ↓reduceIte,
      bind_eq_bind, bind_some, Nat.lt_irrefl]
    rw [Buddy.setSeg_eq (by simpa using block.index_lt), bind_some]
    simp only [Buddy.setNrFree_virtualSize, Buddy.write_virtualSize, Buddy.unlink_virtualSize,
      Buddy.write_area]
    rw [show (s₁.unlink (cell (place inner) k).start).area.nrFree = s₁.area.nrFree from rfl, updated,
      bind_some, whole.alloc]
  · have small : t.value h < 2 ^ k := Nat.not_le.mp room
    obtain ⟨fuel, more⟩ : ∃ m, s.virtualSize = m + 1 := ⟨s.virtualSize - 1, by omega⟩
    have found : findBlock (2 ^ k) s.virtualSize s 1 = some (s, 1) := by
      rw [more, findBlock]
      simp [root, room]
    exact .inl ⟨length ▸ small, by simp [buddyAllocPages, positive, length, found, root, small]⟩

/-! ## `buddy_free_pages` -/

/-- What is written to the pages of a used block, up to the `property` of its
first page, leaves the state focused on it. -/
theorem Focused.touch (focused : Focused s origin size live path (.leaf .used) h) {area : FreeArea}
    (links : area.links = s.area.links) (nrFree : area.nrFree = s.area.nrFree)
    (property : ∀ i, ¬ (cell (place path) h).Covers i →
      (area.pages (origin + i)).property = (s.area.pages (origin + i)).property)
    (usable : ∀ i < size, (area.pages (origin + i)).flags.reserved = false) :
    Focused { s with area := area } origin size live path (.leaf .used) h :=
  { focused with
    listed := by
      obtain ⟨order, perm, ring, lengths⟩ := focused.listed
      refine ⟨order, perm, links ▸ ring, fun b member => ?_⟩
      have before := lengths b member
      simp only [Buddy.property, focused.alloc] at before ⊢
      rw [property _ fun inside => around_start_ne focused.shapedAround member inside rfl, before]
    counted := nrFree.trans focused.counted
    usable := usable }

/-- `buddy_free_pages` of the live block at the end of a path comes back, and the
block is free again and merged with what is free beside it. -/
theorem buddyFreePages_path
    (focused : Focused s origin size (cell (place path) k :: live) [] (plug path (.leaf .used))
      (k + path.length))
    (positive : n ≠ 0) (covers : n ≤ 2 ^ k) (rounded : uint32RoundUp n = 2 ^ k) :
    ∃ s', buddyFreePages s (origin + (cell (place path) k).start) n = some s' ∧
      Focused s' origin size live [] (mergeAll path (.leaf .free)) (k + path.length) := by
  have opened := focused.down_path
  have stop : (cell (place path) k).stop ≤ size := opened.shaped
  have inside : ∀ i, origin + (cell (place path) k).start ≤ i →
      i < origin + (cell (place path) k).start + n → (!(s.area.pages i).flags.reserved) = true := by
    intro i low high
    obtain ⟨j, rfl⟩ := Nat.exists_eq_add_of_le (show origin ≤ i by omega)
    rw [opened.usable j]
    · rfl
    · simp only [Block.stop, cell_len] at stop
      omega
  let start := (cell (place path) k).start
  let reset : Page → Page := fun page => { page with flags := {}, ref := 0 }
  let cleared : FreeArea := { s.area with pages := mapRange reset (origin + start) n s.area.pages }
  have released : releasePages s.area (origin + (cell (place path) k).start) n = some cleared :=
    forPages_eq_some.mpr ⟨inside, rfl⟩
  let area := (cleared.setProperty (origin + start) (2 ^ k)).setPageProperty (origin + start) true
  have touched : Focused { s with area := area } origin size (cell (place path) k :: live) path
      (.leaf .used) k := by
    refine opened.touch rfl rfl ?_ ?_
    · intro i outside
      have other : i ≠ start := by
        rintro rfl
        exact outside (cell_covers_start ..)
      have differs : origin + i ≠ origin + start := by omega
      simp only [area, FreeArea.setPageProperty_property, FreeArea.setProperty_property, differs,
        ↓reduceIte, cleared, mapRange]
      split <;> rfl
    · intro i low
      have before := opened.usable i low
      simp only [area, FreeArea.setPageProperty_reserved, FreeArea.setProperty_flags, cleared,
        mapRange]
      split
      · rfl
      · exact before
  have marked : (Buddy.property { s with area := area } start) = 2 ^ k := by
    simp [Buddy.property, area, opened.alloc]
  obtain ⟨s', merged, root⟩ := mergeUp_spec (touched.release marked) opened.length_lt
  refine ⟨s', ?_, root⟩
  have block : s.buddyBlock (cell (place path) k).start ((cell (place path) k).start + 2 ^ k) =
      index path := (buddyBlock_cell opened.virtual).trans (index_eq path).symm
  have bound := opened.index_lt
  have begin : origin + (cell (place path) k).start - s.alloc = (cell (place path) k).start := by
    rw [opened.alloc, Nat.add_sub_cancel_left]
  simp only [buddyFreePages, positive, rounded, begin, block, released, ↓reduceIte, bind_eq_bind, bind_some]
  rw [Buddy.setSeg_eq (by simpa using bound), bind_some]
  exact merged

/-- So does that of any live block. -/
theorem buddyFreePages_spec {b : Block} (focused : Focused s origin size (b :: live) [] t h)
    (positive : n ≠ 0) (fits : n ≤ 2 ^ 31) (length : b.len = uint32RoundUp n) :
    ∃ s' t' h', buddyFreePages s (origin + b.start) n = some s' ∧
      Focused s' origin size live [] t' h' := by
  have member : b ∈ t.cells .used (place []) h := by
    have used := focused.used
    simp only [aroundCells, append_nil] at used
    exact used.mem_iff.mpr (mem_cons_self ..)
  obtain ⟨path, k, rfl, rfl, rfl⟩ := exists_focus [] member focused.shaped
  obtain ⟨k', rounded, covers, -⟩ := uint32RoundUp_eq positive fits
  rw [← rounded, ← length, cell_len] at covers
  obtain ⟨s', ran, root⟩ := buddyFreePages_path focused positive covers length.symm
  exact ⟨s', _, _, ran, root⟩

/-! ## `buddy_init_memmap` -/

/-- For every size of the range the virtual size is a power of two, the segment has room for
the tree and leaves some of the range, and a doubled tree manages more pages. -/
theorem initSizes_spec (low : 2 ≤ n) (high : n ≤ kmemPages) :
    ∃ h < 31, (initSizes n).1 = 2 ^ h ∧ (initSizes n).2 < n ∧
      2 * (initSizes n).1 * 4 ≤ (initSizes n).2 * 4096 ∧
      (512 ≤ n → (initSizes n).1 ≠ uint32RoundDown n →
        min (uint32RoundDown n) (n - uint32RoundDown n * 4 * 2 / 4096) <
          min (initSizes n).1 (n - (initSizes n).2)) := by
  have small : n < 2 ^ 18 := lt_of_le_of_lt high (by decide)
  unfold initSizes
  by_cases few : n < 512
  · obtain ⟨k, rounded, above, below⟩ := uint32RoundUp_eq (n := n - 1) (by omega) (by omega)
    have bound : 2 ^ k < 2 ^ 10 := by omega
    have lower : k < 10 := (Nat.pow_lt_pow_iff_right Nat.one_lt_two).mp bound
    have grows : 2 ^ k ≤ 2 ^ 9 := Nat.pow_le_pow_right (by decide) (by omega)
    refine ⟨k, by omega, ?_⟩
    simp only [few, rounded, ↓reduceIte, true_and]
    omega
  · obtain ⟨d, r, rfl, less⟩ := exists_leading (show n ≠ 0 by omega)
    have bound : 2 ^ d < 2 ^ 18 := by omega
    have lower : d < 18 := (Nat.pow_lt_pow_iff_right Nat.one_lt_two).mp bound
    have rounded := uint32RoundDown_node less (show d < 32 by omega)
    have least : 9 ≤ d := by
      by_contra short
      have grows : 2 ^ d ≤ 2 ^ 8 := Nat.pow_le_pow_right (by decide) (by omega)
      omega
    obtain ⟨e, rfl⟩ := Nat.exists_eq_add_of_le least
    rw [pow_add] at *
    simp only [few, rounded, Nat.shiftLeft_eq, pow_one, ↓reduceIte]
    split
    · refine ⟨9 + e + 1, by omega, by rw [pow_succ 2 (9 + e), pow_add], ?_⟩
      omega
    · refine ⟨9 + e, by omega, by rw [pow_add], ?_⟩
      omega

/-- The state while `buddy_init_segment` goes down to the end of the managed
range: `rest` of its pages lie in the cell at `path`, everything left of the cell
is listed, everything right of it is out of range, and the ancestors' entries are
already right. -/
structure Filling (s : Buddy) (origin size : ℕ) (path : Path) (rest h : ℕ) : Prop where
  alloc : s.alloc = origin
  allocSize : s.allocSize = size
  virtual : s.virtualSize = 2 ^ (h + path.length)
  small : h + path.length < 31
  fits : size ≤ s.virtualSize
  entry : s.segment (index path) = rest
  positive : 0 < rest
  le : rest ≤ 2 ^ h
  unmerged : ∀ frame ∈ path.head?, frame.sibling = .leaf .free → rest < 2 ^ h
  reaches : (cell (place path) h).start + rest = size
  storedAround : StoredAround s.segment path h
  spine : Spine s.segment path
  shapedAround : ShapedAround size path h
  listed : Listed s (aroundCells .free path h)
  sum : total (aroundCells .free path h) = (cell (place path) h).start
  unused : aroundCells .used path h = []
  counted : s.area.nrFree = size
  usable : ∀ i < size, (s.area.pages (origin + i)).flags.reserved = false

/-- Writes to the halves of the focus leave the ancestors' entries. -/
theorem spine_congr {seg seg' : ℕ → ℕ} {rest : Path} (spine : Spine seg rest)
    (same : ∀ i < 2 * index rest, seg' i = seg i) : Spine seg' rest := by
  induction rest with
  | nil => trivial
  | cons frame rest ih =>
    have number : index (frame :: rest) = 2 * index rest + frame.side.bit := rfl
    have positive := index_pos rest
    refine ⟨?_, ih spine.2 fun i low => same i (by omega)⟩
    rw [same _ (by omega), same _ (by omega), same _ (by omega)]
    exact spine.1

/-- The entries of the two halves are written, and they join to the entry of the
cell. -/
theorem Filling.write_halves {x y : ℕ} (filling : Filling s origin size path rest h)
    (joins : rest = x ||| y) :
    let seg := update (update s.segment (2 * index path) x) (2 * index path + 1) y
    seg (2 * index path) = x ∧ seg (2 * index path + 1) = y ∧ StoredAround seg path h ∧
      ∀ frame : Frame, Spine seg (frame :: path) := by
  have positive := index_pos path
  intro seg
  have inLeft : seg (2 * index path) = x := by
    simp only [seg]
    rw [update_of_ne (by omega), update_self]
  have inRight : seg (2 * index path + 1) = y := update_self ..
  have below : ∀ i < 2 * index path, seg i = s.segment i := by
    intro i low
    simp only [seg]
    rw [update_of_ne (by omega), update_of_ne (by omega)]
  refine ⟨inLeft, inRight, ?_, ?_⟩
  · exact storedAround_update
      (storedAround_update filling.storedAround (under_self (2 * index path)).left)
      (under_self (2 * index path + 1)).right
  · intro frame
    refine ⟨?_, spine_congr filling.spine below⟩
    rw [below _ (by omega), inLeft, inRight, filling.entry, joins]

/-- One round of the loop: the cell is halved, and the focus moves to the half in
which the range ends. -/
theorem Filling.step {rest : ℕ} (filling : Filling s origin size path rest (h + 1))
    (less : rest < 2 ^ (h + 1)) (fuel : ℕ) :
    ∃ s' frame rest', initLoop (fuel + 1) s (index path) rest (2 ^ (h + 1)) =
        initLoop fuel s' (index (frame :: path)) rest' (2 ^ h) ∧
      Filling s' origin size (frame :: path) rest' h := by
  have halved := two_pow_halved h
  have width := filling.virtual
  have right := halves_lt width
  have left : 2 * index path < 2 * s.virtualSize := by omega
  obtain ⟨start, middle, -⟩ := cell_halves (place path) h
  have leftStop : (cell (2 * place path) h).stop = (cell (2 * place path) h).start + 2 ^ h := rfl
  have reaches := filling.reaches
  have positive := filling.positive
  have partly : (cell (place path) (h + 1)).start < size := by omega
  have begin := buddyBegin_index path width filling.small
  by_cases exceeds : 2 ^ h < rest
  · -- the left half is free as a whole, the range ends in the right half
    let first := (s.setProperty (cell (2 * place path) h).start (2 ^ h)).push
      (cell (2 * place path) h).start
    have small : rest - 2 ^ h < 2 ^ h := by rw [pow_succ] at less; omega
    have joins : rest = 2 ^ h ||| (rest - 2 ^ h) := by
      have sum := Nat.two_pow_add_eq_or_of_lt small 1
      rw [Nat.mul_one] at sum
      omega
    obtain ⟨inLeft, inRight, around, spine⟩ := filling.write_halves joins
    refine ⟨(first.write (2 * index path) (2 ^ h)).write (2 * index path + 1) (rest - 2 ^ h),
      ⟨.right, .leaf .free⟩, rest - 2 ^ h, ?_, ?_⟩
    · rw [initLoop, if_pos ⟨positive, less⟩]
      simp only [halved, exceeds, begin, ← start, Buddy.setSeg, Buddy.push_virtualSize,
        Buddy.setProperty_virtualSize, Buddy.write_virtualSize, left, right, ↓reduceIte,
        bind_eq_bind, bind_some]
      rfl
    · have fresh : ∀ b ∈ aroundCells .free path (h + 1), b.start ≠ (cell (2 * place path) h).start :=
        fun b member => around_start_ne filling.shapedAround member (cell_covers_left _ h)
      have listed : Listed first (cell (2 * place path) h :: aroundCells .free path (h + 1)) :=
        (filling.listed.setProperty fresh).push fresh (by simp)
      exact { filling with
        virtual := by rw [height_cons]; exact filling.virtual
        small := by rw [height_cons]; exact filling.small
        entry := inRight
        positive := by omega
        le := small.le
        unmerged := fun _ _ _ => small
        reaches := by
          change (cell (2 * place path + 1) h).start + (rest - 2 ^ h) = size
          omega
        storedAround := ⟨inLeft, around⟩
        spine := spine _
        shapedAround := ⟨by change (cell (2 * place path) h).stop ≤ size; omega, partly,
          filling.shapedAround⟩
        listed := listed
        sum := by
          have sum := filling.sum
          change total (cell (2 * place path) h :: aroundCells .free path (h + 1)) =
            (cell (2 * place path + 1) h).start
          rw [total_cons, cell_len]
          omega
        usable := fun i low => by simpa [first] using filling.usable i low }
  · -- the right half is out of range
    have joins : rest = rest ||| 0 := (Nat.or_zero rest).symm
    obtain ⟨inLeft, inRight, around, spine⟩ := filling.write_halves joins
    refine ⟨(s.write (2 * index path) rest).write (2 * index path + 1) 0,
      ⟨.left, .leaf .out⟩, rest, ?_, ?_⟩
    · rw [initLoop, if_pos ⟨positive, less⟩]
      simp only [halved, exceeds, Buddy.setSeg, Buddy.write_virtualSize, left, right, ↓reduceIte,
        bind_eq_bind, bind_some]
      rfl
    · exact { filling with
        virtual := by rw [height_cons]; exact filling.virtual
        small := by rw [height_cons]; exact filling.small
        entry := inLeft
        positive := positive
        le := Nat.not_lt.mp exceeds
        unmerged := by simp
        reaches := by
          change (cell (2 * place path) h).start + rest = size
          omega
        storedAround := ⟨inRight, around⟩
        spine := spine _
        shapedAround := ⟨by change size ≤ (cell (2 * place path + 1) h).start; omega, partly,
          filling.shapedAround⟩
        sum := filling.sum.trans start.symm }

/-- The loop ends at a cell that the range fills. -/
theorem initLoop_spec (filling : Filling s origin size path rest h) (enough : h < fuel) :
    ∃ s' inner k, initLoop fuel s (index path) rest (2 ^ h) = some (s', index inner, 2 ^ k) ∧
      Filling s' origin size inner (2 ^ k) k := by
  induction fuel generalizing s path rest h with
  | zero => cases enough
  | succ fuel ih =>
    by_cases less : rest < 2 ^ h
    · cases h with
      | zero =>
        have positive := filling.positive
        omega
      | succ h =>
        obtain ⟨s₁, frame, rest', same, next⟩ := filling.step less fuel
        rw [same]
        exact ih next (by omega)
    · obtain rfl : rest = 2 ^ h := Nat.le_antisymm filling.le (Nat.not_lt.mp less)
      refine ⟨s, path, h, ?_, filling⟩
      rw [initLoop, if_neg (by simp)]

/-- The last free block is listed, and the whole tree is in place. -/
theorem Filling.focused (filling : Filling s origin size path (2 ^ h) h) :
    Focused ((s.setProperty (cell (place path) h).start (2 ^ h)).push (cell (place path) h).start)
      origin size [] [] (plug path (.leaf .free)) (h + path.length) := by
  have fresh : ∀ b ∈ aroundCells .free path h, b.start ≠ (cell (place path) h).start :=
    fun b member => around_start_ne filling.shapedAround member (cell_covers_start ..)
  have listed := (filling.listed.setProperty (n := 2 ^ h) fresh).push fresh (by simp)
  have reaches := filling.reaches
  have fits : (cell (place path) h).stop ≤ size := reaches.le
  have cells : ∀ use, (plug path (.leaf .free)).cells use (place []) (h + path.length) ++
      aroundCells use [] (h + path.length) ~
      (Tree.leaf .free).cells use (place path) h ++ aroundCells use path h := by
    intro use
    simpa [place, aroundCells] using plug_cells use path (.leaf .free) h
  exact { filling with
    stored := stored_plug filling.entry filling.storedAround filling.spine
    storedAround := trivial
    shaped := by
      have apart : mergeAll path (.leaf .free) = plug path (.leaf .free) :=
        mergeAll_eq_plug fun frame head both =>
          Nat.lt_irrefl _ (filling.unmerged frame head both.2)
      have merged := shaped_mergeAll (t := .leaf .free) fits filling.shapedAround
      rwa [apart] at merged
    shapedAround := trivial
    listed := listed.perm (cells .free).symm
    counted := by
      have sum := filling.sum
      rw [total_perm (cells .free)]
      change s.area.nrFree = total (cell (place path) h :: aroundCells .free path h)
      rw [total_cons, cell_len, filling.counted]
      omega
    used := by
      have none := cells .used
      rw [filling.unused] at none
      simpa [Tree.cells] using none
    usable := fun i low => by simpa using filling.usable i low }

/-- On a range of reserved pages of any admissible size `buddy_init_memmap` comes
back, and the managed part of the range is one tree with nothing handed out. -/
theorem buddyInitMemmap_spec (low : 2 ≤ m) (high : m ≤ kmemPages)
    (reserved : ∀ i, base ≤ i → i < base + m → (s.area.pages i).flags.reserved = true) :
    ∃ s' origin size t h, buddyInitMemmap (buddyInit s) base m = some s' ∧
      Focused s' origin size [] [] t h := by
  obtain ⟨h, bound, virtual, segment, -⟩ := initSizes_spec low high
  let size := min (2 ^ h) (m - (initSizes m).2)
  have positive : 0 < size := lt_min (Nat.two_pow_pos h) (by omega)
  let reset : Page → Page := fun page => { page with flags := {}, property := 0 }
  let area : FreeArea := { Pmm.init s.area with pages := mapRange reset base m s.area.pages }
  let s₁ : Buddy := { s with
    area := area, virtualSize := 2 ^ h, segmentSize := (initSizes m).2, allocSize := size
    alloc := base + (initSizes m).2
    segment := fun i => if i < (initSizes m).2 * 1024 then 0 else s.segment i }
  have filling : Filling ((s₁.setNrFree size).write 1 size) (base + (initSizes m).2) size [] size h := {
    alloc := rfl
    allocSize := rfl
    virtual := rfl
    small := bound
    fits := min_le_left ..
    entry := by simp [index]
    positive := positive
    le := min_le_left ..
    unmerged := by simp
    reaches := by simp [cell, place]
    storedAround := trivial
    spine := trivial
    shapedAround := trivial
    listed := ⟨[], List.Perm.refl _, ring_init _ _, by simp [aroundCells]⟩
    sum := by simp [aroundCells, cell, place]
    unused := rfl
    counted := rfl
    usable := by
      intro i less
      have within : base ≤ base + (initSizes m).2 + i ∧ base + (initSizes m).2 + i < base + m := by
        omega
      change (area.pages (base + (initSizes m).2 + i)).flags.reserved = false
      simp only [area, mapRange, within, and_self, ↓reduceIte, reset] }
  obtain ⟨s₂, inner, k, ran, filled⟩ := initLoop_spec filling (Nat.lt_two_pow_self)
  refine ⟨_, _, _, _, _, ?_, filled.focused⟩
  have cleared : initPages (buddyInit s).area base m = some area :=
    forPages_eq_some.mpr ⟨reserved, rfl⟩
  have begin := buddyBegin_index inner filled.virtual filled.small
  have first : 1 < 2 * 2 ^ h := by
    omega
  have nonempty : m ≠ 0 := by omega
  have more : 1 < m := by omega
  simp only [buddyInitMemmap, nonempty, cleared, buddyInitSize, more, virtual, buddyInitSegment,
    ↓reduceIte, bind_eq_bind, bind_some]
  rw [Buddy.setSeg_eq first, bind_some, show area.nrFree = 0 from rfl, Nat.zero_add]
  change (initLoop (2 ^ h) ((s₁.setNrFree size).write 1 size) (index []) size (2 ^ h)).bind _ = _
  rw [ran, bind_some, if_pos (Nat.two_pow_pos k), begin]

/-! ## Runs -/

/-- The states of the manager after boot on the `m` pages from `base` and any
calls made by callers that free only what they hold, with the size they asked
for. The ghost list holds each page handed out and the size asked for. -/
inductive Reachable (start : Buddy) (base m : ℕ) : Buddy → List (ℕ × ℕ) → Prop where
  | boot {s : Buddy} (ran : buddyInitMemmap (buddyInit start) base m = some s) :
      Reachable start base m s []
  | alloc {s s' : Buddy} {live : List (ℕ × ℕ)} {n p : ℕ} (before : Reachable start base m s live)
      (low : 1 ≤ n) (high : n ≤ 2 ^ 31) (ran : buddyAllocPages s n = some (s', some p)) :
      Reachable start base m s' ((p, n) :: live)
  | refuse {s s' : Buddy} {live : List (ℕ × ℕ)} {n : ℕ} (before : Reachable start base m s live)
      (low : 1 ≤ n) (high : n ≤ 2 ^ 31) (ran : buddyAllocPages s n = some (s', none)) :
      Reachable start base m s' live
  | free {s s' : Buddy} {live rest : List (ℕ × ℕ)} {n p : ℕ} (before : Reachable start base m s live)
      (held : live.Perm ((p, n) :: rest)) (ran : buddyFreePages s p n = some s') :
      Reachable start base m s' rest

/-- The block behind a page handed out for `n` pages. -/
def liveBlock (origin : ℕ) (held : ℕ × ℕ) : Block := ⟨held.1 - origin, uint32RoundUp held.2⟩

/-- A block that is held is given back. -/
theorem Focused.give_back {live rest : List (ℕ × ℕ)} {p : ℕ}
    (focused : Focused s s.alloc s.allocSize (live.map (liveBlock s.alloc)) [] t h)
    (held : live ~ (p, n) :: rest) (sane : s.alloc ≤ p ∧ 1 ≤ n ∧ n ≤ 2 ^ 31) :
    ∃ s' t' h', buddyFreePages s p n = some s' ∧
      Focused s' s.alloc s.allocSize (rest.map (liveBlock s.alloc)) [] t' h' := by
  obtain ⟨above, less, more⟩ := sane
  have opened : Focused s s.alloc s.allocSize
      (liveBlock s.alloc (p, n) :: rest.map (liveBlock s.alloc)) [] t h :=
    { focused with used := focused.used.trans (held.map _) }
  have page : s.alloc + (liveBlock s.alloc (p, n)).start = p := by
    simp only [liveBlock]
    omega
  rw [← page]
  exact buddyFreePages_spec opened (show n ≠ 0 by omega) more rfl

/-- Every state of a run has its tree. -/
theorem Reachable.focused {start : Buddy} {live : List (ℕ × ℕ)} (low : 2 ≤ m) (high : m ≤ kmemPages)
    (reserved : ∀ i, base ≤ i → i < base + m → (start.area.pages i).flags.reserved = true)
    (reached : Reachable start base m s live) :
    (∃ t h, Focused s s.alloc s.allocSize (live.map (liveBlock s.alloc)) [] t h) ∧
      ∀ held ∈ live, s.alloc ≤ held.1 ∧ 1 ≤ held.2 ∧ held.2 ≤ 2 ^ 31 := by
  induction reached with
  | boot ran =>
    obtain ⟨s₁, origin, size, t, h, booted, focused⟩ := buddyInitMemmap_spec low high reserved
    rw [booted] at ran
    cases ran
    refine ⟨⟨t, h, ?_⟩, by simp⟩
    rw [focused.alloc, focused.allocSize]
    exact focused
  | @alloc s s' live n p before less more ran ih =>
    obtain ⟨⟨t, h, focused⟩, sane⟩ := ih
    obtain ⟨-, refused⟩ | ⟨s₁, path, k, granted, length, -, -, -, focused'⟩ :=
      buddyAllocPages_spec focused (by omega) more
    · rw [refused] at ran
      cases ran
    · rw [granted] at ran
      cases ran
      rw [focused'.alloc, focused'.allocSize]
      refine ⟨⟨plug path (.leaf .used), k + path.length, ?_⟩,
        forall_mem_cons.mpr ⟨⟨Nat.le_add_right _ _, less, more⟩, sane⟩⟩
      rw [map_cons, liveBlock, length, Nat.add_sub_cancel_left]
      exact focused'
  | refuse before less more ran ih =>
    obtain ⟨⟨t, h, focused⟩, sane⟩ := ih
    obtain ⟨-, refused⟩ | ⟨s₁, path, k, granted, -⟩ :=
      buddyAllocPages_spec focused (by omega) more
    · rw [refused] at ran
      cases ran
      exact ⟨⟨t, h, focused⟩, sane⟩
    · rw [granted] at ran
      cases ran
  | @free s s' live rest n p before held ran ih =>
    obtain ⟨⟨t, h, focused⟩, sane⟩ := ih
    obtain ⟨s₁, t', h', freed, focused'⟩ :=
      focused.give_back held (sane (p, n) (held.mem_iff.mpr (mem_cons_self ..)))
    rw [ran] at freed
    cases freed
    rw [focused'.alloc, focused'.allocSize]
    exact ⟨⟨t', h', focused'⟩, fun other member =>
      sane other (held.mem_iff.mpr (mem_cons_of_mem _ member))⟩

/-! ## The invariant in the source's terms -/

/-- A cell that is neither a free block nor a live block nor out of range. -/
def Halved (s : Buddy) (free live : List Block) (a : ℕ) : Prop :=
  node s a ∉ free ∧ node s a ∉ live ∧ s.buddyBegin a < s.allocSize

section Nodes

variable {free : List Block}

/-- A listed cell in focus is a leaf of its use. -/
theorem Focused.leaf_of_mem {use : Use} (focused : Focused s origin size live path t h)
    (member : cell (place path) h ∈ t.cells use (place path) h ++ aroundCells use path h) :
    t = .leaf use := by
  rcases mem_append.mp member with member | member
  · exact cells_full focused.shaped member
  · have own := cell_covers_start (place path) h
    exact absurd own ((around_beside focused.shapedAround member).not_covers own)

/-- A cell in focus that is halved in the source's terms is halved in the tree. -/
theorem Focused.split_of_halved (focused : Focused s origin size live path t h)
    (listed : free ~ t.cells .free (place path) h ++ aroundCells .free path h)
    (halved : Halved s free live (index path)) : ∃ left right, t = .split left right := by
  obtain ⟨notFree, notLive, inside⟩ := halved
  rw [node_index path focused.virtual focused.small] at notFree notLive
  rw [buddyBegin_index path focused.virtual focused.small, focused.allocSize] at inside
  cases t with
  | split left right => exact ⟨left, right, rfl⟩
  | leaf use =>
    cases use with
    | free => exact absurd (listed.mem_iff.mpr (by simp [Tree.cells])) notFree
    | used => exact absurd (focused.used.mem_iff.mp (by simp [Tree.cells])) notLive
    | out => exact absurd focused.shaped (Nat.not_le.mpr inside)

/-- A cell whose ancestors are all halved can be brought into focus. -/
theorem Focused.reach {H d r : ℕ} (focused : Focused s origin size live [] t H)
    (listed : free ~ t.cells .free (place []) H ++ aroundCells .free [] H)
    (above : d ≤ H) (small : r < 2 ^ d)
    (ancestors : ∀ e, 1 ≤ e → 1 ≤ (2 ^ d + r) / 2 ^ e → Halved s free live ((2 ^ d + r) / 2 ^ e)) :
    ∃ (path : Path) (u : Tree), index path = 2 ^ d + r ∧ path.length = d ∧ plug path u = t ∧
      Focused s origin size live path u (H - d) ∧
      free ~ u.cells .free (place path) (H - d) ++ aroundCells .free path (H - d) := by
  induction d generalizing r with
  | zero =>
    obtain rfl : r = 0 := by simpa using small
    exact ⟨[], t, rfl, rfl, rfl, focused, listed⟩
  | succ d ih =>
    have half : (2 ^ (d + 1) + r) / 2 = 2 ^ d + r / 2 := by
      omega
    have next : ∀ e, (2 ^ d + r / 2) / 2 ^ e = (2 ^ (d + 1) + r) / 2 ^ (e + 1) := by
      intro e
      rw [← half, Nat.div_div_eq_div_mul, pow_succ' 2 e]
    obtain ⟨path, u, number, length, whole, opened, listed'⟩ := ih (by omega) (r := r / 2)
      (by rw [pow_succ] at small; omega) (fun e low positive => by
        rw [next] at positive ⊢
        exact ancestors (e + 1) (by omega) positive)
    have parent : Halved s free live (index path) := by
      have here := ancestors 1 (Nat.le_refl 1)
      rw [pow_one, half, ← number] at here
      exact here (index_pos path)
    obtain ⟨left, right, rfl⟩ := opened.split_of_halved listed' parent
    obtain ⟨k, height⟩ : ∃ k, H - d = k + 1 := ⟨H - d - 1, by omega⟩
    have lower : H - (d + 1) = k := by omega
    rw [height] at opened listed'
    rw [lower]
    have bit : r = 2 * (r / 2) ∨ r = 2 * (r / 2) + 1 := by omega
    rcases bit with even | odd
    · refine ⟨⟨.left, right⟩ :: path, left, ?_, by simp [length], whole, Focused.down opened,
        listed'.trans (cells_focus .free ⟨.left, right⟩ path left k)⟩
      simp only [index, Side.bit, number]
      omega
    · refine ⟨⟨.right, left⟩ :: path, right, ?_, by simp [length], whole, Focused.down opened,
        listed'.trans (cells_focus .free ⟨.right, left⟩ path right k)⟩
      simp only [index, Side.bit, number]
      omega

/-- What `buddy_segment` holds for a cell whose ancestors are all halved. -/
theorem Focused.entries {H a : ℕ} (focused : Focused s origin size live [] t H)
    (listed : free ~ t.cells .free (place []) H ++ aroundCells .free [] H)
    (positive : 1 ≤ a) (bound : a < 2 * s.virtualSize)
    (ancestors : ∀ e, 1 ≤ e → 1 ≤ a / 2 ^ e → Halved s free live (a / 2 ^ e)) :
    (node s a ∈ free → s.segment a = s.buddyLength a) ∧
      (node s a ∈ live ∨ s.allocSize ≤ s.buddyBegin a → s.segment a = 0) ∧
      (Halved s free live a →
        a < s.virtualSize ∧ s.segment a = s.segment (2 * a) ||| s.segment (2 * a + 1)) := by
  obtain ⟨d, r, rfl, small⟩ := exists_leading (show a ≠ 0 by omega)
  have virtual : s.virtualSize = 2 ^ H := focused.virtual
  have above := depth_le virtual bound
  obtain ⟨path, u, number, length, -, opened, listed'⟩ := focused.reach listed above small ancestors
  have cellHere := node_index path opened.virtual opened.small
  have begin := buddyBegin_index path opened.virtual opened.small
  have value := opened.stored.value
  rw [← number]
  refine ⟨?_, ?_, ?_⟩
  · intro member
    rw [cellHere, listed'.mem_iff] at member
    rw [value, opened.leaf_of_mem member, buddyLength_index path opened.virtual opened.small]
    rfl
  · rintro (member | outside)
    · rw [cellHere, ← opened.used.mem_iff] at member
      rw [value, opened.leaf_of_mem member]
      rfl
    · rw [begin, opened.allocSize] at outside
      rw [value]
      cases u with
      | leaf use =>
        have fits := opened.shaped
        have width := Nat.two_pow_pos (H - d)
        cases use with
        | free =>
          simp only [Shaped, Block.stop, cell_len] at fits
          omega
        | used => rfl
        | out => rfl
      | split left right => exact absurd opened.shaped.2.1 (Nat.not_lt.mpr outside)
  · intro halved
    obtain ⟨left, right, rfl⟩ := opened.split_of_halved listed' halved
    refine ⟨?_, opened.stored.1⟩
    have lower : d < H := by
      have := opened.shaped.1
      omega
    have grows : 2 ^ (d + 1) ≤ 2 ^ H := Nat.pow_le_pow_right (by decide) lower
    omega

section

variable (focused : Focused s origin size live [] t H)
  (listed : free ~ t.cells .free (place []) H ++ aroundCells .free [] H) (positive : 1 ≤ a)
include focused listed positive

/-- The two halves of a cell are never both free blocks. -/
theorem Focused.siblings (bound : a < s.virtualSize) :
    ¬ (node s (2 * a) ∈ free ∧ node s (2 * a + 1) ∈ free) := by
  rintro ⟨left, right⟩
  obtain ⟨r, k, -, first, second⟩ := exists_halves focused.virtual focused.small positive bound
  simp only [aroundCells, append_nil] at listed
  rw [first, listed.mem_iff] at left
  rw [second, listed.mem_iff] at right
  exact not_both_free focused.shaped left right

/-- Two states of one tree agree on every cell whose ancestors are all halved. -/
theorem Focused.entries_eq {live' : List Block}
    (focused' : Focused s' origin size live' [] t H) (bound : a < 2 * s.virtualSize)
    (ancestors : ∀ e, 1 ≤ e → 1 ≤ a / 2 ^ e → Halved s free live (a / 2 ^ e)) :
    s'.segment a = s.segment a := by
  obtain ⟨d, r, rfl, small⟩ := exists_leading (show a ≠ 0 by omega)
  have above : d ≤ H := depth_le focused.virtual bound
  obtain ⟨path, u, number, length, rfl, opened, -⟩ := focused.reach listed above small ancestors
  have height : H = H - d + path.length := by omega
  rw [height] at focused'
  rw [← number, opened.stored.value, focused'.down_path.stored.value]

end

/-- A page of the range is free or handed out, and not both. -/
theorem Focused.covered_iff (focused : Focused s origin size live [] t h) :
    Covered (t.cells .free (place []) h) i ↔ i < size ∧ ¬ Covered live i := by
  have used : t.cells .used (place []) h ~ live := by simpa [aroundCells] using focused.used
  constructor
  · rintro ⟨b, member, covers⟩
    refine ⟨covers.2.trans_le (cells_stop_le focused.shaped (by decide) member), ?_⟩
    rintro ⟨c, inLive, also⟩
    exact (cells_beside focused.shaped (by decide) member (used.mem_iff.mpr inLive)).not_covers
      covers also
  · rintro ⟨below, unused⟩
    have whole : (cell (place []) h).Covers i := by
      have fits := focused.fits
      have virtual : s.virtualSize = 2 ^ h := focused.virtual
      simp only [Block.Covers, Block.stop, cell, place]
      omega
    refine (cells_cover focused.shaped whole below).resolve_right ?_
    rintro ⟨b, member, covers⟩
    exact unused ⟨b, used.mem_iff.mp member, covers⟩

end Nodes

/-- For every admissible range the buddy manager boots, and in every state of a
run from there: live and free blocks are disjoint, of power-of-two length,
aligned to it, and together exactly the managed range; `buddy_segment` holds for
every cell whose ancestors are all halved its length if it is a free block, 0 if
it is live or out of range, and the join of its halves' entries if it is halved;
two halves are never both free; the free list holds exactly the free blocks with
their lengths, which add up to `nr_free`; and no call runs into `assert(0)`, an
index out of bounds or an endless loop. -/
theorem buddy_invariant {start : Buddy} {base m : ℕ} (low : 2 ≤ m) (high : m ≤ kmemPages)
    (reserved : ∀ i, base ≤ i → i < base + m → (start.area.pages i).flags.reserved = true) :
    (buddyInitMemmap (buddyInit start) base m).isSome ∧
    ∀ s held, Reachable start base m s held →
      ∃ free live : List Block, live = held.map (liveBlock s.alloc) ∧
        (free ++ live).Pairwise Beside ∧
        (∀ b ∈ free ++ live, (∃ k, b.len = 2 ^ k) ∧ b.len ∣ b.start ∧ b.stop ≤ s.allocSize) ∧
        (∀ i < s.allocSize, Covered (free ++ live) i) ∧
        (∀ a, 1 ≤ a → a < 2 * s.virtualSize →
          (∀ e, 1 ≤ e → 1 ≤ a / 2 ^ e → Halved s free live (a / 2 ^ e)) →
          (node s a ∈ free → s.segment a = s.buddyLength a) ∧
          (node s a ∈ live ∨ s.allocSize ≤ s.buddyBegin a → s.segment a = 0) ∧
          (Halved s free live a →
            a < s.virtualSize ∧ s.segment a = s.segment (2 * a) ||| s.segment (2 * a + 1))) ∧
        (∀ a, 1 ≤ a → a < s.virtualSize →
          ¬ (node s (2 * a) ∈ free ∧ node s (2 * a + 1) ∈ free)) ∧
        Ring s.area.links .freeList (free.map fun b => s.link b.start) ∧
        (∀ b ∈ free, s.property b.start = b.len) ∧
        s.area.nrFree = (free.map fun b => s.property b.start).sum ∧
        (∀ n, 1 ≤ n → n ≤ 2 ^ 31 → (buddyAllocPages s n).isSome) ∧
        ∀ p n, (p, n) ∈ held → (buddyFreePages s p n).isSome := by
  refine ⟨?_, ?_⟩
  · obtain ⟨s', -, -, -, -, booted, -⟩ := buddyInitMemmap_spec low high reserved
    simp [booted]
  intro s held reached
  obtain ⟨⟨t, h, focused⟩, sane⟩ := reached.focused low high reserved
  obtain ⟨free, listed, ring, lengths⟩ := focused.listed
  have freeCells : free ~ t.cells .free (place []) h := by simpa [aroundCells] using listed
  have liveCells : held.map (liveBlock s.alloc) ~ t.cells .used (place []) h := by
    simpa [aroundCells] using focused.used.symm
  have lengths' : ∀ b ∈ free, s.property b.start = b.len :=
    fun b member => lengths b (listed.mem_iff.mp member)
  have symm : ∀ {a b : Block}, Beside a b → Beside b a := fun beside => beside.symm
  refine ⟨free, _, rfl, ?_, ?_, ?_, ?_, ?_, ring, lengths', ?_, ?_, ?_⟩
  · refine pairwise_append.mpr ⟨?_, ?_, ?_⟩
    · exact (freeCells.pairwise_iff symm).mpr (cells_pairwise focused.shaped)
    · exact (liveCells.pairwise_iff symm).mpr (cells_pairwise focused.shaped)
    · intro b inFree c inLive
      exact cells_beside focused.shaped (by decide) (freeCells.mem_iff.mp inFree)
        (liveCells.mem_iff.mp inLive)
  · have shapes : ∀ use ≠ Use.out, ∀ b ∈ t.cells use (place []) h,
        (∃ k, b.len = 2 ^ k) ∧ b.len ∣ b.start ∧ b.stop ≤ s.allocSize := by
      intro use inside b member
      obtain ⟨k, place, rfl, -⟩ := cells_aligned member
      exact ⟨⟨k, rfl⟩, Dvd.intro_left _ rfl, cells_stop_le focused.shaped inside member⟩
    intro b member
    rcases mem_append.mp member with member | member
    · exact shapes .free (by decide) b (freeCells.mem_iff.mp member)
    · exact shapes .used (by decide) b (liveCells.mem_iff.mp member)
  · intro i below
    rw [covered_append, or_iff_not_imp_right]
    intro unused
    obtain ⟨b, member, covers⟩ := focused.covered_iff.mpr ⟨below, unused⟩
    exact ⟨b, freeCells.mem_iff.mpr member, covers⟩
  · exact fun a positive bound => focused.entries listed positive bound
  · exact fun a positive bound => focused.siblings listed positive bound
  · have sums : free.map (fun b => s.property b.start) = free.map Block.len :=
      map_congr_left lengths'
    rw [focused.counted, total_perm listed.symm, sums]
    rfl
  · intro n less more
    obtain ⟨-, refused⟩ | ⟨s', path, k, granted, -⟩ :=
      buddyAllocPages_spec focused (by omega) more
    · simp [refused]
    · simp [granted]
  · intro p n member
    obtain ⟨s', t', h', freed, -⟩ := focused.give_back (perm_cons_erase member) (sane (p, n) member)
    simp [freed]

/-- Six pages before boot, all of them still reserved. -/
def sixPages : Buddy where
  area := {
    pages := fun _ => { flags := { reserved := true } }
    npage := 6
    links := ⟨id, id⟩
    nrFree := 0
    npage_le := by decide }
  virtualSize := 0
  segmentSize := 0
  allocSize := 0
  segment := fun _ => 0
  alloc := 0

/-- Of six pages one holds the segment; the run that hands out two of the other
five. -/
theorem buddy_invariant_six_pages :
    ∃ s, Reachable sixPages 0 6 s [(1, 2)] ∧
      ∃ free : List Block,
        (free ++ [(⟨0, 2⟩ : Block)]).Pairwise Beside ∧
        ∀ i < 5, Covered (free ++ [(⟨0, 2⟩ : Block)]) i := by
  have invariant : (buddyInitMemmap (buddyInit sixPages) 0 6).isSome ∧ _ :=
    buddy_invariant (by decide) (by decide) (fun _ _ _ => rfl)
  have boot : Reachable sixPages 0 6 _ [] := .boot rfl
  have alloc : Reachable sixPages 0 6 _ [(1, 2)] := .alloc boot (by decide) (by decide) rfl
  obtain ⟨free, live, same, apart, -, covered, -⟩ := invariant.2 _ _ alloc
  subst same
  exact ⟨_, alloc, free, apart, covered⟩

/-! ## Completeness -/

/-- Every request gets a block exactly if some free block is as long as the least
power of two that holds it. The block has that length, is aligned to it and was
free; freeing it leads back to the same free blocks, the same entries for every
cell whose ancestors are all halved and the same `nr_free`. -/
theorem buddy_alloc_complete {start : Buddy} {base m : ℕ} {held : List (ℕ × ℕ)} (low : 2 ≤ m)
    (high : m ≤ kmemPages)
    (reserved : ∀ i, base ≤ i → i < base + m → (start.area.pages i).flags.reserved = true)
    (reached : Reachable start base m s held) (positive : 1 ≤ n) (fits : n ≤ 2 ^ 31) :
    ∃ free, Listed s free ∧
      ((∃ s', buddyAllocPages s n = some (s', none)) ↔ ¬ ∃ b ∈ free, 2 ^ Nat.clog 2 n ≤ b.len) ∧
      ((∃ b ∈ free, 2 ^ Nat.clog 2 n ≤ b.len) →
        ∃ (s' : Buddy) (b : Block), buddyAllocPages s n = some (s', some (s.alloc + b.start)) ∧
          b.len = 2 ^ Nat.clog 2 n ∧ b.len ∣ b.start ∧ (∀ i, b.Covers i → Covered free i) ∧
          (∃ rest, Listed s' rest ∧ ∀ i, Covered rest i ↔ Covered free i ∧ ¬ b.Covers i) ∧
          ∃ s'', buddyFreePages s' (s.alloc + b.start) n = some s'' ∧ s''.alloc = s.alloc ∧
            Listed s'' free ∧ s''.area.nrFree = s.area.nrFree ∧
            ∀ a, 1 ≤ a → a < 2 * s.virtualSize →
              (∀ e, 1 ≤ e → 1 ≤ a / 2 ^ e →
                Halved s free (held.map (liveBlock s.alloc)) (a / 2 ^ e)) →
              s''.segment a = s.segment a) := by
  obtain ⟨⟨t, h, focused⟩, -⟩ := reached.focused low high reserved
  have listed := focused.listed
  simp only [aroundCells, append_nil] at listed
  have order := uint32RoundUp_eq_clog (show n ≠ 0 by omega) fits
  refine ⟨_, listed, ?_⟩
  rw [← le_value_iff, ← order]
  obtain ⟨small, refused⟩ | ⟨s', path, k, granted, length, room, before, height, focused'⟩ :=
    buddyAllocPages_spec focused (by omega) fits
  · simp [refused, small]
  have listed' := focused'.listed
  have used := focused'.used
  simp only [aroundCells, append_nil] at listed' used
  have inside := cells_stop_le focused'.shaped (by decide) (used.mem_iff.mpr (mem_cons_self ..))
  have apart := (used.pairwise_iff fun beside => Beside.symm beside).mp (cells_pairwise focused'.shaped)
  have covers : n ≤ 2 ^ k := by
    rw [← length, order]
    exact Nat.le_pow_clog Nat.one_lt_two n
  obtain ⟨s'', freed, back⟩ := buddyFreePages_path focused' (by omega) covers length
  rw [before, height] at back
  refine ⟨by simp [granted, length, room], fun _ => ⟨s', cell (place path) k, granted, length.symm,
    Dvd.intro_left _ rfl, fun i own => ?_, ⟨_, listed', fun i => ?_⟩, s'', freed, back.alloc, ?_, ?_, ?_⟩⟩
  · refine focused.covered_iff.mpr ⟨own.2.trans_le inside, ?_⟩
    rintro ⟨c, member, also⟩
    exact (rel_of_pairwise_cons apart member).not_covers own also
  · rw [focused'.covered_iff, focused.covered_iff, covered_cons]
    tauto
  · simpa [aroundCells] using back.listed
  · exact back.counted.trans focused.counted.symm
  · exact fun a positive bound => focused.entries_eq (by simp [aroundCells]) positive back bound

/-- Three of the five pages left after boot are asked for: four are handed out, and
given back. -/
theorem buddy_alloc_complete_three :
    ∃ (s s' s'' : Buddy) (b : Block), Reachable sixPages 0 6 s [] ∧
      buddyAllocPages s 3 = some (s', some (s.alloc + b.start)) ∧ b.len = 2 ^ Nat.clog 2 3 ∧
      buddyFreePages s' (s.alloc + b.start) 3 = some s'' ∧ s''.area.nrFree = s.area.nrFree := by
  have boot : Reachable sixPages 0 6 _ [] := .boot rfl
  obtain ⟨free, -, refused, granted⟩ :=
    buddy_alloc_complete (by decide) (by decide) (fun _ _ _ => rfl) boot (n := 3) (by decide) (by decide)
  have room : ∃ b ∈ free, 2 ^ Nat.clog 2 3 ≤ b.len := by
    by_contra none
    obtain ⟨s', ran⟩ := refused.mpr none
    cases congrArg (Option.map Prod.snd) ran
  obtain ⟨s', b, ran, length, -, -, -, s'', freed, -, -, count, -⟩ := granted room
  exact ⟨_, s', s'', b, boot, ran, length, freed, count⟩

/-! ## Sizes and node numbers -/

/-- The interval of a node and those of its halves. -/
structure IsHalved (s : Buddy) (k : ℕ) : Prop where
  left : s.buddyBegin (2 * k) = s.buddyBegin k
  middle : s.buddyEnd (2 * k) = s.buddyBegin (2 * k + 1)
  right : s.buddyEnd (2 * k + 1) = s.buddyEnd k
  even : s.buddyLength (2 * k) = s.buddyLength (2 * k + 1)

section

variable (virtual : s.virtualSize = 2 ^ H) (small : H < 31) (positive : 1 ≤ a)
include virtual small positive

theorem buddyBlock_ends (bound : a < 2 * s.virtualSize) :
    s.buddyBlock (s.buddyBegin a) (s.buddyEnd a) = a := by
  obtain ⟨d, r, rfl, less⟩ := exists_leading (show a ≠ 0 by omega)
  obtain ⟨h, rfl⟩ := Nat.exists_eq_add_of_le' (depth_le virtual bound)
  have here := node_eq virtual small less
  rw [buddyEnd_eq, show s.buddyBegin (2 ^ d + r) = (node s (2 ^ d + r)).start from rfl, here]
  exact buddyBlock_cell virtual

theorem isHalved (bound : a < s.virtualSize) : IsHalved s a := by
  obtain ⟨r, h, whole, left, right⟩ := exists_halves virtual small positive bound
  obtain ⟨start, middle, stop⟩ := cell_halves r h
  rw [← whole, ← left] at start
  rw [← left, ← right] at middle
  rw [← right, ← whole] at stop
  refine ⟨start, (buddyEnd_eq ..).trans middle, ?_, ?_⟩
  · rw [buddyEnd_eq, buddyEnd_eq, stop]
  · exact (congrArg Block.len left).trans (congrArg Block.len right).symm

end

/-- `buddy_init_size` gives a tree that fits, and the macros number its nodes. -/
theorem buddy_sizes :
    (∀ n s, 2 ≤ n → n ≤ kmemPages → ∃ s', buddyInitSize s n = some s' ∧
      (∃ h, s'.virtualSize = 2 ^ h) ∧ 2 * s'.virtualSize * 4 ≤ s'.segmentSize * 4096 ∧
      s'.segmentSize + s'.allocSize ≤ n ∧ 1 ≤ s'.allocSize ∧ s'.allocSize ≤ s'.virtualSize ∧
      (512 ≤ n → s'.virtualSize ≠ uint32RoundDown n →
        min (uint32RoundDown n) (n - uint32RoundDown n * 4 * 2 / 4096) < s'.allocSize) ∧
      ∀ k, 1 ≤ k → k < 2 * s'.virtualSize → s'.buddyBlock (s'.buddyBegin k) (s'.buddyEnd k) = k ∧
        (k < s'.virtualSize → IsHalved s' k)) ∧
    ∀ a, 1 ≤ a → a ≤ 2 ^ 31 → IsLeast {p | (∃ k, p = 2 ^ k) ∧ a ≤ p} (uint32RoundUp a) ∧
      IsGreatest {p | (∃ k, p = 2 ^ k) ∧ p ≤ a} (uint32RoundDown a) := by
  refine ⟨fun n s low high => ?_, fun a positive fits => ⟨?_, ?_⟩⟩
  · obtain ⟨h, small, virtual, rest, fits, doubled⟩ := initSizes_spec low high
    refine ⟨_, if_pos low, ⟨h, virtual⟩, fits, ?_, ?_, min_le_left .., doubled, fun k first last => ?_⟩
    · dsimp only
      omega
    · exact le_min (by rw [virtual]; exact Nat.one_le_two_pow) (by omega)
    · exact ⟨buddyBlock_ends virtual small first last, isHalved virtual small first⟩
  · rw [uint32RoundUp_eq_clog (by omega) fits]
    refine ⟨⟨⟨_, rfl⟩, Nat.le_pow_clog Nat.one_lt_two a⟩, ?_⟩
    rintro _ ⟨⟨k, rfl⟩, above⟩
    exact Nat.pow_le_pow_right (by decide) (Nat.clog_le_of_le_pow above)
  · obtain ⟨d, r, rfl, less⟩ := exists_leading (show a ≠ 0 by omega)
    have low : d < 32 := (Nat.pow_lt_pow_iff_right Nat.one_lt_two).mp (show 2 ^ d < 2 ^ 32 by omega)
    rw [uint32RoundDown_node less low]
    refine ⟨⟨⟨d, rfl⟩, Nat.le_add_right _ _⟩, ?_⟩
    rintro _ ⟨⟨k, rfl⟩, below⟩
    have high : 2 ^ k < 2 ^ (d + 1) := by rw [pow_succ]; omega
    exact Nat.pow_le_pow_right (by decide) (Nat.le_of_lt_succ ((Nat.pow_lt_pow_iff_right Nat.one_lt_two).mp high))

/-- A leaf has no halves. -/
theorem buddy_leaf_not_halved :
    ∃ s, buddyInitSize sixPages 4 = some s ∧ 4 < 2 * s.virtualSize ∧ ¬ IsHalved s 4 := by
  refine ⟨_, rfl, by decide, fun halved => ?_⟩
  have right := halved.right
  revert right
  decide

end LiNos.BuddyPmm
