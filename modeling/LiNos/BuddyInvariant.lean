import LiNos.BuddyPmm
import LiNos.BuddyTree

/-!
The buddy manager against buddy trees.

`Focused` ties the manager's state to a tree with one cell in focus: the
entries of `buddy_segment` below the focus and beside the path to the root are
those of the tree, while the ancestors' own entries may be out of date. The
walks of `buddy_alloc_pages` and `buddy_free_pages` move the focus down and up;
each move is one lemma, each walk an induction over it. Between calls the focus
is the root.
-/

namespace LiNos.BuddyPmm

open CircularList Pmm Bits BuddyTree Function List Option
open Blocks hiding place split
open scoped List

variable {a k n d r h i : ℕ}

/-! ## Macros on what they are used for -/

theorem uint32Remainder_eq (positive : a ≠ 0) (fits : a < 2 ^ 32) :
    uint32Remainder a = a % 2 ^ Nat.log 2 a := by
  have smeared : Smeared a 32 (uint32Mask a) :=
    (smeared_self a).shrOr.shrOr.shrOr.shrOr.shrOr
  rw [uint32Remainder, smeared.shiftRight_one positive fits, Nat.and_two_pow_sub_one_eq_mod]

/-- Without its leading bit the number of a cell is its place. -/
theorem uint32Remainder_node (small : r < 2 ^ d) (fits : d < 32) :
    uint32Remainder (2 ^ d + r) = r := by
  have width : 2 ^ d + r < 2 ^ 32 := calc
    2 ^ d + r < 2 ^ (d + 1) := by rw [pow_succ]; omega
    _ ≤ 2 ^ 32 := Nat.pow_le_pow_right (by decide) fits
  have positive : 2 ^ d + r ≠ 0 := by
    have := Nat.two_pow_pos d
    omega
  have leading : Nat.log 2 (2 ^ d + r) = d :=
    Nat.log_eq_of_pow_le_of_lt_pow (by omega) (by rw [pow_succ]; omega)
  rw [uint32Remainder_eq positive width, leading, Nat.add_mod_left, Nat.mod_eq_of_lt small]

theorem uint32RoundDown_node (small : r < 2 ^ d) (fits : d < 32) :
    uint32RoundDown (2 ^ d + r) = 2 ^ d := by
  rw [uint32RoundDown, uint32Remainder_node small fits]
  by_cases zero : r = 0 <;> simp [zero]

/-- A number between two powers of two, by its leading bit and the rest. -/
theorem exists_leading (positive : n ≠ 0) : ∃ d r, n = 2 ^ d + r ∧ r < 2 ^ d := by
  have low : 2 ^ Nat.log 2 n ≤ n := Nat.pow_log_le_self 2 positive
  have high : n < 2 ^ (Nat.log 2 n + 1) := Nat.lt_pow_succ_log_self Nat.one_lt_two n
  rw [pow_succ] at high
  exact ⟨Nat.log 2 n, n - 2 ^ Nat.log 2 n, by omega, by omega⟩

/-- Up to `2 ^ 31` the macro finds the next power of two. -/
theorem uint32RoundUp_eq (positive : n ≠ 0) (fits : n ≤ 2 ^ 31) :
    ∃ k, uint32RoundUp n = 2 ^ k ∧ n ≤ 2 ^ k ∧ 2 ^ k < 2 * n := by
  obtain ⟨d, r, rfl, small⟩ := exists_leading positive
  have low : d < 32 := by
    have bound : 2 ^ d < 2 ^ 32 := by omega
    exact (Nat.pow_lt_pow_iff_right Nat.one_lt_two).mp bound
  rw [uint32RoundUp, uint32Remainder_node small low]
  by_cases zero : r = 0
  · exact ⟨d, by simp [zero], by simp [zero], by omega⟩
  · have lower : d < 31 := by
      have bound : 2 ^ d < 2 ^ 31 := by omega
      exact (Nat.pow_lt_pow_iff_right Nat.one_lt_two).mp bound
    refine ⟨d + 1, ?_, by rw [pow_succ]; omega, by rw [pow_succ]; omega⟩
    have doubled : 2 ^ d * 2 < 2 ^ 32 := by
      have bound : 2 ^ (d + 1) < 2 ^ 32 := Nat.pow_lt_pow_right Nat.one_lt_two (by omega)
      rwa [pow_succ] at bound
    simp only [ne_eq, zero, not_false_eq_true, ↓reduceIte, Nat.add_sub_cancel,
      Nat.shiftLeft_eq, pow_succ]
    exact Nat.mod_eq_of_lt doubled

theorem uint32RoundUp_eq_clog (positive : n ≠ 0) (fits : n ≤ 2 ^ 31) :
    uint32RoundUp n = 2 ^ Nat.clog 2 n := by
  obtain ⟨k, rounded, above, below⟩ := uint32RoundUp_eq positive fits
  have low : Nat.clog 2 n ≤ k := Nat.clog_le_of_le_pow above
  have high : k < Nat.clog 2 n + 1 := by
    refine (Nat.pow_lt_pow_iff_right Nat.one_lt_two).mp ?_
    have reaches := Nat.le_pow_clog Nat.one_lt_two n
    rw [pow_succ]
    omega
  rw [rounded, Nat.le_antisymm low (Nat.le_of_lt_succ high)]

variable {s : Buddy} {path : Path}

/-- The cell that `BUDDY_BEGIN` and `BUDDY_LENGTH` describe. -/
def node (s : Buddy) (a : ℕ) : Block := ⟨s.buddyBegin a, s.buddyLength a⟩

theorem node_eq (virtual : s.virtualSize = 2 ^ (h + d)) (small : h + d < 31) (place : r < 2 ^ d) :
    node s (2 ^ d + r) = cell r h := by
  have length : s.buddyLength (2 ^ d + r) = 2 ^ h := by
    rw [Buddy.buddyLength, uint32RoundDown_node place (by omega), virtual, pow_add,
      Nat.mul_div_cancel _ (Nat.two_pow_pos _)]
  simp only [node, Buddy.buddyBegin, length, uint32Remainder_node place (show d < 32 by omega)]
  rfl

theorem buddyEnd_eq (s : Buddy) (a : ℕ) : s.buddyEnd a = (node s a).stop := Nat.succ_mul ..

theorem depth_le {H : ℕ} (virtual : s.virtualSize = 2 ^ H) (bound : 2 ^ d + r < 2 * s.virtualSize) :
    d ≤ H := by
  have grows : 2 ^ d < 2 ^ (H + 1) := by rw [pow_succ]; omega
  exact Nat.le_of_lt_succ ((Nat.pow_lt_pow_iff_right Nat.one_lt_two).mp grows)

/-- A node above the leaves and its halves. -/
theorem exists_halves {H : ℕ} (virtual : s.virtualSize = 2 ^ H) (small : H < 31) (positive : 1 ≤ a)
    (bound : a < s.virtualSize) : ∃ r h, node s a = cell r (h + 1) ∧
      node s (2 * a) = cell (2 * r) h ∧ node s (2 * a + 1) = cell (2 * r + 1) h := by
  obtain ⟨d, r, rfl, less⟩ := exists_leading (show a ≠ 0 by omega)
  have above : d < H := by
    have grows : 2 ^ d < 2 ^ H := by omega
    exact (Nat.pow_lt_pow_iff_right Nat.one_lt_two).mp grows
  obtain ⟨k, rfl⟩ : ∃ k, H = k + (d + 1) := ⟨H - (d + 1), by omega⟩
  have half : ∀ bit < 2, node s (2 * (2 ^ d + r) + bit) = cell (2 * r + bit) k := by
    intro bit either
    rw [show 2 * (2 ^ d + r) + bit = 2 ^ (d + 1) + (2 * r + bit) by rw [pow_succ]; ring]
    exact node_eq virtual small (by rw [pow_succ]; omega)
  refine ⟨r, k, ?_, half 0 (by decide), half 1 (by decide)⟩
  exact node_eq (by rw [virtual]; congr 1; omega) (by omega) less

section

variable (path) (virtual : s.virtualSize = 2 ^ (h + path.length)) (small : h + path.length < 31)
include virtual small

theorem node_index : node s (index path) = cell (place path) h := by
  rw [index_eq]
  exact node_eq virtual small (place_lt path)

theorem buddyLength_index : s.buddyLength (index path) = 2 ^ h :=
  congrArg Block.len (node_index path virtual small)

theorem buddyBegin_index : s.buddyBegin (index path) = (cell (place path) h).start :=
  congrArg Block.start (node_index path virtual small)

theorem buddyEnd_index : s.buddyEnd (index path) = (cell (place path) h).stop := by
  rw [buddyEnd_eq, node_index path virtual small]

end

/-- `BUDDY_BLOCK` finds the number of a cell from its ends. -/
theorem buddyBlock_cell (virtual : s.virtualSize = 2 ^ (h + d)) :
    s.buddyBlock (cell r h).start (cell r h).stop = 2 ^ d + r := by
  have positive := Nat.two_pow_pos h
  rw [Buddy.buddyBlock, Block.stop, Nat.add_sub_cancel_left, virtual, cell_len, pow_add,
    Nat.mul_div_cancel_left _ positive]
  simp only [cell]
  rw [Nat.mul_div_cancel _ positive]

/-! ## The free list -/

/-- The free list holds the blocks `bs`, in some order, each with its length in
`property`. -/
def Listed (s : Buddy) (bs : List Block) : Prop :=
  ∃ order : List Block, order.Perm bs ∧
    Ring s.area.links .freeList (order.map fun b => s.link b.start) ∧
    ∀ b ∈ bs, s.property b.start = b.len

section Lists

variable {b blk : Block} {bs cs : List Block}

theorem Listed.perm (listed : Listed s bs) (permuted : bs.Perm cs) : Listed s cs := by
  obtain ⟨order, perm, ring, property⟩ := listed
  exact ⟨order, perm.trans permuted, ring, fun b member => property b (permuted.mem_iff.mpr member)⟩

theorem Listed.unlink (listed : Listed s (b :: bs)) : Listed (s.unlink b.start) bs := by
  obtain ⟨order, perm, ring, property⟩ := listed
  obtain ⟨xs, ys, rfl⟩ := append_of_mem (perm.mem_iff.mpr (mem_cons_self ..))
  have rest : (xs ++ ys).Perm bs := (perm_middle.symm.trans perm).cons_inv
  refine ⟨xs ++ ys, rest, ?_, fun c member => property c (mem_cons_of_mem _ member)⟩
  rw [map_append, map_cons] at ring
  rw [map_append]
  exact ring_listDel ring

theorem Listed.setProperty (listed : Listed s bs) (other : ∀ b ∈ bs, b.start ≠ i) :
    Listed (s.setProperty i n) bs := by
  obtain ⟨order, perm, ring, property⟩ := listed
  refine ⟨order, perm, ring, ?_⟩
  intro b member
  simpa [Buddy.property, Buddy.setProperty, other b member] using property b member

theorem Listed.push (listed : Listed s bs) (fresh : ∀ b ∈ bs, b.start ≠ blk.start)
    (length : s.property blk.start = blk.len) : Listed (s.push blk.start) (blk :: bs) := by
  obtain ⟨order, perm, ring, property⟩ := listed
  refine ⟨blk :: order, perm.cons _, ?_, ?_⟩
  · rw [map_cons]
    refine ring_listAdd ring ?_
    intro member
    rcases mem_cons.mp member with same | member
    · cases same
    · obtain ⟨b, inOrder, same⟩ := mem_map.mp member
      exact fresh b (perm.mem_iff.mp inOrder) (by simpa [Buddy.link, Buddy.push] using same)
  · intro b member
    rcases mem_cons.mp member with rfl | member
    · exact length
    · exact property b member

end Lists

/-! ## The state and the tree -/

/-- The manager's state with the cell at `path`, of height `h`, in focus and the
tree `t` in it. `origin` is `buddy_alloc`, `size` is `buddy_alloc_size`, `live`
holds the blocks handed out. -/
structure Focused (s : Buddy) (origin size : ℕ) (live : List Block) (path : Path) (t : Tree)
    (h : ℕ) : Prop where
  alloc : s.alloc = origin
  allocSize : s.allocSize = size
  virtual : s.virtualSize = 2 ^ (h + path.length)
  small : h + path.length < 31
  fits : size ≤ s.virtualSize
  stored : Stored s.segment (index path) t h
  storedAround : StoredAround s.segment path h
  shaped : Shaped size t (place path) h
  shapedAround : ShapedAround size path h
  listed : Listed s (t.cells .free (place path) h ++ aroundCells .free path h)
  counted : s.area.nrFree = total (t.cells .free (place path) h ++ aroundCells .free path h)
  used : (t.cells .used (place path) h ++ aroundCells .used path h).Perm live
  usable : ∀ i < size, (s.area.pages (origin + i)).flags.reserved = false

section Focus

variable {s s' : Buddy} {origin size fuel : ℕ} {live : List Block} {path : Path} {t : Tree}
  {frame : Frame}

theorem total_perm {bs cs : List Block} (permuted : bs.Perm cs) : total bs = total cs :=
  (permuted.map Block.len).sum_eq

/-- The focus can move to one half of a halved cell. -/
theorem Focused.down (focused : Focused s origin size live path (frame.fill t) (h + 1)) :
    Focused s origin size live (frame :: path) t h := by
  obtain ⟨shaped, shapedSibling, partly⟩ := shaped_unfill focused.shaped
  obtain ⟨stored, storedSibling⟩ := stored_unfill focused.stored
  exact { focused with
    virtual := height_cons h frame path ▸ focused.virtual
    small := height_cons h frame path ▸ focused.small
    stored := stored
    storedAround := ⟨storedSibling, focused.storedAround⟩
    shaped := shaped
    shapedAround := ⟨shapedSibling, partly, focused.shapedAround⟩
    listed := focused.listed.perm (cells_focus .free frame path t h)
    counted := focused.counted.trans (total_perm (cells_focus .free frame path t h))
    used := (cells_focus .used frame path t h).symm.trans focused.used }

/-- The focus can move to the other half. -/
theorem Focused.turn (focused : Focused s origin size live (frame :: path) t h) :
    Focused s origin size live (⟨frame.side.other, t⟩ :: path) frame.sibling h := by
  have swapped : ∀ use, t.cells use (place (frame :: path)) h ++ aroundCells use (frame :: path) h ~
      frame.sibling.cells use (siblingPlace frame path) h ++
        aroundCells use (⟨frame.side.other, t⟩ :: path) h := by
    obtain ⟨_ | _, sibling⟩ := frame <;> exact fun use => perm_append_comm_assoc ..
  obtain ⟨storedSibling, storedRest⟩ := focused.storedAround
  obtain ⟨shapedSibling, partly, shapedRest⟩ := focused.shapedAround
  exact { focused with
    stored := storedSibling
    storedAround := by obtain ⟨_ | _, sibling⟩ := frame <;> exact ⟨focused.stored, storedRest⟩
    shaped := shapedSibling
    shapedAround := by
      obtain ⟨_ | _, sibling⟩ := frame <;> exact ⟨focused.shaped, partly, shapedRest⟩
    listed := focused.listed.perm (swapped .free)
    counted := focused.counted.trans (total_perm (swapped .free))
    used := (swapped .used).symm.trans focused.used }

/-- From the root the focus can move to the end of any path of the tree. -/
theorem Focused.down_path (focused : Focused s origin size live [] (plug path t) (h + path.length)) :
    Focused s origin size live path t h := by
  induction path generalizing t h with
  | nil => exact focused
  | cons frame rest ih =>
    rw [height_cons] at focused
    exact (ih focused).down

section

variable (focused : Focused s origin size live path t h)
include focused

/-- The number of the focus is a valid index, and so are those of the halves of
an ancestor. -/
theorem Focused.index_lt :
    index path < 2 * s.virtualSize := by
  have bound := BuddyTree.index_lt path
  have grows : 2 ^ path.length ≤ 2 ^ (h + path.length) :=
    Nat.pow_le_pow_right (by decide) (by omega)
  rw [focused.virtual]
  rw [pow_succ] at bound
  omega

theorem Focused.length_lt :
    path.length < s.virtualSize := by
  rw [focused.virtual]
  exact lt_of_le_of_lt (Nat.le_add_left _ _) Nat.lt_two_pow_self

theorem Focused.seg :
    s.seg (index path) = some (t.value h) := by
  rw [Buddy.seg_eq focused.index_lt, focused.stored.value]

end

theorem halves_lt (virtual : s.virtualSize = 2 ^ (h + 1 + path.length)) :
    2 * index path + 1 < 2 * s.virtualSize := by
  have bound := BuddyTree.index_lt path
  have grows : 2 ^ (path.length + 1) ≤ 2 ^ (h + 1 + path.length) :=
    Nat.pow_le_pow_right (by decide) (by omega)
  omega

theorem Focused.ancestor_lt (focused : Focused s origin size live (frame :: path) t h) :
    2 * index path + 1 < 2 * s.virtualSize :=
  halves_lt (height_cons h frame path ▸ focused.virtual)

/-- A write at the focus or below it stays clear of the trees around it. -/
theorem storedAround_update {seg : ℕ → ℕ} {value : ℕ} (stored : StoredAround seg path h)
    (under : Under (index path) i) : StoredAround (update seg i value) path h :=
  stored.congr fun _ outside => update_of_ne (fun same => outside (by rwa [same])) _ _

/-- `buddy_segment[block] = left | right` brings the focus up one level. -/
theorem Focused.joinHalves (focused : Focused s origin size live (frame :: path) t h)
    (unmerged : ¬ (t = .leaf .free ∧ frame.sibling = .leaf .free)) :
    ∃ s', joinHalves s (index path) = some s' ∧
      Focused s' origin size live path (frame.fill t) (h + 1) := by
  have bound := focused.ancestor_lt
  have positive := index_pos path
  obtain ⟨storedSibling, storedRest⟩ := focused.storedAround
  obtain ⟨shapedSibling, partly, shapedRest⟩ := focused.shapedAround
  let value := s.segment (2 * index path) ||| s.segment (2 * index path + 1)
  have apart : ∀ bit, ∀ i, Under (2 * index path + bit) i →
      update s.segment (index path) value i = s.segment i := by
    intro bit i under
    refine update_of_ne ?_ _ _
    rintro rfl
    exact not_under_of_lt (by omega) under
  refine ⟨s.write (index path) value, ?_, ?_⟩
  · simp only [BuddyPmm.joinHalves, Buddy.seg_eq bound, bind_eq_bind, bind_some,
      Buddy.seg_eq (show 2 * index path < 2 * s.virtualSize by omega)]
    exact Buddy.setSeg_eq (by omega)
  · exact { focused with
      virtual := height_cons h frame path ▸ focused.virtual
      small := height_cons h frame path ▸ focused.small
      stored := by
        refine stored_fill (focused.stored.congr (apart _)) (storedSibling.congr (apart _)) ?_
        rw [Buddy.write_segment, update_self, update_of_ne (by omega), update_of_ne (by omega)]
      storedAround := storedAround_update storedRest (under_self _)
      shaped := shaped_fill focused.shaped shapedSibling partly unmerged
      shapedAround := shapedRest
      listed := focused.listed.perm (cells_focus .free frame path t h).symm
      counted := focused.counted.trans (total_perm (cells_focus .free frame path t h).symm)
      used := (cells_focus .used frame path t h).trans focused.used }

/-- The walk of `buddy_alloc_pages` back to the root. -/
theorem updateUp_spec (focused : Focused s origin size live path t h) (taken : t ≠ .leaf .free)
    (enough : path.length < fuel) :
    ∃ s', updateUp fuel s (index path) = some s' ∧
      Focused s' origin size live [] (plug path t) (h + path.length) := by
  induction fuel generalizing s t h path with
  | zero => cases enough
  | succ fuel ih =>
    cases path with
    | nil => exact ⟨s, rfl, focused⟩
    | cons frame rest =>
      obtain ⟨s₁, joined, up⟩ := focused.joinHalves fun both => taken both.1
      obtain ⟨s', ran, root⟩ := ih up (fill_ne_leaf frame t) (by simpa using enough)
      rw [updateUp, if_neg (index_ne_one frame rest), index_div_two, height_cons]
      exact ⟨s', by simp [joined, ran], root⟩

/-- The free block in focus is handed out. -/
theorem Focused.take (focused : Focused s origin size live path (.leaf .free) h) :
    Focused (((s.unlink (cell (place path) h).start).write (index path) 0).setNrFree
        (s.area.nrFree - 2 ^ h))
      origin size (cell (place path) h :: live) path (.leaf .used) h :=
  { focused with
    stored := update_self ..
    storedAround := storedAround_update focused.storedAround (under_self _)
    listed := Listed.unlink focused.listed
    counted := by
      have counted := focused.counted
      exact Nat.sub_eq_of_eq_add' counted
    used := focused.used.cons _ }

theorem cell_covers_start (r h : ℕ) : (cell r h).Covers (cell r h).start :=
  ⟨Nat.le_refl _, Nat.lt_add_of_pos_right (Nat.two_pow_pos h)⟩

/-- The block in focus comes back: its first page is marked and listed again. -/
theorem Focused.release (focused : Focused s origin size (cell (place path) h :: live) path
      (.leaf .used) h) (property : s.property (cell (place path) h).start = 2 ^ h) :
    Focused (((s.push (cell (place path) h).start).setNrFree (s.area.nrFree + 2 ^ h)).write
        (index path) (2 ^ h))
      origin size live path (.leaf .free) h :=
  { focused with
    stored := update_self ..
    storedAround := storedAround_update focused.storedAround (under_self _)
    listed := focused.listed.push
      (fun b member => around_start_ne focused.shapedAround member (cell_covers_start ..)) property
    counted := by
      exact (congrArg (· + 2 ^ h) focused.counted).trans (Nat.add_comm ..)
    used := focused.used.cons_inv }

/-- The middle of a cell is where its right half starts. -/
theorem cell_middle (r h : ℕ) :
    ((cell r (h + 1)).start + (cell r (h + 1)).stop) >>> 1 = (cell (2 * r + 1) h).start := by
  have double : r * 2 ^ (h + 1) + (r * 2 ^ (h + 1) + 2 ^ (h + 1)) = (2 * r + 1) * 2 ^ h * 2 := by
    rw [pow_succ]
    ring
  simp only [Nat.shiftRight_eq_div_pow, pow_one, cell, Block.stop]
  rw [double, Nat.mul_div_cancel _ (by decide)]

theorem covers_of_within {b : Block} (within : Within (cell r h) b) : b.Covers (cell r h).start :=
  ⟨within.1, lt_of_lt_of_le (cell_covers_start ..).2 within.2⟩

theorem cell_covers_left (r h : ℕ) : (cell r (h + 1)).Covers (cell (2 * r) h).start :=
  covers_of_within (within_left r h)

theorem cell_covers_right (r h : ℕ) : (cell r (h + 1)).Covers (cell (2 * r + 1) h).start :=
  covers_of_within (within_right r h)

theorem halves_start_ne (r h : ℕ) : (cell (2 * r + 1) h).start ≠ (cell (2 * r) h).start := by
  obtain ⟨-, middle, -⟩ := cell_halves r h
  rw [← middle]
  exact (Nat.lt_add_of_pos_right (Nat.two_pow_pos h)).ne'

theorem two_pow_halved (h : ℕ) : 2 ^ (h + 1) >>> 1 = 2 ^ h := by
  rw [Nat.shiftRight_eq_div_pow, pow_succ, pow_one, Nat.mul_div_cancel _ (by decide)]

/-- The `// Split` branch halves the free block in focus and moves on to its
left half. -/
theorem Focused.splitBlock (focused : Focused s origin size live path (.leaf .free) (h + 1)) :
    ∃ s', splitBlock s (index path) = some s' ∧
      Focused s' origin size live (⟨.left, .leaf .free⟩ :: path) (.leaf .free) h := by
  have start := (cell_halves (place path) h).1
  have positive := index_pos path
  have bound := halves_lt focused.virtual
  have stored : s.segment (index path) = 2 ^ (h + 1) := focused.stored
  have listed := focused.listed
  have property := listed.choose_spec.2.2 _ (mem_cons_self ..)
  have outside : ∀ i, (cell (place path) (h + 1)).Covers i →
      ∀ b ∈ aroundCells .free path (h + 1), b.start ≠ i :=
    fun i inside b member => around_start_ne focused.shapedAround member inside
  have halved := two_pow_halved h
  let left := cell (2 * place path) h
  let right := cell (2 * place path + 1) h
  let s₃ := ((s.unlink left.start).setProperty left.start (2 ^ h)).setProperty right.start (2 ^ h)
  let s₅ := (s₃.write (2 * index path) (2 ^ h)).write (2 * index path + 1) (2 ^ h)
  refine ⟨(s₅.push left.start).push right.start, ?_, ?_⟩
  · have height := focused.virtual
    have low := focused.small
    have first : ((s.unlink left.start).property left.start) >>> 1 = 2 ^ h := by
      rw [Buddy.unlink_property, start, property, cell_len, halved]
    have here : index path < 2 * s.virtualSize := by omega
    have below : 2 * index path < 2 * s.virtualSize := by omega
    have other : index path ≠ 2 * index path := by omega
    simp only [BuddyPmm.splitBlock, buddyBegin_index path height low, buddyEnd_index path height low,
      cell_middle]
    rw [← start, first]
    simp only [Buddy.seg, Buddy.setSeg, Buddy.setProperty_property, Buddy.setProperty_virtualSize,
      Buddy.unlink_virtualSize, Buddy.write_virtualSize, Buddy.setProperty_segment,
      Buddy.unlink_segment, Buddy.write_segment, update_of_ne other, here, below, bound,
      stored, halved, ↓reduceIte, bind_eq_bind, bind_some]
    rfl
  · have reset : Listed s₅ (aroundCells .free path (h + 1)) := by
      have gone := listed.unlink
      rw [← start] at gone
      refine (gone.setProperty ?_).setProperty ?_
      · exact outside _ (cell_covers_left _ h)
      · exact outside _ (cell_covers_right _ h)
    have pushedLeft : Listed (s₅.push left.start) (left :: aroundCells .free path (h + 1)) := by
      refine reset.push (outside _ (cell_covers_left _ h)) ?_
      simp [s₅, s₃, left, right]
    have pushed : Listed ((s₅.push left.start).push right.start)
        (right :: left :: aroundCells .free path (h + 1)) := by
      refine pushedLeft.push ?_ (by simp [s₅, s₃, left, right])
      exact forall_mem_cons.mpr ⟨(halves_start_ne _ h).symm, outside _ (cell_covers_right _ h)⟩
    have whole : (cell (place path) (h + 1)).stop ≤ size := focused.shaped
    exact { focused with
      virtual := by rw [height_cons]; exact focused.virtual
      small := by rw [height_cons]; exact focused.small
      stored := by
        change s₅.segment (2 * index path) = 2 ^ h
        simp [s₅]
      storedAround := by
        refine ⟨update_self .., ?_⟩
        exact storedAround_update (storedAround_update focused.storedAround (under_self (2 * index path)).left)
          (under_self (2 * index path + 1)).right
      shaped := (within_left _ h).2.trans whole
      shapedAround := by
        refine ⟨(within_right _ h).2.trans whole, ?_, focused.shapedAround⟩
        exact lt_of_lt_of_le (Nat.lt_add_of_pos_right (Nat.two_pow_pos _)) whole
      listed := pushed.perm (List.Perm.swap ..)
      counted := by
        have counted := focused.counted
        simp only [Tree.cells, ↓reduceIte, singleton_append, total_cons, cell_len,
          pow_succ] at counted
        simp only [Tree.cells, aroundCells, ↓reduceIte, singleton_append, total_cons, cell_len]
        change s.area.nrFree = _
        omega
      usable := fun i low => by simpa [s₅, s₃] using focused.usable i low }

/-- The `// Merge` branch joins two free halves and brings the focus up. -/
theorem Focused.mergeHalves (focused : Focused s origin size live (frame :: path) (.leaf .free) h)
    (both : frame.sibling = .leaf .free) :
    ∃ s', mergeHalves s (index path) = some s' ∧
      Focused s' origin size live path (.leaf .free) (h + 1) := by
  have bound := focused.ancestor_lt
  have start := (cell_halves (place path) h).1
  have outside : ∀ b ∈ aroundCells .free path (h + 1), b.start ≠ (cell (2 * place path) h).start :=
    fun b member => around_start_ne focused.shapedAround.2.2 member (cell_covers_left _ h)
  let left := cell (2 * place path) h
  let right := cell (2 * place path + 1) h
  obtain ⟨side, sibling⟩ := frame
  obtain rfl : sibling = .leaf .free := both
  -- both halves are free, whichever of them is in focus
  have halves : (Tree.leaf .free).cells .free (place (⟨side, .leaf .free⟩ :: path)) h ++
      aroundCells .free (⟨side, .leaf .free⟩ :: path) h ~
        left :: right :: aroundCells .free path (h + 1) := by
    cases side with
    | left => exact .refl _
    | right => exact List.Perm.swap ..
  have entry : s.segment (2 * index path) = 2 ^ h := by
    cases side with
    | left => exact focused.stored
    | right => exact focused.storedAround.1
  have doubled : 2 ^ h <<< 1 = 2 ^ (h + 1) := by rw [Nat.shiftLeft_eq, pow_one, pow_succ]
  let s₂ := ((s.unlink left.start).unlink right.start).write (index path) (2 ^ (h + 1))
  refine ⟨(s₂.setProperty left.start (2 ^ (h + 1))).push left.start, ?_, ?_⟩
  · have here : index path < 2 * s.virtualSize := by omega
    have below : 2 * index path < 2 * s.virtualSize := by omega
    have other : 2 * index path ≠ index path := by
      have positive := index_pos path
      omega
    have leftBegin : s.buddyBegin (2 * index path) = left.start :=
      buddyBegin_index (⟨.left, .leaf .free⟩ :: path) focused.virtual focused.small
    have rightBegin : s.buddyBegin (2 * index path + 1) = right.start :=
      buddyBegin_index (⟨.right, .leaf .free⟩ :: path) focused.virtual focused.small
    simp only [BuddyPmm.mergeHalves, leftBegin, rightBegin]
    simp only [Buddy.seg, Buddy.setSeg, Buddy.unlink_virtualSize, Buddy.write_virtualSize,
      Buddy.unlink_segment, Buddy.write_segment, update_of_ne other, here, below, entry,
      doubled, ↓reduceIte, bind_eq_bind, bind_some]
    rfl
  · have listed : Listed s₂ (aroundCells .free path (h + 1)) := (focused.listed.perm halves).unlink.unlink
    have pushed : Listed ((s₂.setProperty left.start (2 ^ (h + 1))).push left.start)
        (cell (place path) (h + 1) :: aroundCells .free path (h + 1)) := by
      rw [start] at outside
      rw [show left.start = (cell (place path) (h + 1)).start from start]
      exact (listed.setProperty outside).push outside (by simp)
    obtain ⟨shapedSibling, partly, shapedRest⟩ := focused.shapedAround
    have sum : total (left :: right :: aroundCells .free path (h + 1)) =
        2 ^ (h + 1) + total (aroundCells .free path (h + 1)) := by
      simp only [total_cons, left, right, cell_len, pow_succ]
      ring
    exact { focused with
      virtual := by rw [← height_cons h ⟨side, .leaf .free⟩]; exact focused.virtual
      small := by rw [← height_cons h ⟨side, .leaf .free⟩]; exact focused.small
      stored := update_self ..
      storedAround := storedAround_update focused.storedAround.2 (under_self _)
      shaped := shaped_merge focused.shaped shapedSibling partly
      shapedAround := shapedRest
      listed := pushed
      counted := (focused.counted.trans (total_perm halves)).trans sum
      usable := fun i low => by simpa [s₂] using focused.usable i low }

/-- `BUDDY_EMPTY` tells whether a cell is one free block. -/
theorem Focused.buddyEmpty (focused : Focused s origin size live path t h) :
    s.buddyEmpty (index path) = some (decide (t = .leaf .free)) := by
  have full := value_eq_iff focused.shaped
  rw [Buddy.buddyEmpty, focused.seg,
    buddyLength_index path focused.virtual focused.small, map_some, some.injEq,
    Bool.eq_iff_iff, beq_iff_eq, decide_eq_true_eq]
  exact full

/-- `BUDDY_EMPTY(left) && BUDDY_EMPTY(right)`, for the halves of the ancestor. -/
theorem Focused.halves_empty (focused : Focused s origin size live (frame :: path) t h) :
    ∃ left right, s.buddyEmpty (2 * index path) = some left ∧
      s.buddyEmpty (2 * index path + 1) = some right ∧
      (left && right) = decide (t = .leaf .free ∧ frame.sibling = .leaf .free) := by
  have focus := focused.buddyEmpty
  have sibling := focused.turn.buddyEmpty
  obtain ⟨_ | _, beside⟩ := frame
  · exact ⟨_, _, focus, sibling, (Bool.decide_and ..).symm⟩
  · exact ⟨_, _, sibling, focus, (Bool.and_comm ..).trans (Bool.decide_and ..).symm⟩

/-- The walk of `buddy_free_pages` back to the root. -/
theorem mergeUp_spec (focused : Focused s origin size live path t h) (enough : path.length < fuel) :
    ∃ s', mergeUp fuel s (index path) = some s' ∧
      Focused s' origin size live [] (mergeAll path t) (h + path.length) := by
  induction fuel generalizing s t h path with
  | zero => cases enough
  | succ fuel ih =>
    cases path with
    | nil => exact ⟨s, rfl, focused⟩
    | cons frame rest =>
      obtain ⟨left, right, readLeft, readRight, same⟩ := focused.halves_empty
      obtain ⟨s₁, stepped, up⟩ : ∃ s₁, (if t = .leaf .free ∧ frame.sibling = .leaf .free then
          mergeHalves s (index rest) else joinHalves s (index rest)) = some s₁ ∧
          Focused s₁ origin size live rest (frame.merge t) (h + 1) := by
        unfold Frame.merge
        split_ifs with both
        · rw [both.1] at focused
          exact focused.mergeHalves both.2
        · exact focused.joinHalves both
      obtain ⟨s', ran, root⟩ := ih up (by simpa using enough)
      rw [mergeUp, if_neg (index_ne_one frame rest), index_div_two, height_cons]
      simp only [readLeft, readRight, same, bind_eq_bind, bind_some, decide_eq_true_eq]
      refine ⟨s', ?_, root⟩
      split at stepped <;> simp [*]

/-- The walk of `buddy_alloc_pages` down to a block: as long as the entry of the
cell in focus is not below the length, some half can be entered, and the walk
ends at a free block of exactly the length. Merging from there leads back to the
tree before. -/
theorem findBlock_spec (focused : Focused s origin size live path t h) (fits : 2 ^ k ≤ t.value h)
    (enough : h < fuel) :
    ∃ s' inner, findBlock (2 ^ k) fuel s (index path) = some (s', index inner) ∧
      Focused s' origin size live inner (.leaf .free) k ∧
      mergeAll inner (.leaf .free) = mergeAll path t ∧ k + inner.length = h + path.length := by
  induction fuel generalizing s path t h with
  | zero => cases enough
  | succ fuel ih =>
    have length := buddyLength_index path focused.virtual focused.small
    by_cases less : 2 ^ k < 2 ^ h
    · have lower := (Nat.pow_lt_pow_iff_right Nat.one_lt_two).mp less
      obtain ⟨h, rfl⟩ : ∃ m, h = m + 1 := ⟨h - 1, by omega⟩
      simp only [findBlock, focused.seg, length, fits, less, focused.buddyEmpty,
        bind_eq_bind, bind_some, and_self, ↓reduceIte]
      cases t with
      | leaf use =>
        cases use with
        | free =>
          obtain ⟨s₁, halved, left⟩ := focused.splitBlock
          simp only [halved, decide_true, ↓reduceIte, bind_some]
          rw [← height_cons h ⟨.left, .leaf .free⟩]
          exact ih left (Nat.pow_le_pow_right (by decide) (Nat.le_of_lt_succ lower)) (by omega)
        | used => exact absurd fits (Nat.not_le.mpr (Nat.two_pow_pos k))
        | out => exact absurd fits (Nat.not_le.mpr (Nat.two_pow_pos k))
      | split left right =>
        have unmerged := focused.shaped.2.2.1
        have focusLeft : Focused s origin size live (⟨.left, right⟩ :: path) left h :=
          Focused.down focused
        have focusRight : Focused s origin size live (⟨.right, left⟩ :: path) right h :=
          Focused.down focused
        have readLeft : s.seg (2 * index path) = some (left.value h) := focusLeft.seg
        have readRight : s.seg (2 * index path + 1) = some (right.value h) := focusRight.seg
        have wholeLeft : mergeAll (⟨.left, right⟩ :: path) left = mergeAll path (.split left right) :=
          mergeAll_fill unmerged
        have wholeRight : mergeAll (⟨.right, left⟩ :: path) right = mergeAll path (.split left right) :=
          mergeAll_fill fun both => unmerged both.symm
        simp only [readLeft, readRight, reduceCtorEq, decide_false, Bool.false_eq_true, ↓reduceIte,
          bind_some]
        rw [← height_cons h ⟨.left, right⟩]
        -- whichever test succeeds, the half entered has a block that is long enough
        split_ifs with meetsLeft meetsRight fitsLeft fitsRight
        · exact wholeLeft ▸ ih focusLeft (two_pow_le_of_and meetsLeft) (by omega)
        · exact wholeRight ▸ ih focusRight (two_pow_le_of_and meetsRight) (by omega)
        · exact wholeLeft ▸ ih focusLeft fitsLeft (by omega)
        · exact wholeRight ▸ ih focusRight fitsRight (by omega)
        · exact absurd ((two_pow_le_or fits).resolve_left fitsLeft) fitsRight
    · have low := value_le t h
      obtain rfl : k = h := Nat.pow_right_injective (Nat.le_refl 2) (show 2 ^ k = 2 ^ h by omega)
      obtain rfl := (value_eq_iff focused.shaped).mp (by omega)
      exact ⟨s, path, by simp [findBlock, focused.seg, length], focused, rfl, rfl⟩

end Focus

end LiNos.BuddyPmm
