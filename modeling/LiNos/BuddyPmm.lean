import LiNos.Bits
import LiNos.FreeArea

/-!
The buddy physical memory manager (buddy_pmm.c).

`buddy_segment` is a heap-ordered array over the cells of the managed range; a
page is its index in `pages`, and `buddy_alloc[i]` is page `alloc + i`. An access
to `buddy_segment` at `2 * buddy_virtual_size` or above does not come back, as a
failed assertion does not: both are `none`. Sizes are plain numbers except where
a macro shifts out of 32 bits.
-/

namespace LiNos.BuddyPmm

open CircularList Pmm Bits

/-! ## Bitwise macros -/

/-- `UINT32_MASK(a)` -/
def uint32Mask (a : ℕ) : ℕ := shrOr (shrOr (shrOr (shrOr (shrOr a 1) 2) 4) 8) 16

/-- `UINT32_REMAINDER(a)` -/
def uint32Remainder (a : ℕ) : ℕ := a &&& (uint32Mask a >>> 1)

/-- `UINT32_ROUND_UP(a)` -/
def uint32RoundUp (a : ℕ) : ℕ :=
  if uint32Remainder a ≠ 0 then ((a - uint32Remainder a) <<< 1) % 2 ^ 32 else a

/-- `UINT32_ROUND_DOWN(a)` -/
def uint32RoundDown (a : ℕ) : ℕ :=
  if uint32Remainder a ≠ 0 then a - uint32Remainder a else a

/-! ## State -/

/-- The globals of buddy_pmm.c. `buddy_physical` and `buddy_physical_size` are
only read by the self-checks. -/
structure Buddy where
  area : FreeArea
  virtualSize : ℕ
  segmentSize : ℕ
  allocSize : ℕ
  segment : ℕ → ℕ
  /-- `buddy_alloc` -/
  alloc : ℕ

namespace Buddy

variable (s : Buddy)

/-- `BUDDY_LENGTH(a)` -/
def buddyLength (a : ℕ) : ℕ := s.virtualSize / uint32RoundDown a

/-- `BUDDY_BEGIN(a)` -/
def buddyBegin (a : ℕ) : ℕ := uint32Remainder a * s.buddyLength a

/-- `BUDDY_END(a)` -/
def buddyEnd (a : ℕ) : ℕ := (uint32Remainder a + 1) * s.buddyLength a

/-- `BUDDY_BLOCK(a, b)` -/
def buddyBlock (a b : ℕ) : ℕ := s.virtualSize / (b - a) + a / (b - a)

/-- Reading `buddy_segment[i]`. -/
def seg (i : ℕ) : Option ℕ := if i < 2 * s.virtualSize then some (s.segment i) else none

@[simps -fullyApplied] def write (i value : ℕ) : Buddy := { s with segment := Function.update s.segment i value }

/-- `buddy_segment[i] = value` -/
def setSeg (i value : ℕ) : Option Buddy :=
  if i < 2 * s.virtualSize then some (s.write i value) else none

/-- `BUDDY_EMPTY(a)` -/
def buddyEmpty (a : ℕ) : Option Bool := (s.seg a).map fun value => value == s.buddyLength a

/-- `buddy_alloc[i].property` -/
def property (i : ℕ) : ℕ := (s.area.pages (s.alloc + i)).property

/-- `buddy_alloc[i].property = n` -/
@[simps -fullyApplied virtualSize segment] def setProperty (i n : ℕ) : Buddy := { s with area := s.area.setProperty (s.alloc + i) n }

/-- `&(buddy_alloc[i].page_link)` -/
def link (i : ℕ) : Entry := .pageLink (s.alloc + i)

/-- `list_add(&free_list, &(buddy_alloc[i].page_link))` -/
@[simps -fullyApplied virtualSize segment] def push (i : ℕ) : Buddy :=
  { s with area := s.area.setLinks (listAdd s.area.links .freeList (s.link i)) }

/-- `list_del(&(buddy_alloc[i].page_link))` -/
@[simps -fullyApplied virtualSize segment] def unlink (i : ℕ) : Buddy :=
  { s with area := s.area.setLinks (listDel s.area.links (s.link i)) }

/-- `nr_free = n` -/
@[simps -fullyApplied virtualSize segment] def setNrFree (n : ℕ) : Buddy := { s with area := { s.area with nrFree := n } }

section Fields

variable {s} {i j n value : ℕ}

theorem seg_eq (bound : i < 2 * s.virtualSize) : s.seg i = some (s.segment i) := if_pos bound

theorem setSeg_eq (bound : i < 2 * s.virtualSize) : s.setSeg i value = some (s.write i value) :=
  if_pos bound

@[simp] theorem push_property : (s.push i).property j = s.property j := rfl
@[simp] theorem unlink_property : (s.unlink i).property j = s.property j := rfl
@[simp] theorem write_property : (s.write i value).property j = s.property j := rfl

@[simp] theorem push_pages : (s.push i).area.pages = s.area.pages := rfl
@[simp] theorem unlink_pages : (s.unlink i).area.pages = s.area.pages := rfl

@[simp] theorem setProperty_flags :
    ((s.setProperty i n).area.pages j).flags = (s.area.pages j).flags := by
  simp [setProperty]

@[simp] theorem setProperty_property :
    (s.setProperty i n).property j = if j = i then n else s.property j := by
  simp [setProperty, property]

end Fields

end Buddy

/-! ## `buddy_init_memmap` -/

/-- `buddy_init` -/
def buddyInit (s : Buddy) : Buddy := { s with area := Pmm.init s.area }

/-- The loop of `buddy_init_memmap`; `ref` is kept. -/
def initPages (area : FreeArea) (base n : ℕ) : Option FreeArea :=
  forPages (fun page => page.flags.reserved)
    (fun page => { page with flags := {}, property := 0 }) area base n

/-- `buddy_virtual_size` and `buddy_segment_size` for a range of `n` pages. -/
def initSizes (n : ℕ) : ℕ × ℕ :=
  if n < 512 then (uint32RoundUp (n - 1), 1)
  else
    let virtual := uint32RoundDown n
    let segment := virtual * 4 * 2 / 4096
    if virtual + segment <<< 1 < n then (virtual <<< 1, segment <<< 1) else (virtual, segment)

/-- `buddy_init_size` -/
def buddyInitSize (s : Buddy) (n : ℕ) : Option Buddy :=
  if 1 < n then
    some { s with
      virtualSize := (initSizes n).1
      segmentSize := (initSizes n).2
      allocSize := min (initSizes n).1 (n - (initSizes n).2) }
  else none

/-- `while (alloc_size > 0 && alloc_size < virtual_size)` of
`buddy_init_segment`. -/
def initLoop : ℕ → Buddy → (block allocSize virtualSize : ℕ) → Option (Buddy × ℕ × ℕ)
  | 0, _, _, _, _ => none
  | fuel + 1, s, block, allocSize, virtualSize =>
    if 0 < allocSize ∧ allocSize < virtualSize then do
      let virtualSize := virtualSize >>> 1
      if virtualSize < allocSize then
        let s := (s.setProperty (s.buddyBegin block) virtualSize).push (s.buddyBegin block)
        let s ← s.setSeg (2 * block) virtualSize
        let allocSize := allocSize - virtualSize
        let s ← s.setSeg (2 * block + 1) allocSize
        initLoop fuel s (2 * block + 1) allocSize virtualSize
      else
        let s ← s.setSeg (2 * block) allocSize
        let s ← s.setSeg (2 * block + 1) 0
        initLoop fuel s (2 * block) allocSize virtualSize
    else some (s, block, allocSize)

/-- `buddy_init_segment`. A page holds 1024 entries of `buddy_segment`. The
root's height is below `buddy_virtual_size`, so that many rounds are enough; so
they are in the loops below. -/
def buddyInitSegment (s : Buddy) (base : ℕ) : Option Buddy := do
  let s := { s with
    alloc := base + s.segmentSize
    segment := fun i => if i < s.segmentSize * 1024 then 0 else s.segment i }
  let s := s.setNrFree (s.area.nrFree + s.allocSize)
  let s ← s.setSeg 1 s.allocSize
  let (s, block, allocSize) ← initLoop s.virtualSize s 1 s.allocSize s.virtualSize
  if 0 < allocSize then
    some ((s.setProperty (s.buddyBegin block) allocSize).push (s.buddyBegin block))
  else some s

/-- `buddy_init_memmap(base, n)` -/
def buddyInitMemmap (s : Buddy) (base n : ℕ) : Option Buddy :=
  if n = 0 then none
  else do
    let area ← initPages s.area base n
    let s ← buddyInitSize { s with area := area } n
    buddyInitSegment s base

/-! ## `buddy_alloc_pages` -/

/-- The `// Split` branch: a free block is replaced by its halves. -/
def splitBlock (s : Buddy) (block : ℕ) : Option Buddy := do
  let begin := s.buddyBegin block
  let mid := (begin + s.buddyEnd block) >>> 1
  let s := s.unlink begin
  let s := s.setProperty begin (s.property begin >>> 1)
  let s := s.setProperty mid (s.property begin)
  let s ← s.setSeg (2 * block) ((← s.seg block) >>> 1)
  let s ← s.setSeg (2 * block + 1) ((← s.seg block) >>> 1)
  some ((s.push begin).push mid)

/-- `while (length <= buddy_segment[block] && length < BUDDY_LENGTH(block))` -/
def findBlock (length : ℕ) : ℕ → Buddy → ℕ → Option (Buddy × ℕ)
  | 0, _, _ => none
  | fuel + 1, s, block => do
    if length ≤ (← s.seg block) ∧ length < s.buddyLength block then
      let left := 2 * block
      let right := 2 * block + 1
      if ← s.buddyEmpty block then
        let s ← splitBlock s block
        findBlock length fuel s left
      else if length &&& (← s.seg left) ≠ 0 then findBlock length fuel s left
      else if length &&& (← s.seg right) ≠ 0 then findBlock length fuel s right
      else if length ≤ (← s.seg left) then findBlock length fuel s left
      else if length ≤ (← s.seg right) then findBlock length fuel s right
      else none
    else some (s, block)

/-- `buddy_segment[block] = buddy_segment[BUDDY_LEFT(block)] |
buddy_segment[BUDDY_RIGHT(block)]` -/
def joinHalves (s : Buddy) (block : ℕ) : Option Buddy := do
  s.setSeg block ((← s.seg (2 * block)) ||| (← s.seg (2 * block + 1)))

/-- `while (block != BUDDY_ROOT)` of `buddy_alloc_pages`. -/
def updateUp : ℕ → Buddy → ℕ → Option Buddy
  | 0, _, _ => none
  | fuel + 1, s, block =>
    if block = 1 then some s
    else do
      let block := block / 2
      let s ← joinHalves s block
      updateUp fuel s block

/-- `buddy_alloc_pages(n)` -/
def buddyAllocPages (s : Buddy) (n : ℕ) : Option (Buddy × Option ℕ) :=
  if n = 0 then none
  else do
    let length := uint32RoundUp n
    let (s, block) ← findBlock length s.virtualSize s 1
    if (← s.seg block) < length then some (s, none)
    else
      let begin := s.buddyBegin block
      let s := s.unlink begin
      let s ← s.setSeg block 0
      let s := s.setNrFree (s.area.nrFree - length)
      let s ← updateUp s.virtualSize s block
      some (s, some (s.alloc + begin))

/-! ## `buddy_free_pages` -/

/-- The loop of `buddy_free_pages`. -/
def releasePages (area : FreeArea) (base n : ℕ) : Option FreeArea :=
  forPages (fun page => !page.flags.reserved)
    (fun page => { page with flags := {}, ref := 0 }) area base n

/-- The `// Merge` branch: two free halves are replaced by the whole. -/
def mergeHalves (s : Buddy) (block : ℕ) : Option Buddy := do
  let lbegin := s.buddyBegin (2 * block)
  let rbegin := s.buddyBegin (2 * block + 1)
  let s := (s.unlink lbegin).unlink rbegin
  let s ← s.setSeg block ((← s.seg (2 * block)) <<< 1)
  let s := s.setProperty lbegin ((← s.seg (2 * block)) <<< 1)
  some (s.push lbegin)

/-- `while (block != BUDDY_ROOT)` of `buddy_free_pages`. -/
def mergeUp : ℕ → Buddy → ℕ → Option Buddy
  | 0, _, _ => none
  | fuel + 1, s, block =>
    if block = 1 then some s
    else do
      let block := block / 2
      let empty := (← s.buddyEmpty (2 * block)) && (← s.buddyEmpty (2 * block + 1))
      let s ← if empty then mergeHalves s block else joinHalves s block
      mergeUp fuel s block

/-- `buddy_free_pages(base, n)` -/
def buddyFreePages (s : Buddy) (base n : ℕ) : Option Buddy :=
  if n = 0 then none
  else do
    let length := uint32RoundUp n
    let begin := base - s.alloc
    let block := s.buddyBlock begin (begin + length)
    let area ← releasePages s.area base n
    let s := { s with area := (area.setProperty base length).setPageProperty base true }
    let s := s.push begin
    let s := s.setNrFree (s.area.nrFree + length)
    let s ← s.setSeg block length
    mergeUp s.virtualSize s block

end LiNos.BuddyPmm
