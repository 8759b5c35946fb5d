import Mathlib.Algebra.Order.Ring.Int
import Mathlib.Data.Finset.Basic
import LiNos.CircularList

/-!
Physical frames, page tables and the swap device (pmm.c, swap.c, swap_fifo.c).

Memory is an array of frames of 1024 words of 32 bits; page directories and page
tables are frames like any other, so a stray write to one is visible. A page
directory is named by its frame. The physical memory manager behind
`pmm_manager` is a set of free frames with a rule which of them is handed out
(`Policy`); the list-based managers are such rules.

A function returns `none` when the code panics, fails an assertion, follows a
null pointer or gives back a frame that is free already.
-/

namespace LiNos.Paging

open CircularList Function

/-! ## Constants and addresses -/

def pgSize : ℕ := 4096
def ptSize : ℕ := pgSize * 1024
def pteP : ℕ := 0x001
def pteW : ℕ := 0x002
def pteU : ℕ := 0x004
def pteUser : ℕ := pteU ||| pteW ||| pteP
def kernBase : ℕ := 0xC0000000
def userTop : ℕ := 0xB0000000
def userBase : ℕ := 0x00200000
def vpt : ℕ := 0xFAC00000

def eInval : ℤ := 3
def eNoMem : ℤ := 4

/-- Arithmetic on `uintptr_t` wraps around. -/
def wrap (a : ℕ) : ℕ := a % 2 ^ 32

def pdx (la : ℕ) : ℕ := (la >>> 22) &&& 0x3FF
def ptx (la : ℕ) : ℕ := (la >>> 12) &&& 0x3FF
def ppn (la : ℕ) : ℕ := la >>> 12
def pteAddr (pte : ℕ) : ℕ := pte &&& 0xFFFFF000
def roundDown (a n : ℕ) : ℕ := a - a % n
def roundUp (a n : ℕ) : ℕ := roundDown (wrap (a + n - 1)) n

/-- `USER_ACCESS`. -/
def UserAccess (start stop : ℕ) : Prop := userBase ≤ start ∧ start < stop ∧ stop ≤ userTop

instance (start stop : ℕ) : Decidable (UserAccess start stop) :=
  inferInstanceAs (Decidable (_ ∧ _ ∧ _))

/-! ## The state -/

/-- The link nodes of `pra_list_head`: the head and the `pra_page_link` of each
frame. -/
inductive PraEntry where
  | praListHead
  | praPageLink (page : ℕ)
deriving DecidableEq, Repr

/-- `struct vma_struct`. -/
structure Vma where
  vmStart : ℕ
  vmEnd : ℕ
  vmFlags : ℕ
deriving DecidableEq, Repr

/-- `struct mm_struct`; `mmap` is `mmap_list` from its first entry on. -/
structure Mm where
  mmap : List Vma
  mmapCache : Option Vma
  pgdir : ℕ
  mapCount : ℤ
  smPriv : Option PraEntry
  mmCount : ℤ
deriving DecidableEq, Repr

/-- Memory, the fields of `struct Page` that paging reads, the free frames, the
address spaces and the swap device. -/
structure Kernel where
  npage : ℕ
  mem : ℕ → ℕ → ℕ
  ref : ℕ → ℤ
  free : Finset ℕ
  mms : ℕ → Mm
  bootPgdir : ℕ
  praVaddr : ℕ → ℕ
  praLinks : Links PraEntry
  swapInitOk : Bool
  checkMm : Option ℕ
  maxSwapOffset : ℕ
  disk : ℕ → ℕ → ℕ

namespace Kernel

/-- A word of memory is written. -/
def poke (s : Kernel) (frame i w : ℕ) : Kernel :=
  { s with mem := update s.mem frame (update (s.mem frame) i w) }

/-- A whole frame is written. -/
def fill (s : Kernel) (frame : ℕ) (words : ℕ → ℕ) : Kernel :=
  { s with mem := update s.mem frame words }

/-- `set_page_ref`. -/
def setPageRef (s : Kernel) (page : ℕ) (val : ℤ) : Kernel :=
  { s with ref := update s.ref page val }

def setMm (s : Kernel) (mm : ℕ) (m : Mm) : Kernel :=
  { s with mms := update s.mms mm m }

end Kernel

/-- `pa2page`; also `KADDR` of an address at the start of a frame, which has the
same check. -/
def pa2page (s : Kernel) (pa : ℕ) : Option ℕ := if s.npage ≤ ppn pa then none else some (ppn pa)

def page2pa (page : ℕ) : ℕ := page <<< 12

/-- `pte2page`. -/
def pte2page (s : Kernel) (pte : ℕ) : Option ℕ :=
  if pte &&& pteP = 0 then none else pa2page s (pteAddr pte)

/-! ## The physical memory manager -/

/-- Which free frame `pmm_manager->alloc_pages(1)` hands out. -/
structure Policy where
  pick : Finset ℕ → Option ℕ
  pick_mem : ∀ free f, pick free = some f → f ∈ free
  pick_none : ∀ free, pick free = none → free = ∅

/-- `free_page`; the manager clears the reference count of the frame. -/
def freePage (s : Kernel) (page : ℕ) : Option Kernel :=
  if page ∈ s.free then none
  else some { s with free := insert page s.free, ref := update s.ref page 0 }

/-! ## Page-table lookup -/

/-- A `pte_t *`: the frame and the index of the entry. -/
abbrev PtePtr : Type := ℕ × ℕ

def Kernel.pte (s : Kernel) (ptep : PtePtr) : ℕ := s.mem ptep.1 ptep.2

/-- `get_pte(pgdir, la, 0)`. -/
def findPte (s : Kernel) (pgdir la : ℕ) : Option (Option PtePtr) :=
  if s.mem pgdir (pdx la) &&& pteP = 0 then some none
  else do
    let pt ← pa2page s (pteAddr (s.mem pgdir (pdx la)))
    some (some (pt, ptx la))

/-! ## Swapping out -/

/-- `_fifo_map_swappable`. -/
def fifoMapSwappable (s : Kernel) (mm page : ℕ) : Option Kernel := do
  let head ← (s.mms mm).smPriv
  some { s with praLinks := listAdd s.praLinks head (.praPageLink page) }

/-- `_fifo_swap_out_victim`. -/
def fifoSwapOutVictim (s : Kernel) (mm : ℕ) : Option (Kernel × ℕ) := do
  let head ← (s.mms mm).smPriv
  let le := s.praLinks.prev head
  if le = head then none
  else
    match le with
    | .praListHead => none
    | .praPageLink page => some ({ s with praLinks := listDel s.praLinks le }, page)

/-- The swap entry of the page at `v`. -/
def swapEntry (v : ℕ) : ℕ := wrap ((v / pgSize + 1) <<< 8)

/-- `swap_offset`. -/
def swapOffset (s : Kernel) (entry : ℕ) : Option ℕ :=
  if 0 < entry >>> 8 ∧ entry >>> 8 < s.maxSwapOffset then some (entry >>> 8) else none

/-- `swapfs_write`, on a device that stores what it is given. -/
def swapfsWrite (s : Kernel) (entry page : ℕ) : Option Kernel := do
  let offset ← swapOffset s entry
  some { s with disk := update s.disk offset (s.mem page) }

/-- `swapfs_read`. -/
def swapfsRead (s : Kernel) (entry page : ℕ) : Option Kernel := do
  let offset ← swapOffset s entry
  some (s.fill page (s.disk offset))

/-- `swap_out(mm, n, 0)`. -/
def swapOut (mm : ℕ) : ℕ → Kernel → Option Kernel
  | 0, s => some s
  | n + 1, s => do
    let (s, page) ← fifoSwapOutVictim s mm
    let v := s.praVaddr page
    let found ← findPte s (s.mms mm).pgdir v
    let ptep ← found
    if s.pte ptep &&& pteP = 0 then none
    else
      let s ← swapfsWrite s (swapEntry v) page
      let s := s.poke ptep.1 ptep.2 (swapEntry v)
      let s ← freePage s page
      swapOut mm n s

/-! ## Allocation -/

section Allocation

variable (policy : Policy)

/-- The loop of `alloc_pages(1)`. -/
def allocPagesLoop : ℕ → Kernel → Option (Kernel × Option ℕ)
  | 0, _ => none
  | fuel + 1, s =>
    match policy.pick s.free with
    | some page => some ({ s with free := s.free.erase page }, some page)
    | none =>
      if s.swapInitOk then do
        let mm ← s.checkMm
        let s ← swapOut mm 1 s
        allocPagesLoop fuel s
      else some (s, none)

/-- `alloc_page()`. The second round of the loop finds the frame the first one
swapped out, so there is never a third (`allocPagesLoop_enough`). -/
def allocPage (s : Kernel) : Option (Kernel × Option ℕ) := allocPagesLoop policy 2 s

/-- The entry a page table is installed with. -/
def pdeWord (page : ℕ) : ℕ := page2pa page ||| pteU ||| pteW ||| pteP

/-- The part of `get_pte` that sets up the page table it has allocated. -/
def installTable (s : Kernel) (pgdir la page : ℕ) : Option (Kernel × Option PtePtr) := do
  let s := s.setPageRef page 1
  let pt ← pa2page s (page2pa page)
  let s := s.fill pt fun _ => 0
  let s := s.poke pgdir (pdx la) (pdeWord page)
  let pt ← pa2page s (pteAddr (s.mem pgdir (pdx la)))
  some (s, some (pt, ptx la))

/-- `get_pte(pgdir, la, 1)`. -/
def getPte (s : Kernel) (pgdir la : ℕ) : Option (Kernel × Option PtePtr) :=
  if s.mem pgdir (pdx la) &&& pteP = 0 then do
    match ← allocPage policy s with
    | (s, none) => some (s, none)
    | (s, some page) => installTable s pgdir la page
  else do
    let pt ← pa2page s (pteAddr (s.mem pgdir (pdx la)))
    some (s, some (pt, ptx la))

/-! ## Mapping -/

/-- `get_page`. -/
def getPage (s : Kernel) (pgdir la : ℕ) : Option (Option ℕ) := do
  match ← findPte s pgdir la with
  | none => some none
  | some ptep =>
    if s.pte ptep &&& pteP = 0 then some none
    else do
      let page ← pte2page s (s.pte ptep)
      some (some page)

/-- `page_remove_pte`. -/
def pageRemovePte (s : Kernel) (ptep : PtePtr) : Option Kernel :=
  if s.pte ptep &&& pteP = 0 then some s
  else do
    let page ← pte2page s (s.pte ptep)
    let s := s.setPageRef page (s.ref page - 1)
    let s ← if s.ref page = 0 then freePage s page else some s
    some (s.poke ptep.1 ptep.2 0)

/-- `page_remove`. -/
def pageRemove (s : Kernel) (pgdir la : ℕ) : Option Kernel := do
  match ← findPte s pgdir la with
  | none => some s
  | some ptep => pageRemovePte s ptep

/-- The part of `page_insert` behind `get_pte`. -/
def mapPte (s : Kernel) (ptep : PtePtr) (page perm : ℕ) : Option Kernel := do
  let s := s.setPageRef page (s.ref page + 1)
  let s ←
    if s.pte ptep &&& pteP = 0 then some s
    else do
      let p ← pte2page s (s.pte ptep)
      if p = page then some (s.setPageRef page (s.ref page - 1)) else pageRemovePte s ptep
  some (s.poke ptep.1 ptep.2 (page2pa page ||| pteP ||| perm))

/-- `page_insert`. -/
def pageInsert (s : Kernel) (pgdir page la perm : ℕ) : Option (Kernel × ℤ) := do
  match ← getPte policy s pgdir la with
  | (s, none) => some (s, -eNoMem)
  | (s, some ptep) =>
    let s ← mapPte s ptep page perm
    some (s, 0)

/-- The body of the loop of `unmap_range` for a page whose table is there. -/
def unmapPte (s : Kernel) (ptep : PtePtr) : Option Kernel :=
  if s.pte ptep ≠ 0 then pageRemovePte s ptep else some s

/-- `start += PGSIZE`. -/
def pageAfter (start : ℕ) : ℕ := wrap (start + pgSize)

/-- `start = ROUNDDOWN(start + PTSIZE, PTSIZE)`. -/
def slotAfter (start : ℕ) : ℕ := roundDown (wrap (start + ptSize)) ptSize

/-- The loop of `unmap_range`. A round that does not end it moves `start` up by a
page at least, and a `start` that wraps around is 0, so there are not more rounds
than pages. -/
def unmapLoop (pgdir stop : ℕ) : ℕ → Kernel → ℕ → Option Kernel
  | 0, _, _ => none
  | fuel + 1, s, start => do
    match ← findPte s pgdir start with
    | none =>
      let start := slotAfter start
      if start ≠ 0 ∧ start < stop then unmapLoop pgdir stop fuel s start else some s
    | some ptep =>
      let s ← unmapPte s ptep
      let start := pageAfter start
      if start ≠ 0 ∧ start < stop then unmapLoop pgdir stop fuel s start else some s

/-- The assertions `unmap_range`, `exit_range` and `copy_range` start with. -/
def RangeOk (start stop : ℕ) : Prop :=
  start % pgSize = 0 ∧ stop % pgSize = 0 ∧ UserAccess start stop

instance (start stop : ℕ) : Decidable (RangeOk start stop) :=
  inferInstanceAs (Decidable (_ ∧ _ ∧ _))

/-- The number of pages of the address space. -/
def pageCount : ℕ := 0x100000

/-- `unmap_range`. -/
def unmapRange (s : Kernel) (pgdir start stop : ℕ) : Option Kernel :=
  if RangeOk start stop then unmapLoop pgdir stop pageCount s start else none

/-- The body of the loop of `exit_range`. -/
def exitSlot (s : Kernel) (pgdir start : ℕ) : Option Kernel :=
  if s.mem pgdir (pdx start) &&& pteP = 0 then some s
  else do
    let page ← pa2page s (pteAddr (s.mem pgdir (pdx start)))
    let s ← freePage s page
    some (s.poke pgdir (pdx start) 0)

/-- `start += PTSIZE`. -/
def tableAfter (start : ℕ) : ℕ := wrap (start + ptSize)

/-- The loop of `exit_range`. -/
def exitLoop (pgdir stop : ℕ) : ℕ → Kernel → ℕ → Option Kernel
  | 0, _, _ => none
  | fuel + 1, s, start => do
    let s ← exitSlot s pgdir start
    let start := tableAfter start
    if start ≠ 0 ∧ start < stop then exitLoop pgdir stop fuel s start else some s

/-- `exit_range`. -/
def exitRange (s : Kernel) (pgdir start stop : ℕ) : Option Kernel :=
  if RangeOk start stop then exitLoop pgdir stop pageCount s (roundDown start ptSize) else none

/-- The part of `copy_range` that copies `page` to a new frame and maps it; the
code asserts that there is memory for both. -/
def copyPage (s : Kernel) (toDir start page perm : ℕ) : Option (Kernel × Bool) := do
  match ← allocPage policy s with
  | (_, none) => none
  | (s, some npage) =>
    let s := s.fill npage (s.mem page)
    let (s, ret) ← pageInsert policy s toDir npage start perm
    if ret = 0 then some (s, true) else none

/-- The body of the loop of `copy_range` for a page whose table is there; the
results are the state and whether there was memory for the page table. -/
def copyPte (s : Kernel) (toDir start : ℕ) (ptep : PtePtr) : Option (Kernel × Bool) :=
  if s.pte ptep &&& pteP = 0 then some (s, true)
  else do
    match ← getPte policy s toDir start with
    | (s, none) => some (s, false)
    | (s, some _) =>
      let page ← pte2page s (s.pte ptep)
      copyPage policy s toDir start page (s.pte ptep &&& pteUser)

/-- The loop of `copy_range`. -/
def copyLoop (toDir fromDir stop : ℕ) : ℕ → Kernel → ℕ → Option (Kernel × ℤ)
  | 0, _, _ => none
  | fuel + 1, s, start => do
    match ← findPte s fromDir start with
    | none =>
      let start := slotAfter start
      if start ≠ 0 ∧ start < stop then copyLoop toDir fromDir stop fuel s start else some (s, 0)
    | some ptep =>
      let (s, enough) ← copyPte policy s toDir start ptep
      if enough then
        let start := pageAfter start
        if start ≠ 0 ∧ start < stop then copyLoop toDir fromDir stop fuel s start else some (s, 0)
      else some (s, -eNoMem)

/-- `copy_range(to, from, start, end, 0)`. -/
def copyRange (s : Kernel) (toDir fromDir start stop : ℕ) : Option (Kernel × ℤ) :=
  if RangeOk start stop then copyLoop policy toDir fromDir stop pageCount s start else none

/-- The part of `pgdir_alloc_page` behind `page_insert`. -/
def trackPage (s : Kernel) (la page : ℕ) : Option (Kernel × Option ℕ) :=
  match s.swapInitOk, s.checkMm with
  | true, some mm => do
    let s ← fifoMapSwappable s mm page
    let s := { s with praVaddr := update s.praVaddr page la }
    if s.ref page = 1 then some (s, some page) else none
  | _, _ => some (s, some page)

/-- `pgdir_alloc_page`. -/
def pgdirAllocPage (s : Kernel) (pgdir la perm : ℕ) : Option (Kernel × Option ℕ) := do
  match ← allocPage policy s with
  | (s, none) => some (s, none)
  | (s, some page) =>
    let (s, ret) ← pageInsert policy s pgdir page la perm
    if ret = 0 then trackPage s la page
    else
      let s ← freePage s page
      some (s, none)

/-- `swap_in`. -/
def swapIn (s : Kernel) (mm addr : ℕ) : Option (Kernel × ℕ) := do
  match ← allocPage policy s with
  | (_, none) => none
  | (s, some result) =>
    let found ← findPte s (s.mms mm).pgdir addr
    let ptep ← found
    let s ← swapfsRead s (s.pte ptep) result
    some (s, result)

end Allocation

end LiNos.Paging
