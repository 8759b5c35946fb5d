import LiNos.Paging

/-!
Address spaces (vmm.c, and `setup_pgdir` and `put_pgdir` of proc.c).

An `mm_struct` is named by a number; its `mmap_list` is the list of its regions.
`kmalloc` takes pages from `alloc_pages` when its own lists are used up. These lists
(kmalloc.c) are left out: whether a `kmalloc` succeeds is an argument (`kmalloc`) of
the functions that call it, and a call that succeeds finds room in the lists.
-/

namespace LiNos.Paging

open CircularList

def vmRead : ℕ := 0x1
def vmWrite : ℕ := 0x2
def vmExec : ℕ := 0x4

/-! ## Regions -/

/-- The address is in the region. -/
def Vma.Contains (vma : Vma) (addr : ℕ) : Prop := vma.vmStart ≤ addr ∧ addr < vma.vmEnd

instance (vma : Vma) (addr : ℕ) : Decidable (vma.Contains addr) :=
  inferInstanceAs (Decidable (_ ∧ _))

/-- The region `find_vma` comes to: the cached one if it fits, else the first of
the list that does. -/
def lookupVma (m : Mm) (addr : ℕ) : Option Vma :=
  match m.mmapCache with
  | some vma => if vma.Contains addr then some vma else m.mmap.find? fun vma => vma.Contains addr
  | none => m.mmap.find? fun vma => vma.Contains addr

/-- `find_vma`. -/
def findVma (m : Mm) (addr : ℕ) : Mm × Option Vma :=
  match lookupVma m addr with
  | some vma => ({ m with mmapCache := some vma }, some vma)
  | none => (m, none)

/-- The assertions of `check_vma_overlap`. -/
def CheckVmaOverlap (prev next : Vma) : Prop :=
  prev.vmStart < prev.vmEnd ∧ prev.vmEnd ≤ next.vmStart ∧ next.vmStart < next.vmEnd

instance (prev next : Vma) : Decidable (CheckVmaOverlap prev next) :=
  inferInstanceAs (Decidable (_ ∧ _ ∧ _))

/-- `insert_vma_struct`: the new region goes behind all that start no later. -/
def insertVmaStruct (m : Mm) (vma : Vma) : Option Mm :=
  let before := m.mmap.takeWhile fun v => v.vmStart ≤ vma.vmStart
  let after := m.mmap.dropWhile fun v => v.vmStart ≤ vma.vmStart
  if vma.vmStart < vma.vmEnd ∧ (∀ prev ∈ before.getLast?, CheckVmaOverlap prev vma) ∧
      ∀ next ∈ after.head?, CheckVmaOverlap vma next then
    some { m with mmap := before ++ vma :: after, mapCount := m.mapCount + 1 }
  else none

/-- The part of `mm_map` behind `find_vma`. -/
def mapRegion (s : Kernel) (mm : ℕ) (vma : Vma) (kmalloc : Bool) : Option (Kernel × ℤ) :=
  if kmalloc then do
    let m ← insertVmaStruct (s.mms mm) vma
    some (s.setMm mm m, 0)
  else some (s, -eNoMem)

/-- `mm_map`. -/
def mmMap (s : Kernel) (mm addr len vmFlags : ℕ) (kmalloc : Bool) : Option (Kernel × ℤ) :=
  let start := roundDown addr pgSize
  let stop := roundUp (wrap (addr + len)) pgSize
  if UserAccess start stop then
    let found := findVma (s.mms mm) start
    let s := s.setMm mm found.1
    if ∃ vma ∈ found.2, vma.vmStart < stop then some (s, -eInval)
    else mapRegion s mm ⟨start, stop, vmFlags⟩ kmalloc
  else some (s, -eInval)

/-! ## Address spaces -/

/-- `_fifo_init_mm`, when swapping is on. -/
def swapInitMm (s : Kernel) : Kernel × Option PraEntry :=
  if s.swapInitOk then ({ s with praLinks := listInit s.praLinks .praListHead }, some .praListHead)
  else (s, none)

/-- `mm_create`, for the structure `kmalloc` has returned. -/
def mmCreate (s : Kernel) (mm : ℕ) : Kernel :=
  let swap := swapInitMm s
  swap.1.setMm mm ⟨[], none, 0, 0, swap.2, 0⟩

section Allocation

variable (policy : Policy)

/-- `setup_pgdir`: a copy of `boot_pgdir` that also contains itself. -/
def setupPgdir (s : Kernel) (mm : ℕ) : Option (Kernel × ℤ) := do
  match ← allocPage policy s with
  | (s, none) => some (s, -eNoMem)
  | (s, some page) =>
    let s := s.fill page (s.mem s.bootPgdir)
    let s := s.poke page (pdx vpt) (page2pa page ||| pteP ||| pteW)
    some (s.setMm mm { s.mms mm with pgdir := page }, 0)

/-- The loop of `dup_mmap`, over the regions from the last one to the first. -/
def dupLoop (kmalloc : Vma → Bool) (toMm fromMm : ℕ) : List Vma → Kernel → Option (Kernel × ℤ)
  | [], s => some (s, 0)
  | vma :: rest, s =>
    if kmalloc vma then do
      let m ← insertVmaStruct (s.mms toMm) vma
      let s := s.setMm toMm m
      let (s, ret) ← copyRange policy s (s.mms toMm).pgdir (s.mms fromMm).pgdir vma.vmStart vma.vmEnd
      if ret = 0 then dupLoop kmalloc toMm fromMm rest s else some (s, -eNoMem)
    else some (s, -eNoMem)

/-- `dup_mmap`. -/
def dupMmap (s : Kernel) (toMm fromMm : ℕ) (kmalloc : Vma → Bool) : Option (Kernel × ℤ) :=
  dupLoop policy kmalloc toMm fromMm (s.mms fromMm).mmap.reverse s

/-- `exit_mmap`. -/
def exitMmap (s : Kernel) (mm : ℕ) : Option Kernel :=
  if (s.mms mm).mmCount = 0 then do
    let pgdir := (s.mms mm).pgdir
    let s ← (s.mms mm).mmap.foldlM (fun s vma => unmapRange s pgdir vma.vmStart vma.vmEnd) s
    (s.mms mm).mmap.foldlM (fun s vma => exitRange s pgdir vma.vmStart vma.vmEnd) s
  else none

/-- `put_pgdir`. -/
def putPgdir (s : Kernel) (mm : ℕ) : Option Kernel := freePage s (s.mms mm).pgdir

/-! ## Page faults -/

/-- The checks of `do_pgfault` on the error code: the region must allow what the
fault was about. -/
def faultOk (errorCode vmFlags : ℕ) : Bool :=
  match errorCode &&& 3 with
  | 0 => vmFlags &&& (vmRead ||| vmExec) != 0
  | 1 => false
  | _ => vmFlags &&& vmWrite != 0

def faultPerm (vmFlags : ℕ) : ℕ := if vmFlags &&& vmWrite ≠ 0 then pteU ||| pteW else pteU

/-- The page comes back from the swap device; its mapping and its place in the
list of `swap_map_swappable` are set up again. -/
def restorePage (s : Kernel) (mm addr perm : ℕ) : Option (Kernel × ℤ) := do
  let (s, page) ← swapIn policy s mm addr
  let (s, _) ← pageInsert policy s (s.mms mm).pgdir page addr perm
  let s ← fifoMapSwappable s mm page
  some ({ s with praVaddr := Function.update s.praVaddr page addr }, 0)

/-- The part of `do_pgfault` behind `get_pte`. -/
def servePage (s : Kernel) (mm addr perm : ℕ) (ptep : PtePtr) : Option (Kernel × ℤ) :=
  if s.pte ptep = 0 then do
    match ← pgdirAllocPage policy s (s.mms mm).pgdir addr perm with
    | (s, none) => some (s, -eNoMem)
    | (s, some _) => some (s, 0)
  else if s.pte ptep &&& pteP ≠ 0 then none
  else if s.swapInitOk then restorePage policy s mm addr perm
  else some (s, -eNoMem)

/-- The part of `do_pgfault` behind the checks, for the address of the page. -/
def faultPage (s : Kernel) (mm addr perm : ℕ) : Option (Kernel × ℤ) := do
  match ← getPte policy s (s.mms mm).pgdir addr with
  | (s, none) => some (s, -eNoMem)
  | (s, some ptep) => servePage policy s mm addr perm ptep

/-- `do_pgfault`. -/
def doPgfault (s : Kernel) (mm errorCode addr : ℕ) : Option (Kernel × ℤ) :=
  let found := findVma (s.mms mm) addr
  let s := s.setMm mm found.1
  match found.2 with
  | none => some (s, -eInval)
  | some vma =>
    if vma.vmStart ≤ addr ∧ faultOk errorCode vma.vmFlags then
      faultPage policy s mm (roundDown addr pgSize) (faultPerm vma.vmFlags)
    else some (s, -eInval)

end Allocation

end LiNos.Paging
