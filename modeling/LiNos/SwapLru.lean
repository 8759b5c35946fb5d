import LiNos.Paging

/-!
The LRU manager of swappable pages (swap_lru.c).

`_lru_map_swappable` puts a page in front of the list until there are `max_map` of
them. From then on, and in `_lru_swap_out_victim`, a loop looks for the region that
was not used for the longest time. Its condition, `le = list_next(le) != vma_head`,
stores the outcome of the comparison in `le`, so the loop goes on from the address
1 (`lru_bookkeeping`).
-/

namespace LiNos.Lru

open CircularList Paging List

/-- The fields of `struct vma_struct` that the manager reads. -/
structure LruVma where
  vmStart : ℕ
  lastUsedTime : ℕ

/-- `struct mm_struct`, the list of pages, and the pages. `locked` says that `mm_sem`
is taken. `le2page(ple, page_link)` of a `pra_page_link` is 8 bytes behind the page;
`strayVaddr` is what it finds there for `pra_vaddr`. -/
structure LruMm where
  mmapList : List LruVma
  smPriv : Option PraEntry
  sizeOfSmPriv : ℤ
  maxMap : ℤ
  locked : Bool
  praLinks : Links PraEntry
  strayVaddr : ℕ → ℕ

/-- `lock_mm`; nobody else is there to give the semaphore back. -/
def lockMm (s : LruMm) : Option LruMm := if s.locked then none else some { s with locked := true }

def unlockMm (s : LruMm) : LruMm := { s with locked := false }

/-- `_lru_init_mm`. -/
def lruInitMm (s : LruMm) : LruMm :=
  { s with
    praLinks := listInit s.praLinks .praListHead
    smPriv := some .praListHead
    sizeOfSmPriv := 0
    maxMap := 10 }

/-- A `list_entry_t *` into `mmap_list`: the head, the link of a region, or a number. -/
inductive VmaLink where
  | head
  | link (i : ℕ)
  | address (n : ℕ)
deriving DecidableEq

/-- `list_next` on `mmap_list`. At a number there is no memory. -/
def listNext (vmas : List LruVma) : VmaLink → Option VmaLink
  | .head => some (if vmas = [] then .head else .link 0)
  | .link i => some (if i + 1 < vmas.length then .link (i + 1) else .head)
  | .address _ => none

def le2vma (vmas : List LruVma) : VmaLink → Option LruVma
  | .link i => vmas[i]?
  | _ => none

instance (vmas : List LruVma) : Decidable (vmas = []) := decidable_of_iff _ isEmpty_iff

/-- The loop that looks for `change_vma`, which is not initialised. The local
`last_used_time` stays 0. -/
def findChangeVma (vmas : List LruVma) : ℕ → VmaLink → Option LruVma → Option (Option LruVma)
  | 0, _, _ => none
  | fuel + 1, le, changeVma => do
    let next ← listNext vmas le
    let le := VmaLink.address (if next ≠ .head then 1 else 0)
    if le = .address 0 then some changeVma
    else
      let tempVma ← le2vma vmas le
      findChangeVma vmas fuel le (if 0 > tempVma.lastUsedTime then some tempVma else changeVma)

/-- The loop over the pages, which takes off the list every page that seems to be at the
start of `change_vma`; the last page is the victim. -/
def takeVictims (changeVma : Option LruVma) : ℕ → LruMm → PraEntry → Option ℕ → Option (LruMm × Option ℕ)
  | 0, _, _, _ => none
  | fuel + 1, s, ple, victim =>
    match s.praLinks.next ple with
    | .praListHead => some (s, victim)
    | .praPageLink page => do
      let vma ← changeVma
      let s := if s.strayVaddr page = vma.vmStart then
        { s with praLinks := listDel s.praLinks (.praPageLink page) } else s
      takeVictims changeVma fuel s (.praPageLink page) (some page)

/-- The two loops, which stand in both functions. -/
def lruEvict (fuel : ℕ) (s : LruMm) : Option (LruMm × Option ℕ) :=
  (findChangeVma s.mmapList fuel .head none).bind fun changeVma =>
    takeVictims changeVma fuel s .praListHead none

/-- `_lru_map_swappable`. -/
def lruMapSwappable (fuel : ℕ) (s : LruMm) (page : ℕ) : Option LruMm := do
  let s ← lockMm s
  if s.sizeOfSmPriv < s.maxMap then
    let s := unlockMm s
    let head ← s.smPriv
    let s ← lockMm { s with praLinks := listAdd s.praLinks head (.praPageLink page) }
    some (unlockMm { s with sizeOfSmPriv := s.sizeOfSmPriv + 1 })
  else
    -- this branch returns with the semaphore taken and without the page
    let (s, _) ← lruEvict fuel s
    some s

/-- `_lru_swap_out_victim`. -/
def lruSwapOutVictim (fuel : ℕ) (s : LruMm) : Option (LruMm × Option ℕ) := do
  let _ ← s.smPriv
  let (s, victim) ← lruEvict fuel s
  let s ← lockMm s
  some (unlockMm { s with sizeOfSmPriv := s.sizeOfSmPriv - 1 }, victim)

inductive LruCall where
  | mapSwappable (page : ℕ)
  | swapOutVictim

/-- A page is registered while it is not on the list; a victim is asked for when there
are pages. -/
def LruCall.Allowed (pages : List ℕ) : LruCall → Prop
  | .mapSwappable page => page ∉ pages
  | .swapOutVictim => pages ≠ []

/-- A call, on the state and on the pages that were registered and not evicted. -/
def LruCall.run (fuel : ℕ) (s : LruMm) (pages : List ℕ) : LruCall → Option (LruMm × List ℕ)
  | .mapSwappable page => do
    let s ← lruMapSwappable fuel s page
    some (s, page :: pages)
  | .swapOutVictim => do
    let (s, victim) ← lruSwapOutVictim fuel s
    some (s, pages.filter (some · ≠ victim))

/-- A registration that finds less than `max_map` pages. -/
def LruCall.HasRoom (s : LruMm) : LruCall → Prop
  | .mapSwappable _ => s.sizeOfSmPriv < s.maxMap
  | .swapOutVictim => False

/-- The runs from `_lru_init_mm` on whose calls all meet a condition. -/
inductive LruRun (condition : LruMm → LruCall → Prop) : LruMm → List ℕ → Prop
  | init (s : LruMm) (released : s.locked = false) : LruRun condition (lruInitMm s) []
  | step {s s' : LruMm} {pages pages' : List ℕ} {fuel : ℕ} {call : LruCall}
    (run : LruRun condition s pages) (allowed : call.Allowed pages) (met : condition s call)
    (ran : call.run fuel s pages = some (s', pages')) : LruRun condition s' pages'

/-- `mm_sem` is released, the registered pages are linked once each, and `size_of_sm_priv`
counts them. -/
structure Bookkept (s : LruMm) (pages : List ℕ) : Prop where
  released : s.locked = false
  ring : Ring s.praLinks .praListHead (pages.map .praPageLink)
  size : s.sizeOfSmPriv = pages.length
  smPriv : s.smPriv = some .praListHead
  limit : s.maxMap = 10

variable {s s' : LruMm} {pages pages' : List ℕ} {page fuel : ℕ} {call : LruCall}

/-- With a page on the list the loops do not end well: the first one reads memory at a
number, or, without a region, the second one reads through a pointer that was not set. -/
theorem lruEvict_dies (ring : Ring s.praLinks .praListHead (pages.map .praPageLink))
    (nonempty : pages ≠ []) : lruEvict fuel s = none := by
  obtain ⟨first, rest, rfl⟩ := exists_cons_of_ne_nil nonempty
  have next : s.praLinks.next .praListHead = .praPageLink first := ring.1.1
  refine Option.bind_eq_none_iff.mpr fun changeVma found => ?_
  cases fuel with
  | zero => rfl
  | succ fuel =>
    by_cases regions : s.mmapList = []
    · simp only [findChangeVma, listNext, regions] at found
      cases found
      rw [takeVictims, next]
      rfl
    · simp [findChangeVma, listNext, regions, le2vma] at found

theorem Bookkept.map_eq (bookkept : Bookkept s pages) (room : s.sizeOfSmPriv < s.maxMap) :
    lruMapSwappable fuel s page = some { s with
      praLinks := listAdd s.praLinks .praListHead (.praPageLink page)
      sizeOfSmPriv := s.sizeOfSmPriv + 1 } := by
  obtain ⟨vmas, smPriv, size, maxMap, locked, links, stray⟩ := s
  obtain ⟨rfl, -, -, rfl⟩ := bookkept
  simp [lruMapSwappable, lockMm, unlockMm, room]

/-- A call that does not find room kills the kernel. -/
theorem Bookkept.dies (bookkept : Bookkept s pages) (allowed : call.Allowed pages)
    (full : ¬ call.HasRoom s) : call.run fuel s pages = none := by
  cases call with
  | mapSwappable page =>
    have full : ¬ s.sizeOfSmPriv < s.maxMap := full
    have nonempty : pages ≠ [] := by
      rintro rfl
      rw [bookkept.size, bookkept.limit] at full
      exact full (by decide)
    have died : lruEvict fuel { s with locked := true } = none := lruEvict_dies bookkept.ring nonempty
    simp [LruCall.run, lruMapSwappable, lockMm, bookkept.released, full,
      died]
  | swapOutVictim =>
    simp [LruCall.run, lruSwapOutVictim, bookkept.smPriv, lruEvict_dies bookkept.ring allowed]

theorem Bookkept.step (bookkept : Bookkept s pages) (allowed : call.Allowed pages)
    (room : call.HasRoom s) (ran : call.run fuel s pages = some (s', pages')) : Bookkept s' pages' := by
  cases call with
  | mapSwappable page =>
    simp only [LruCall.run, bookkept.map_eq room, Option.bind_eq_bind, Option.bind_some] at ran
    cases ran
    refine { bookkept with ring := ring_listAdd bookkept.ring ?_, size := ?_ }
    · simpa [LruCall.Allowed] using allowed
    · simp [bookkept.size]
  | swapOutVictim => cases room

/-- As long as no victim is asked for and at most ten pages are registered, the books are
kept; any other call kills the kernel. -/
theorem lru_bookkeeping (run : LruRun LruCall.HasRoom s pages) :
    Bookkept s pages ∧ ∀ fuel (call : LruCall), call.Allowed pages →
      ((∃ after, call.run fuel s pages = some after) ↔ call.HasRoom s) := by
  have bookkept : Bookkept s pages := by
    induction run with
    | init s released => exact ⟨released, ring_init _ _, rfl, rfl, rfl⟩
    | step _ allowed room ran ih => exact ih.step allowed room ran
  refine ⟨bookkept, fun fuel call allowed => ⟨?_, ?_⟩⟩
  · rintro ⟨after, ran⟩
    by_contra full
    cases (bookkept.dies allowed full).symm.trans ran
  · intro room
    cases call with
    | mapSwappable page => exact ⟨_, by rw [LruCall.run, bookkept.map_eq room]; rfl⟩
    | swapOutVictim => cases room

/-- An address space with one region, before `_lru_init_mm`. -/
def oneRegion : LruMm := ⟨[⟨0x1000, 7⟩], none, 0, 0, false, ⟨id, id⟩, fun _ => 0⟩

/-- Two pages are registered. -/
theorem lru_bookkeeping_two : ∃ s, LruRun LruCall.HasRoom s [6, 5] ∧ Bookkept s [6, 5] := by
  have start : LruRun LruCall.HasRoom (lruInitMm oneRegion) [] := .init oneRegion rfl
  have first := @LruRun.step _ _ _ _ _ 9 (.mapSwappable 5) start (by simp [LruCall.Allowed])
    (by decide : (0 : ℤ) < 10) rfl
  have second := @LruRun.step _ _ _ _ _ 9 (.mapSwappable 6) first (by simp [LruCall.Allowed])
    (by decide : (1 : ℤ) < 10) rfl
  exact ⟨_, second, (lru_bookkeeping second).1⟩

/-- With a page on the list, `_lru_swap_out_victim` kills the kernel. -/
theorem lru_victim_dies : ∃ s, LruRun (fun _ _ => True) s [5] ∧
    ∀ fuel, LruCall.swapOutVictim.run fuel s [5] = none := by
  have start : LruRun (fun _ _ => True) (lruInitMm oneRegion) [] := .init oneRegion rfl
  have first := @LruRun.step _ _ _ _ _ 9 (.mapSwappable 5) start (by simp [LruCall.Allowed]) trivial rfl
  refine ⟨_, first, fun fuel => ?_⟩
  cases fuel with
  | zero => rfl
  | succ fuel => rfl

end LiNos.Lru
