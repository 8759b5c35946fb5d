import LiNos.SwapQueue
import LiNos.VmmRuns

/-!
Slots of the swap device, with several address spaces.

`swap_out` chooses the slot of a page from its virtual address alone, so two
address spaces write the page at one address to the same slot. `Device` records
beside the kernel what was last written out from each page of each address space.
What `swap_in` loads is that record as long as no page is written out while the
page at the same address of another address space is on the device
(`swap_in_own_content`).
-/

namespace LiNos.Paging

open CircularList Tally Function

/-- A kernel and what was last written out from each page of each address space. -/
structure Device where
  kernel : Kernel
  out : ℕ → ℕ → Option (ℕ → ℕ)

/-- The page `swap_out_victim` would return for `mm`. -/
def victimOf (s : Kernel) (mm : ℕ) : Option ℕ := (fifoSwapOutVictim s mm).map Prod.snd

/-- What is recorded when `swap_out` is called for `mm`: the page of `mm` at the
address of the victim is the one that is written out. -/
def Device.record (r : Device) (mm : ℕ) : ℕ → ℕ → Option (ℕ → ℕ) :=
  match victimOf r.kernel mm with
  | none => r.out
  | some page =>
    let n := r.kernel.praVaddr page / pgSize
    update r.out mm (update (r.out mm) n
      ((view r.kernel ((r.kernel.mms mm).pgdir, n)).map r.kernel.mem))

/-- Writing a page out for `mm` is harmless: the victim is the page of `mm` at its
address, and no other address space has the page at that address on the device. -/
def Harmless (slots live : Finset ℕ) (s : Kernel) (mm : ℕ) : Prop :=
  ∀ page, victimOf s mm = some page →
    s.praVaddr page < 2 ^ 32 ∧ pdx (s.praVaddr page) ∈ slots ∧
      view s ((s.mms mm).pgdir, s.praVaddr page / pgSize) = some page ∧
      ∀ m ∈ live, m ≠ mm →
        pteOf s (s.mms m).pgdir (s.praVaddr page / pgSize) ≠ swapEntry (s.praVaddr page)

/-- The directories of the address spaces. -/
def dirsOf (live : Finset ℕ) (s : Kernel) : Finset ℕ := live.image fun mm => (s.mms mm).pgdir

/-- Page tables are those of the address spaces, and no frame is mapped twice. -/
structure Parted (slots live : Finset ℕ) (s : Kernel) (role : ℕ → Role) : Prop where
  counted : Counted s slots (dirsOf live s) role
  alone : Private slots (dirsOf live s) s
  distinct : ∀ m ∈ live, ∀ m' ∈ live, (s.mms m).pgdir = (s.mms m').pgdir → m = m'

/-- Whatever else the kernel does: it leaves the device alone and writes no swap
entry into a page table. -/
structure Elsewhere (slots live : Finset ℕ) (s s' : Kernel) : Prop where
  parted : ∃ role, Parted slots live s' role
  disk : s'.disk = s.disk
  pgdir : ∀ mm ∈ live, (s'.mms mm).pgdir = (s.mms mm).pgdir
  entries : ∀ x ∈ keys slots (dirsOf live s), pteOf s' x.1 x.2 = pteOf s x.1 x.2 ∨
    pteOf s' x.1 x.2 = 0 ∨ Present (pteOf s' x.1 x.2)

/-- `alloc_page` in `swap_in` calls `swap_out` for `check_mm_struct` when no frame is
free. -/
def Device.recordAlloc (policy : Policy) (r : Device) : ℕ → ℕ → Option (ℕ → ℕ) :=
  match policy.pick r.kernel.free, r.kernel.checkMm with
  | none, some mm => r.record mm
  | _, _ => r.out

/-- The calls of `swap_out` that `alloc_page` makes satisfy the condition. -/
def AllocMeets (Condition : Kernel → ℕ → Prop) (live : Finset ℕ) (policy : Policy) (s : Kernel) : Prop :=
  policy.pick s.free = none → ∀ mm, s.checkMm = some mm → mm ∈ live ∧ Condition s mm

/-- Interleavings of `swap_out` and `swap_in` for several address spaces with each
other and with the rest of the kernel; every call of `swap_out` satisfies
`Condition`. -/
inductive Device.Reachable (slots live : Finset ℕ) (Condition : Kernel → ℕ → Prop) : Device → Prop
  | boot {s : Kernel} {role : ℕ → Role} (parted : Parted slots live s role)
    (clean : ∀ x ∈ keys slots (dirsOf live s), pteOf s x.1 x.2 = 0 ∨ Present (pteOf s x.1 x.2)) :
    Device.Reachable slots live Condition ⟨s, fun _ _ => none⟩
  | swapOut {r : Device} {s' : Kernel} (before : Device.Reachable slots live Condition r) (mm : ℕ)
    (member : mm ∈ live) (condition : Condition r.kernel mm) (ran : swapOut mm 1 r.kernel = some s') :
    Device.Reachable slots live Condition ⟨s', r.record mm⟩
  | swapIn {r : Device} {s' : Kernel} {page : ℕ} (before : Device.Reachable slots live Condition r)
    (policy : Policy) (mm addr : ℕ) (member : mm ∈ live)
    (meets : AllocMeets Condition live policy r.kernel)
    (ran : swapIn policy r.kernel mm addr = some (s', page)) :
    Device.Reachable slots live Condition ⟨s', r.recordAlloc policy⟩
  | other {r : Device} {s' : Kernel} (before : Device.Reachable slots live Condition r)
    (elsewhere : Elsewhere slots live r.kernel s') : Device.Reachable slots live Condition ⟨s', r.out⟩

/-- `swap_out(mm, n, 0)` is `n` times `swap_out(mm, 1, 0)`. -/
theorem swapOut_succ (mm n : ℕ) (s : Kernel) :
    swapOut mm (n + 1) s = (swapOut mm 1 s).bind (swapOut mm n) := by
  simp only [swapOut, Option.bind_eq_bind, Option.bind_assoc]
  refine Option.bind_congr fun victim _ => Option.bind_congr fun found _ =>
    Option.bind_congr fun ptep _ => ?_
  split_ifs
  · rfl
  · simp only [Option.bind_assoc, Option.bind_some]

variable {slots live pool : Finset ℕ} {s s' : Kernel} {role : ℕ → Role} {mm n page : ℕ}

/-- What `swap_out` has done when it comes back. -/
theorem swapOut_cases (ran : swapOut mm 1 s = some s') :
    ∃ page t j offset, victimOf s mm = some page ∧
      findPte s (s.mms mm).pgdir (s.praVaddr page) = some (some (t, j)) ∧
      swapOffset s (swapEntry (s.praVaddr page)) = some offset ∧
      s' = { s.poke t j (swapEntry (s.praVaddr page)) with
        praLinks := listDel s.praLinks (.praPageLink page)
        disk := update s.disk offset (s.mem page)
        ref := update s.ref page 0
        free := insert page s.free } := by
  simp only [swapOut, Option.bind_eq_bind, Option.bind_eq_some_iff] at ran
  obtain ⟨⟨s₁, page⟩, chose, found, walked, ptep, rfl, ran⟩ := ran
  have links : s₁ = { s with praLinks := listDel s.praLinks (.praPageLink page) } := by
    simp only [fifoSwapOutVictim, Option.bind_eq_bind, Option.bind_eq_some_iff] at chose
    obtain ⟨head, -, chose⟩ := chose
    split_ifs at chose
    cases last : s.praLinks.prev head with
    | praListHead => simp [last] at chose
    | praPageLink p =>
      simp only [last] at chose
      cases chose
      rfl
  subst links
  split_ifs at ran
  simp only [swapfsWrite, Option.bind_eq_bind, Option.bind_eq_some_iff] at ran
  obtain ⟨s₂, ⟨offset, slot, wrote⟩, s₃, freed, same⟩ := ran
  cases wrote
  cases same
  rw [freePage] at freed
  split_ifs at freed
  cases freed
  exact ⟨page, ptep.1, ptep.2, offset, by rw [victimOf, chose, Option.map_some], walked, slot, rfl⟩

theorem mem_dirsOf (member : mm ∈ live) : (s.mms mm).pgdir ∈ dirsOf live s :=
  Finset.mem_image.mpr ⟨mm, member, rfl⟩

theorem swapEntry_page (addr : ℕ) : swapEntry addr = swapEntry (addr / pgSize * pgSize) := by
  rw [swapEntry, swapEntry, Nat.mul_div_cancel _ (by decide)]

/-- A harmless call of `swap_out` writes one page of `mm` out. -/
theorem Parted.swapOut_eq (parted : Parted slots live s role) (member : mm ∈ live)
    (harmless : Harmless slots live s mm) (ran : swapOut mm 1 s = some s') :
    ∃ page n t, victimOf s mm = some page ∧ s.praVaddr page / pgSize = n ∧
      ((s.mms mm).pgdir, n) ∈ keys slots (dirsOf live s) ∧
      view s ((s.mms mm).pgdir, n) = some page ∧ role t = .table (s.mms mm).pgdir (n / 1024) ∧
      (∀ m ∈ live, m ≠ mm → pteOf s (s.mms m).pgdir n ≠ swapEntry (n * pgSize)) ∧
      s' = Paging.evicted s t page n := by
  obtain ⟨page, t, j, offset, victim, found, slot, rfl⟩ := swapOut_cases ran
  obtain ⟨address, inSlots, here, others⟩ := harmless page victim
  have known : (s.mms mm).pgdir ∈ dirsOf live s := mem_dirsOf member
  have key := page_key known address inSlots
  rcases parted.counted.tables.findPte_eq known address inSlots with ⟨-, -, zero⟩ | ⟨t', table, walked, -, -⟩
  · exact absurd zero (present_of_view here).ne_zero
  · obtain ⟨rfl, rfl⟩ : t = t' ∧ j = ptx (s.praVaddr page) := by simpa using found.symm.trans walked
    rw [pdx_eq address] at table
    have entry := swapEntry_page (s.praVaddr page)
    rw [swapOffset, entry, swapEntry_slot (mem_keys.mp key).2.1] at slot
    split_ifs at slot
    cases slot
    refine ⟨page, s.praVaddr page / pgSize, t, victim, rfl, key, here, table, by rwa [← entry], ?_⟩
    rw [Paging.evicted, ← entry, ptx_eq]

theorem dirsOf_congr (same : ∀ m ∈ live, (s'.mms m).pgdir = (s.mms m).pgdir) :
    dirsOf live s' = dirsOf live s := Finset.image_congr fun m member => same m member

/-- The address spaces are apart after a harmless `swap_out`. -/
theorem Parted.evicted {t : ℕ} (parted : Parted slots live s role)
    (key : ((s.mms mm).pgdir, n) ∈ keys slots (dirsOf live s))
    (here : view s ((s.mms mm).pgdir, n) = some page)
    (is : role t = .table (s.mms mm).pgdir (n / 1024)) :
    Parted slots live (Paging.evicted s t page n) (update role page .free) := by
  have only : ∀ y ∈ keys slots (dirsOf live s), view s y = some page → y = ((s.mms mm).pgdir, n) :=
    fun y key' there => parted.alone y key' _ key page there here
  have entries := parted.counted.evicted_entries (f := page) is
  refine ⟨parted.counted.evicted key here only is, ?_, parted.distinct⟩
  have views : ∀ x ∈ keys slots (dirsOf live s), ∀ f, view (Paging.evicted s t page n) x = some f →
      view s x = some f := by
    intro x member f mapped
    have absent := swapEntry_absent (mem_keys.mp key).2.1
    have entry := entries x member
    grind [view]
  exact fun x left y right f there there' =>
    parted.alone x left y right f (views x left f there) (views y right f there')

/-! ## The record -/

/-- Every page on the device is in its slot as it was written out. -/
def Kept (slots live : Finset ℕ) (r : Device) : Prop :=
  ∀ mm ∈ live, ∀ n, ((r.kernel.mms mm).pgdir, n) ∈ keys slots (dirsOf live r.kernel) →
    pteOf r.kernel (r.kernel.mms mm).pgdir n = swapEntry (n * pgSize) →
    r.out mm n = some (r.kernel.disk (n + 1))

variable {r : Device} {policy : Policy}

/-- A harmless `swap_out` keeps the record, and changes neither the entries nor the
record of pages that are not in memory. -/
theorem Kept.swapOut (kept : Kept slots live r) (parted : Parted slots live r.kernel role)
    (member : mm ∈ live) (harmless : Harmless slots live r.kernel mm)
    (ran : Paging.swapOut mm 1 r.kernel = some s') :
    (∃ role', Parted slots live s' role') ∧ Kept slots live ⟨s', r.record mm⟩ ∧ s'.mms = r.kernel.mms ∧
      ∀ m ∈ live, ∀ n, ((r.kernel.mms m).pgdir, n) ∈ keys slots (dirsOf live r.kernel) →
        ¬ Present (pteOf r.kernel (r.kernel.mms m).pgdir n) →
        pteOf s' (r.kernel.mms m).pgdir n = pteOf r.kernel (r.kernel.mms m).pgdir n ∧
          r.record mm m n = r.out m n := by
  obtain ⟨page, n, t, victim, address, key, here, is, others, rfl⟩ := parted.swapOut_eq member harmless ran
  have entries := parted.counted.evicted_entries (f := page) is
  have distinct := parted.distinct
  have record : r.record mm = update r.out mm (update (r.out mm) n (some (r.kernel.mem page))) := by
    simp only [Device.record, victim, address, here, Option.map_some]
  refine ⟨⟨_, parted.evicted key here is⟩, ?_, rfl, ?_⟩
  · intro m live' n' key' swapped
    have key' : ((r.kernel.mms m).pgdir, n') ∈ keys slots (dirsOf live r.kernel) := key'
    have swapped : pteOf (evicted r.kernel t page n) (r.kernel.mms m).pgdir n' = swapEntry (n' * pgSize) :=
      swapped
    have disk : (evicted r.kernel t page n).disk = update r.kernel.disk (n + 1) (r.kernel.mem page) := rfl
    rw [entries _ key'] at swapped
    have held := kept m live' n' key'
    have apart := distinct m live' mm member
    have other := others m live'
    simp only [record, disk]
    by_cases same : m = mm
    · subst same
      rw [update_self]
      grind [update_apply]
    · rw [update_of_ne same]
      grind [update_apply]
  · intro m live' n' key' absent
    have there := present_of_view here
    have other : ((r.kernel.mms m).pgdir, n') ≠ ((r.kernel.mms mm).pgdir, n) := by grind
    refine ⟨by rw [entries _ key', if_neg other], ?_⟩
    by_cases same : m = mm
    · subst same
      rw [record, update_self, update_of_ne (by grind)]
    · rw [record, update_of_ne same]

theorem Parted.take {f : ℕ} (words : ℕ → ℕ) (parted : Parted slots live s role) (member : f ∈ s.free) :
    Parted slots live (takenWith s f words) (update role f .held) ∧
      ∀ x ∈ keys slots (dirsOf live s), pteOf (takenWith s f words) x.1 x.2 = pteOf s x.1 x.2 := by
  obtain ⟨counted, entries⟩ := parted.counted.takenWith member
  exact ⟨⟨counted, parted.alone.congr fun x key => view_congr (entries x key), parted.distinct⟩, entries⟩

/-- `alloc_page` takes a free frame, or one that `swap_out` has just freed. -/
theorem allocPage_some {s₁ : Kernel} {f : ℕ} (ran : allocPage policy s = some (s₁, some f)) :
    (policy.pick s.free = some f ∧ s₁ = { s with free := s.free.erase f }) ∨
      policy.pick s.free = none ∧ ∃ mm s₀, s.checkMm = some mm ∧ swapOut mm 1 s = some s₀ ∧
        policy.pick s₀.free = some f ∧ s₁ = { s₀ with free := s₀.free.erase f } := by
  rw [allocPage, allocPagesLoop] at ran
  split at ran
  · cases ran
    exact Or.inl ⟨by assumption, rfl⟩
  · split at ran
    · simp only [Option.bind_eq_bind, Option.bind_eq_some_iff] at ran
      obtain ⟨mm, check, s₀, out, again⟩ := ran
      refine Or.inr ⟨by assumption, mm, s₀, check, out, ?_⟩
      cases picked₀ : policy.pick s₀.free with
      | some g =>
        simp only [allocPagesLoop, picked₀] at again
        cases again
        exact ⟨rfl, rfl⟩
      | none => exact absurd (policy.pick_none _ picked₀) (swapOut_free out)
    · cases ran

/-- Making room for `swap_in` keeps the record. -/
theorem Kept.alloc {s₁ : Kernel} {f : ℕ} (kept : Kept slots live r)
    (parted : Parted slots live r.kernel role)
    (meets : AllocMeets (Harmless slots live) live policy r.kernel)
    (ran : allocPage policy r.kernel = some (s₁, some f)) :
    ∃ s₀ role₀, s₁ = { s₀ with free := s₀.free.erase f } ∧ f ∈ s₀.free ∧
      Parted slots live s₀ role₀ ∧ Kept slots live ⟨s₀, r.recordAlloc policy⟩ ∧
      s₀.mms = r.kernel.mms ∧
      ∀ m ∈ live, ∀ n, ((r.kernel.mms m).pgdir, n) ∈ keys slots (dirsOf live r.kernel) →
        ¬ Present (pteOf r.kernel (r.kernel.mms m).pgdir n) →
        pteOf s₀ (r.kernel.mms m).pgdir n = pteOf r.kernel (r.kernel.mms m).pgdir n ∧
          r.recordAlloc policy m n = r.out m n := by
  rcases allocPage_some ran with ⟨picked, rfl⟩ | ⟨full, mm, s₀, check, out, picked, rfl⟩
  · have same : r.recordAlloc policy = r.out := by rw [Device.recordAlloc, picked]
    rw [same]
    exact ⟨r.kernel, role, rfl, policy.pick_mem _ _ picked, parted, kept, rfl, fun _ _ _ _ _ => ⟨rfl, rfl⟩⟩
  · have same : r.recordAlloc policy = r.record mm := by rw [Device.recordAlloc, full, check]
    obtain ⟨member, harmless⟩ := meets full mm check
    obtain ⟨⟨role₀, parted₀⟩, kept₀, mms, stays⟩ := kept.swapOut parted member harmless out
    rw [same]
    exact ⟨s₀, role₀, rfl, policy.pick_mem _ _ picked, parted₀, kept₀, mms, stays⟩

/-- What `swap_in` has done when it comes back. -/
theorem Kept.swapIn {addr : ℕ} (kept : Kept slots live r) (parted : Parted slots live r.kernel role)
    (member : mm ∈ live) (meets : AllocMeets (Harmless slots live) live policy r.kernel)
    (ran : Paging.swapIn policy r.kernel mm addr = some (s', page)) :
    (∃ role', Parted slots live s' role') ∧ Kept slots live ⟨s', r.recordAlloc policy⟩ ∧
      (((r.kernel.mms mm).pgdir, addr / pgSize) ∈ keys slots (dirsOf live r.kernel) →
        pteOf r.kernel (r.kernel.mms mm).pgdir (addr / pgSize) = swapEntry (addr / pgSize * pgSize) →
        r.out mm (addr / pgSize) = some (s'.mem page)) := by
  simp only [Paging.swapIn, Option.bind_eq_bind, Option.bind_eq_some_iff] at ran
  obtain ⟨⟨s₁, result⟩, alloc, ran⟩ := ran
  cases result with
  | none => cases ran
  | some f =>
    simp only [Option.bind_eq_some_iff, swapfsRead, Option.bind_eq_bind] at ran
    obtain ⟨found, walked, ptep, rfl, s₂, ⟨offset, slot, read⟩, same⟩ := ran
    cases read
    cases same
    obtain ⟨s₀, role₀, rfl, free, parted₀, kept₀, mms, stays⟩ := kept.alloc parted meets alloc
    obtain ⟨parted', entries⟩ := parted₀.take (s₀.disk offset) free
    have dirs : dirsOf live s₀ = dirsOf live r.kernel := by rw [dirsOf, dirsOf, mms]
    refine ⟨⟨_, parted'⟩, fun m live' n key swapped => ?_, fun key swapped => ?_⟩
    · have key₀ : ((s₀.mms m).pgdir, n) ∈ keys slots (dirsOf live s₀) := key
      exact kept₀ m live' n key₀ ((entries _ key₀).symm.trans swapped)
    · obtain ⟨-, small, inside⟩ := mem_keys.mp key
      obtain ⟨entry, record⟩ := stays mm member _ key (swapped ▸ swapEntry_absent small)
      have address : addr < 2 ^ 32 := by
        unfold pageCount pgSize at small
        omega
      have known : (r.kernel.mms mm).pgdir ∈ dirsOf live s₀ := dirs ▸ mem_dirsOf member
      rw [swapped] at entry
      have walked : findPte s₀ (r.kernel.mms mm).pgdir addr = some (some ptep) := mms ▸ walked
      rcases parted₀.counted.tables.findPte_eq known address (by rwa [pdx_eq address]) with
        ⟨-, -, zero⟩ | ⟨t, -, walked', -, word⟩
      · exact absurd (entry.symm.trans zero) (swapEntry_ne_zero small)
      · obtain rfl : ptep = (t, ptx addr) := by simpa using walked.symm.trans walked'
        have pte : Kernel.pte { s₀ with free := s₀.free.erase page } (t, ptx addr) =
            swapEntry (addr / pgSize * pgSize) := word.symm.trans entry
        rw [pte, swapOffset, swapEntry_slot small] at slot
        split_ifs at slot
        cases slot
        rw [← record, Kernel.fill_mem_self]
        exact kept₀ mm member (addr / pgSize) (by rwa [mms, dirs]) (by rwa [mms])

theorem Kept.other (kept : Kept slots live r) (elsewhere : Elsewhere slots live r.kernel s') :
    Kept slots live ⟨s', r.out⟩ := by
  intro mm member n key swapped
  rw [dirsOf_congr elsewhere.pgdir, elsewhere.pgdir mm member] at key
  rw [elsewhere.pgdir mm member] at swapped
  have small := (mem_keys.mp key).2.1
  rcases elsewhere.entries _ key with same | zero | there
  · rw [elsewhere.disk]
    exact kept mm member n key (same.symm.trans swapped)
  · exact absurd (swapped.symm.trans zero) (swapEntry_ne_zero small)
  · exact absurd (swapped ▸ there) (swapEntry_absent small)

/-- In every state of a run with harmless calls the record is right. -/
theorem Device.Reachable.kept (reached : Device.Reachable slots live (Harmless slots live) r) :
    (∃ role, Parted slots live r.kernel role) ∧ Kept slots live r := by
  induction reached with
  | boot parted clean =>
    refine ⟨⟨_, parted⟩, fun mm member n key swapped => ?_⟩
    have small := (mem_keys.mp key).2.1
    rcases clean _ key with zero | there
    · exact absurd (swapped.symm.trans zero) (swapEntry_ne_zero small)
    · exact absurd (swapped ▸ there) (swapEntry_absent small)
  | swapOut before mm member harmless ran ih =>
    obtain ⟨⟨role, parted⟩, kept⟩ := ih
    obtain ⟨parted', kept', -⟩ := kept.swapOut parted member harmless ran
    exact ⟨parted', kept'⟩
  | swapIn before policy mm addr member meets ran ih =>
    obtain ⟨⟨role, parted⟩, kept⟩ := ih
    obtain ⟨parted', kept', -⟩ := kept.swapIn parted member meets ran
    exact ⟨parted', kept'⟩
  | other before elsewhere ih => exact ⟨elsewhere.parted, ih.2.other elsewhere⟩

/-- In every run in which each call of `swap_out` is harmless, what `swap_in` loads
for a page that is on the device is what was last written out from that page of
that address space. -/
theorem swap_in_own_content {addr : ℕ}
    (reached : Device.Reachable slots live (Harmless slots live) r) (member : mm ∈ live)
    (user : addr < 2 ^ 32 ∧ pdx addr ∈ slots)
    (swapped : pteOf r.kernel (r.kernel.mms mm).pgdir (addr / pgSize) = swapEntry addr)
    (meets : AllocMeets (Harmless slots live) live policy r.kernel)
    (ran : swapIn policy r.kernel mm addr = some (s', page)) :
    r.out mm (addr / pgSize) = some (s'.mem page) := by
  obtain ⟨⟨role, parted⟩, kept⟩ := reached.kept
  have key := page_key (mem_dirsOf (s := r.kernel) member) user.1 user.2
  exact (kept.swapIn parted member meets ran).2.2 key (swapped.trans (swapEntry_page addr))

/-! ## Two address spaces -/

theorem Tended.dirs_eq {dirs : Finset ℕ} {r : Spaces} (tended : Tended pool r dirs role) :
    dirs = dirsOf r.live r.kernel := by
  ext d
  rw [tended.directory d, dirsOf, Finset.mem_image]

/-- Swapping is set up for the pages in frames 4 and 6, at `0x200000`. -/
def swapReady (s : Kernel) : Kernel :=
  { s with
    mms := fun mm => { s.mms mm with smPriv := some .praListHead }
    praVaddr := fun _ => 0x200000
    praLinks := listAdd (listAdd (listInit ⟨id, id⟩ .praListHead) .praListHead (.praPageLink 4))
      .praListHead (.praPageLink 6) }

/-- The address spaces of a run are apart, whatever the list of swappable pages is. -/
theorem Spaces.Reachable.swapReady {r : Spaces} (reached : Spaces.Reachable pool r)
    (Condition : Kernel → ℕ → Prop) :
    Device.Reachable userSlots r.live Condition ⟨Paging.swapReady r.kernel, fun _ _ => none⟩ := by
  obtain ⟨dirs, role, tended⟩ := reached.tended
  have same : dirsOf r.live (Paging.swapReady r.kernel) = dirs := tended.dirs_eq.symm
  have parted : Parted userSlots r.live (Paging.swapReady r.kernel) role :=
    ⟨same ▸ tended.counted.congr rfl rfl rfl fun _ _ => rfl, same ▸ tended.alone, tended.distinct⟩
  exact .boot parted (same ▸ tended.clean)

/-- Seven free frames, each with its number in every word. -/
def sevenFrames : Kernel :=
  { smallKernel with
    npage := 8
    mem := fun f _ => f
    free := {1, 2, 3, 4, 5, 6, 7}
    maxSwapOffset := 0x1000 }

theorem booted_sevenFrames : Booted {1, 2, 3, 4, 5, 6, 7} sevenFrames := by
  refine ⟨⟨by decide, ?_, rfl, by decide, by simp, by simp, by simp [sevenFrames, smallKernel], by simp,
    rfl⟩, by decide, fun i _ => (by decide : ¬ Present 0)⟩
  intro i slot
  exact (Finset.mem_range.mp slot).trans (by decide)

/-- Both address spaces have a page at `0x200000`: the first in frame 4, the second
in frame 6. The first is written out, then the second. -/
theorem two_spaces :
    ∃ s s₁ s₂ s₃ s₄ : Kernel,
      (∀ Condition, Device.Reachable userSlots {1, 0} Condition ⟨s, fun _ _ => none⟩) ∧
      (victimOf s 0 = some 4 ∧ s.praVaddr 4 = 0x200000 ∧ (s.mms 0).pgdir = 1 ∧ (s.mms 1).pgdir = 2 ∧
        view s (1, 0x200) = some 4 ∧ pteOf s 2 0x200 = 0x6007) ∧
      swapOut 0 1 s = some s₁ ∧ swapOut 1 1 s₁ = some s₂ ∧
      ((s₁.mms 0).pgdir = 1 ∧ pteOf s₁ 1 0x200 = swapEntry 0x200000 ∧ lowest.pick s₁.free = some 4) ∧
      swapIn lowest s₁ 0 0x200000 = some (s₃, 4) ∧
      swapIn lowest s₂ 0 0x200000 = some (s₄, 4) ∧ s₄.mem 4 0 = 6 ∧
      ((s₂.mms 0).pgdir = 1 ∧ pteOf s₂ 1 0x200 = swapEntry 0x200000) ∧
      (Device.record ⟨s₁, Device.record ⟨s, fun _ _ => none⟩ 0⟩ 1 0 0x200).map (· 0) = some 4 := by
  have new : 1 ∉ insert 0 (∅ : Finset ℕ) := by simp
  have zero : 0 ∈ insert 1 (insert 0 (∅ : Finset ℕ)) := by simp
  have one : 1 ∈ insert 1 (insert 0 (∅ : Finset ℕ)) := by simp
  have run₁ := Spaces.Reachable.step (.boot booted_sevenFrames) lowest (.create 0)
    (Finset.notMem_empty 0) rfl
  have run₂ := Spaces.Reachable.step run₁ lowest (.create 1) new rfl
  have run₃ := Spaces.Reachable.step run₂ lowest (.mmMap 0 0x200000 0x1000 vmWrite true) zero rfl
  have run₄ := Spaces.Reachable.step run₃ lowest (.mmMap 1 0x200000 0x1000 vmWrite true) one rfl
  have run₅ := Spaces.Reachable.step run₄ lowest (.doPgfault 0 2 0x200000) zero rfl
  have run₆ := Spaces.Reachable.step run₅ lowest (.doPgfault 1 2 0x200000) one rfl
  exact ⟨_, _, _, _, _, fun Condition => run₆.swapReady Condition, ⟨rfl, rfl, rfl, rfl, rfl, rfl⟩, rfl, rfl,
    ⟨rfl, rfl, rfl⟩, rfl, rfl, rfl, ⟨rfl, rfl⟩, rfl⟩

/-- The first address space gets its page back. -/
theorem swap_in_own_content_page :
    ∃ (r : Device) (s' : Kernel), Device.Reachable userSlots {1, 0} (Harmless userSlots {1, 0}) r ∧
      swapIn lowest r.kernel 0 0x200000 = some (s', 4) ∧ r.out 0 0x200 = some (s'.mem 4) := by
  obtain ⟨s, s₁, s₂, s₃, s₄, boot, ⟨victim, vaddr, pgdir₀, pgdir₁, here, there⟩, out, -,
    ⟨pgdir, swapped, pick⟩, back, -⟩ := two_spaces
  have harmless : Harmless userSlots {1, 0} s 0 := by
    intro page chosen
    rw [victim] at chosen
    cases chosen
    rw [vaddr, pgdir₀]
    refine ⟨by decide, userSlots_user.pdx_mem (by decide), here, fun m member other => ?_⟩
    obtain rfl : m = 1 := by simpa [other] using member
    rw [pgdir₁, show 0x200000 / pgSize = 0x200 by decide, there]
    decide
  have reached := Device.Reachable.swapOut (boot _) 0 (by simp) harmless out
  refine ⟨_, s₃, reached, back, ?_⟩
  refine swap_in_own_content reached (by simp) ⟨by decide, userSlots_user.pdx_mem (by decide)⟩ ?_ ?_ back
  · rw [pgdir]
    exact swapped
  · intro full
    rw [pick] at full
    cases full

/-- The second address space writes its page to the slot of the first, which then
loads the page of the second. -/
theorem slots_shared_between_spaces :
    ∃ (r : Device) (s' : Kernel), Device.Reachable userSlots {1, 0} (fun _ _ => True) r ∧
      pteOf r.kernel (r.kernel.mms 0).pgdir 0x200 = swapEntry 0x200000 ∧
      swapIn lowest r.kernel 0 0x200000 = some (s', 4) ∧ r.out 0 0x200 ≠ some (s'.mem 4) := by
  obtain ⟨s, s₁, s₂, s₃, s₄, boot, -, out₀, out₁, -, -, back, word, ⟨pgdir, swapped⟩, record⟩ := two_spaces
  have first := Device.Reachable.swapOut (boot fun _ _ => True) 0 (by simp) trivial out₀
  have second := Device.Reachable.swapOut first 1 (by simp) trivial out₁
  refine ⟨_, s₄, second, ?_, back, fun same => ?_⟩
  · rw [pgdir]
    exact swapped
  · have record := (congrArg (Option.map (· 0)) same).symm.trans record
    rw [Option.map_some, word] at record
    cases record

end LiNos.Paging
