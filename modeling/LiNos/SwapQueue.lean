import LiNos.VmmSpaces

/-!
Swapping for one address space.

With swapping on, `alloc_page` makes room by writing out the page that has been
on the list of swappable pages for the longest time. The page table entry then
holds the slot of the page instead of its frame, so one word says which of three
states a page is in. `content` is what a page holds, in memory or on the device;
`Swapping` is what the functions rely on; making room changes no content
(`Swapping.alloc`).
-/

namespace LiNos.Paging

open CircularList Tally List Option
open Function (update update_of_ne update_self)

/-! ## Slots of the device -/

section

variable {n : ℕ} (page : n < pageCount)
include page

theorem swapEntry_eq : swapEntry (n * pgSize) = (n + 1) * 256 := by
  have whole : n * pgSize / pgSize = n := Nat.mul_div_cancel n (by decide)
  unfold pageCount at page
  rw [swapEntry, whole, Nat.shiftLeft_eq, wrap]
  exact Nat.mod_eq_of_lt (by omega)

theorem swapEntry_slot : swapEntry (n * pgSize) >>> 8 = n + 1 := by
  rw [swapEntry_eq page, Nat.shiftRight_eq_div_pow]
  exact Nat.mul_div_cancel _ (by decide)

theorem swapEntry_absent : ¬ Present (swapEntry (n * pgSize)) := by
  rw [swapEntry_eq page, Present, not_not, pteP, Nat.and_one_is_mod]
  omega

theorem swapEntry_ne_zero : swapEntry (n * pgSize) ≠ 0 := by
  rw [swapEntry_eq page]
  omega

theorem swapOffset_eq {s : Kernel} (room : n + 1 < s.maxSwapOffset) :
    swapOffset s (swapEntry (n * pgSize)) = some (n + 1) := by
  rw [swapOffset, swapEntry_slot page]
  exact if_pos ⟨by omega, room⟩

end

/-! ## Writing a page out -/

/-- The state after the page at `n` in frame `f` has been written out. -/
def evicted (s : Kernel) (t f n : ℕ) : Kernel :=
  { s.poke t (n % 1024) (swapEntry (n * pgSize)) with
    praLinks := listDel s.praLinks (.praPageLink f)
    disk := update s.disk (n + 1) (s.mem f)
    ref := update s.ref f 0
    free := insert f s.free }

section Evicted

variable {slots dirs : Finset ℕ} {s : Kernel} {role : ℕ → Role} {d f n t : ℕ}

theorem Counted.evicted_entries (counted : Counted s slots dirs role)
    (is : role t = .table d (n / 1024)) :
    ∀ y ∈ keys slots dirs, pteOf (evicted s t f n) y.1 y.2 =
      if y = (d, n) then swapEntry (n * pgSize) else pteOf s y.1 y.2 := by
  have written : (evicted s t f n).mem = (s.poke t (n % 1024) (swapEntry (n * pgSize))).mem := rfl
  have entries := counted.tables.pteOf_poked is (Nat.mod_lt n (by decide)) written
  rwa [Nat.div_add_mod'] at entries

/-- The frame of a page that was mapped once is free when the page is written out. -/
theorem Counted.evicted (counted : Counted s slots dirs role) (key : (d, n) ∈ keys slots dirs)
    (here : view s (d, n) = some f) (only : ∀ y ∈ keys slots dirs, view s y = some f → y = (d, n))
    (is : role t = .table d (n / 1024)) :
    Counted (Paging.evicted s t f n) slots dirs (update role f .free) := by
  have whole : n / 1024 * 1024 + n % 1024 = n := Nat.div_add_mod' n 1024
  have low : n % 1024 < 1024 := Nat.mod_lt n (by decide)
  have data := counted.view_data key here
  have once : s.ref f = 1 := by
    rw [counted.data f data, tally_eq_one key here only]
    rfl
  have cleared := counted.clear_last is low (by rwa [whole]) once
  have still : update role f .free t = .table d (n / 1024) := by
    rwa [update_of_ne (by grind)]
  have marked := cleared.counted.poke_absent still low
    (by simp [Kernel.poke, Present]) (swapEntry_absent (mem_keys.mp key).2.1)
  refine marked.congr rfl rfl rfl fun g _ => ?_
  simp [Paging.evicted, Kernel.poke]

end Evicted

/-! ## The invariant -/

/-- What a page holds, in memory or on the device; `none` for a page that has not
been touched. -/
def content (s : Kernel) (d n : ℕ) : Option (ℕ → ℕ) :=
  if pteOf s d n = 0 then none
  else if Present (pteOf s d n) then some (s.mem (frameOf (pteOf s d n)))
  else some (s.disk (pteOf s d n >>> 8))

/-- An address space `mm` with its regions, and the frames it may use. The regions
consist of whole pages and do not overlap; there is one frame more than the
regions need page tables. -/
structure Setting where
  mm : ℕ
  pgdir : ℕ
  vmas : List Vma
  slots : Finset ℕ
  pool : Finset ℕ
  maxSwapOffset : ℕ
  aligned : ∀ v ∈ vmas, v.vmStart % pgSize = 0 ∧ v.vmEnd % pgSize = 0
  top : ∀ v ∈ vmas, v.vmEnd ≤ 2 ^ 32
  sorted : Sorted vmas
  tables : ∀ i, i ∈ slots ↔ i ∈ regionSlots vmas
  room : slots.card + 1 ≤ pool.card

/-- Page `n` has its table among those of the setting. -/
abbrev Setting.Covers (c : Setting) (n : ℕ) : Prop := (c.pgdir, n) ∈ keys c.slots {c.pgdir}

/-- What the entry of page `n` may be: nothing, the slot of the page on the device,
or a frame with the permissions of the region. -/
def EntryOk (c : Setting) (n w : ℕ) : Prop :=
  w = 0 ∨ ∃ vma ∈ c.vmas, vma.Contains (n * pgSize) ∧ n + 1 < c.maxSwapOffset ∧
    (w = swapEntry (n * pgSize) ∨ ∃ f, w = pteWord f (faultPerm vma.vmFlags))

/-- Between two accesses: every frame of the pool is free, a table, or a page on
the list of swappable pages; a page on the list has its address recorded. -/
structure Swapping (c : Setting) (s : Kernel) (role : ℕ → Role) (queue : List ℕ) : Prop where
  counted : Counted s c.slots {c.pgdir} role
  swapOn : s.swapInitOk = true
  checkMm : s.checkMm = some c.mm
  pgdir : (s.mms c.mm).pgdir = c.pgdir
  smPriv : (s.mms c.mm).smPriv = some .praListHead
  mmap : (s.mms c.mm).mmap = c.vmas
  cache : ∀ vma ∈ (s.mms c.mm).mmapCache, vma ∈ c.vmas
  device : s.maxSwapOffset = c.maxSwapOffset
  ring : Ring s.praLinks .praListHead (queue.map .praPageLink)
  queued : ∀ f, f ∈ queue ↔ role f = .data
  vaddr : ∀ n f, (c.pgdir, n) ∈ keys c.slots {c.pgdir} → view s (c.pgdir, n) = some f →
    s.praVaddr f = n * pgSize
  entry : ∀ n, (c.pgdir, n) ∈ keys c.slots {c.pgdir} → EntryOk c n (pteOf s c.pgdir n)
  pool : ∀ f, f ∈ c.pool ↔ role f = .free ∨ role f = .data ∨ ∃ i, role f = .table c.pgdir i

/-- Every page holds what it held, and no page has come into memory. -/
def Undisturbed (c : Setting) (s s' : Kernel) : Prop :=
  ∀ m, (c.pgdir, m) ∈ keys c.slots {c.pgdir} → content s' c.pgdir m = content s c.pgdir m ∧
    (¬ Present (pteOf s c.pgdir m) → pteOf s' c.pgdir m = pteOf s c.pgdir m)

theorem Undisturbed.refl {c : Setting} {s : Kernel} : Undisturbed c s s := fun _ _ => ⟨rfl, fun _ => rfl⟩

theorem Undisturbed.trans {c : Setting} {s s₁ s₂ : Kernel} (first : Undisturbed c s s₁)
    (second : Undisturbed c s₁ s₂) : Undisturbed c s s₂ := by
  intro m key
  have held := first m key
  have held' := second m key
  grind

variable {c : Setting} {s s' : Kernel} {role role' : ℕ → Role} {queue : List ℕ} {f n t m mm : ℕ}
  {policy : Policy}

section

variable (swapping : Swapping c s role queue)

include swapping

theorem Swapping.nodup : queue.Nodup :=
  (swapping.ring.nodup).of_map _

section

variable (key : c.Covers n)
include key

/-- A frame holds one page. -/
theorem Swapping.unique (here : view s (c.pgdir, n) = some f)
    (key' : c.Covers m) (there : view s (c.pgdir, m) = some f) : m = n := by
  have left := swapping.vaddr n f key here
  have right := swapping.vaddr m f key' there
  exact Nat.eq_of_mul_eq_mul_right (by decide : 0 < pgSize) (right.symm.trans left)

/-- A page that is there has the permissions of its region. -/
theorem Swapping.present_entry (there : Present (pteOf s c.pgdir n)) :
    ∃ vma ∈ c.vmas, vma.Contains (n * pgSize) ∧ n + 1 < c.maxSwapOffset ∧
      ∃ f, pteOf s c.pgdir n = pteWord f (faultPerm vma.vmFlags) := by
  obtain ⟨vma, member, inside, room, swapped | word⟩ := (swapping.entry n key).resolve_left there.ne_zero
  · rw [swapped] at there
    exact absurd there (swapEntry_absent (mem_keys.mp key).2.1)
  · exact ⟨vma, member, inside, room, word⟩

/-- A page that is neither there nor untouched is on the device. -/
theorem Swapping.swapped_entry (touched : pteOf s c.pgdir n ≠ 0)
    (absent : ¬ Present (pteOf s c.pgdir n)) :
    pteOf s c.pgdir n = swapEntry (n * pgSize) := by
  obtain ⟨vma, -, -, -, swapped | ⟨f, word⟩⟩ := (swapping.entry n key).resolve_left touched
  · exact swapped
  · exact absurd (word ▸ present_pteWord) absent

end

end

theorem pageAddress (page : n < pageCount) : n * pgSize < 2 ^ 32 ∧ pdx (n * pgSize) = n / 1024 ∧
    ptx (n * pgSize) = n % 1024 := by
  have whole : n * pgSize / pgSize = n := Nat.mul_div_cancel n (by decide)
  have address : n * pgSize < 2 ^ 32 := by
    unfold pageCount at page
    unfold pgSize
    omega
  exact ⟨address, by rw [pdx_eq address, whole], by rw [ptx_eq, whole]⟩

/-- The walk to the entry of a page that is there. -/
theorem Swapping.walk (swapping : Swapping c s role queue)
    (key : c.Covers n) (touched : pteOf s c.pgdir n ≠ 0) :
    ∃ t, role t = .table c.pgdir (n / 1024) ∧
      findPte s c.pgdir (n * pgSize) = some (some (t, n % 1024)) ∧
      pteOf s c.pgdir n = s.mem t (n % 1024) := by
  obtain ⟨known, page, slot⟩ := mem_keys.mp key
  obtain ⟨address, dir, low⟩ := pageAddress page
  have found := swapping.counted.tables.findPte_eq known address (by rwa [dir])
  rw [dir, low, show n * pgSize / pgSize = n from Nat.mul_div_cancel n (by decide)] at found
  rcases found with ⟨-, -, zero⟩ | ⟨t, is, found, -, entry⟩
  · exact absurd zero touched
  · exact ⟨t, is, found, entry⟩

/-- The page at the end of the list is the one that goes. -/
theorem fifoSwapOutVictim_last (smPriv : (s.mms mm).smPriv = some .praListHead)
    (ring : Ring s.praLinks .praListHead ((queue ++ [f]).map .praPageLink)) :
    fifoSwapOutVictim s mm = some ({ s with praLinks := listDel s.praLinks (.praPageLink f) }, f) := by
  have last : s.praLinks.prev .praListHead = .praPageLink f := by
    rw [ring.prev_head, map_append, map_singleton, lastOf_concat]
  simp [fifoSwapOutVictim, smPriv, last]

/-- `swap_out` takes the page at the end of the list. -/
theorem swapOut_last {offset : ℕ} {ptep : PtePtr} (smPriv : (s.mms mm).smPriv = some .praListHead)
    (ring : Ring s.praLinks .praListHead ((queue ++ [f]).map .praPageLink))
    (walked : findPte s (s.mms mm).pgdir (s.praVaddr f) = some (some ptep))
    (present : Present (s.pte ptep))
    (slot : swapOffset s (swapEntry (s.praVaddr f)) = some offset) (used : f ∉ s.free) :
    swapOut mm 1 s = some { s.poke ptep.1 ptep.2 (swapEntry (s.praVaddr f)) with
      praLinks := listDel s.praLinks (.praPageLink f)
      disk := update s.disk offset (s.mem f)
      free := insert f s.free
      ref := update s.ref f 0 } := by
  rw [swapOut, fifoSwapOutVictim_last smPriv ring, bind_eq_bind, bind_some]
  change (do
    let found ← findPte s (s.mms mm).pgdir (s.praVaddr f)
    _ : Option Kernel) = _
  rw [walked]
  change (if s.pte ptep &&& pteP = 0 then none else (do
    let offset ← swapOffset s (swapEntry (s.praVaddr f))
    _ : Option Kernel) >>= _) = _
  rw [if_neg present, slot]
  simp [swapOut, freePage, used, Kernel.poke]

/-- `swap_out` writes out the page at the end of the list. -/
theorem Swapping.swapOut_eq (swapping : Swapping c s role (queue ++ [f])) :
    ∃ n t, c.Covers n ∧ view s (c.pgdir, n) = some f ∧
      role t = .table c.pgdir (n / 1024) ∧ Paging.swapOut c.mm 1 s = some (evicted s t f n) := by
  have data : role f = .data := (swapping.queued f).mp (by simp)
  obtain ⟨⟨d, n⟩, key, here⟩ := swapping.counted.data_iff.mp data
  obtain rfl : d = c.pgdir := Finset.mem_singleton.mp (mem_keys.mp key).1
  have there := present_of_view here
  obtain ⟨t, is, found, entry⟩ := swapping.walk key there.ne_zero
  obtain ⟨-, -, -, room, -⟩ := swapping.present_entry key there
  have vaddr := swapping.vaddr n f key here
  have used : f ∉ s.free := by
    rw [swapping.counted.tables.free f, data]
    simp
  refine ⟨n, t, key, here, is, ?_⟩
  rw [← swapping.device] at room
  rw [← swapping.pgdir, ← vaddr] at found
  rw [swapOut_last swapping.smPriv swapping.ring found ((congrArg Present entry).mp there)
    (vaddr ▸ swapOffset_eq (mem_keys.mp key).2.1 room) used, vaddr]
  rfl

theorem Swapping.evicted_entries (swapping : Swapping c s role queue)
    (is : role t = .table c.pgdir (n / 1024)) (key' : c.Covers m) :
    pteOf (evicted s t f n) c.pgdir m =
      if m = n then swapEntry (n * pgSize) else pteOf s c.pgdir m := by
  rw [swapping.counted.evicted_entries is (c.pgdir, m) key']
  simp only [Prod.mk.injEq, true_and]

section Evict

variable (swapping : Swapping c s role (queue ++ [f]))
  (key : c.Covers n) (here : view s (c.pgdir, n) = some f)
  (is : role t = .table c.pgdir (n / 1024))

include swapping key here is

theorem Swapping.evicted_counted :
    Counted (evicted s t f n) c.slots {c.pgdir} (update role f .free) := by
  refine swapping.counted.evicted key here ?_ is
  rintro ⟨d, m⟩ key' there
  obtain rfl : d = c.pgdir := Finset.mem_singleton.mp (mem_keys.mp key').1
  rw [swapping.unique key here key' there]

/-- Writing a page out changes no content. -/
theorem Swapping.evicted_content (key' : c.Covers m) :
    content (evicted s t f n) c.pgdir m = content s c.pgdir m := by
  have page := (mem_keys.mp key).2.1
  have there := present_of_view here
  rw [content, content, swapping.evicted_entries is key']
  by_cases same : m = n
  · subst same
    have frame : frameOf (pteOf s c.pgdir m) = f := some.inj ((if_pos there).symm.trans here)
    rw [if_pos rfl, if_neg (swapEntry_ne_zero page), if_neg (swapEntry_absent page),
      if_neg there.ne_zero, if_pos there, swapEntry_slot page, frame]
    simp [evicted]
  · rw [if_neg same]
    split_ifs with zero resident
    · rfl
    · have used := swapping.counted.view_data key' (if_pos resident)
      exact congrArg some (Kernel.poke_mem_other (by grind))
    · rw [swapping.swapped_entry key' zero resident, swapEntry_slot (mem_keys.mp key').2.1]
      exact congrArg some (update_of_ne (by omega) _ _)

theorem Swapping.evicted_swapping :
    Swapping c (evicted s t f n) (update role f .free) queue := by
  have entries : ∀ m, c.Covers m → pteOf (evicted s t f n) c.pgdir m =
      if m = n then swapEntry (n * pgSize) else pteOf s c.pgdir m :=
    fun m key' => swapping.evicted_entries is key'
  have distinct : f ∉ queue := fun member =>
    (nodup_append.mp swapping.nodup).2.2 f member f (by simp) rfl
  have queued := swapping.queued
  have pool := swapping.pool
  refine { swapping with
    counted := swapping.evicted_counted key here is
    ring := ?_, queued := ?_, vaddr := ?_, entry := ?_, pool := ?_ }
  · have ring := swapping.ring
    rw [map_append, map_singleton] at ring
    exact append_nil (queue.map _) ▸ ring_listDel ring
  · grind [Function.update_apply]
  · intro m g key' there
    have other : m ≠ n := by
      rintro rfl
      have now := present_of_view there
      rw [entries m key', if_pos rfl] at now
      exact swapEntry_absent (mem_keys.mp key).2.1 now
    have entry : pteOf (evicted s t f n) c.pgdir m = pteOf s c.pgdir m := by
      rw [entries m key', if_neg other]
    exact swapping.vaddr m g key' (view_congr (x := (c.pgdir, m)) entry ▸ there)
  · intro m key'
    rw [entries m key']
    split_ifs with same
    · subst same
      obtain ⟨vma, member, inside, room, -⟩ := swapping.present_entry key (present_of_view here)
      exact .inr ⟨vma, member, inside, room, .inl rfl⟩
    · exact swapping.entry m key'
  · grind [Function.update_apply]

end Evict

/-- Making room: a page is written out, its frame is free, and every page holds
what it held. -/
theorem Swapping.swapOut (swapping : Swapping c s role (queue ++ [f])) :
    ∃ s' role', Paging.swapOut c.mm 1 s = some s' ∧ Swapping c s' role' queue ∧
      s'.free = insert f s.free ∧ s'.praVaddr = s.praVaddr ∧
      s'.mem c.pgdir = s.mem c.pgdir ∧ Undisturbed c s s' := by
  obtain ⟨n, t, key, here, is, ran⟩ := swapping.swapOut_eq
  refine ⟨_, _, ran, swapping.evicted_swapping key here is, rfl, rfl, ?_,
    fun m key' => ⟨swapping.evicted_content key here is key', fun absent => ?_⟩⟩
  · have directory := (swapping.counted.tables.directory _).mp (Finset.mem_singleton_self c.pgdir)
    exact Kernel.poke_mem_other (by grind)
  · rw [swapping.evicted_entries is key', if_neg]
    rintro rfl
    exact absent (present_of_view here)

/-! ## Allocation -/

/-- A frame that `swap_out` has freed is there for the next round of `alloc_pages`. -/
theorem swapOut_free (ran : Paging.swapOut mm 1 s = some s') : s'.free ≠ ∅ := by
  simp only [Paging.swapOut, bind_eq_bind, bind_eq_some_iff] at ran
  obtain ⟨⟨s₁, page⟩, -, found, -, ptep, -, ran⟩ := ran
  split_ifs at ran
  simp only [bind_eq_some_iff, freePage] at ran
  obtain ⟨s₂, -, s₃, freed, same⟩ := ran
  split_ifs at freed
  cases freed
  cases same
  exact (Finset.insert_nonempty page _).ne_empty

/-- There is no third round. -/
theorem allocPagesLoop_enough (fuel : ℕ) : allocPagesLoop policy (fuel + 2) s = allocPage policy s := by
  rw [allocPage, allocPagesLoop, allocPagesLoop]
  cases policy.pick s.free with
  | some page => rfl
  | none =>
    by_cases on : s.swapInitOk
    · cases s.checkMm with
      | none => rfl
      | some mm =>
        cases ran : Paging.swapOut mm 1 s with
        | none => simp [ran]
        | some s' =>
          cases picked : policy.pick s'.free with
          | none => exact absurd (policy.pick_none _ picked) (swapOut_free ran)
          | some page => simp [ran, allocPagesLoop, picked]
    · simp [on]

/-- Not all frames are page tables. -/
theorem Swapping.room (swapping : Swapping c s role queue) : s.free ≠ ∅ ∨ queue ≠ [] := by
  by_contra! full
  obtain ⟨empty, rfl⟩ := full
  have tables := swapping.counted.tables
  have table : ∀ f ∈ c.pool, ∃ i, role f = .table c.pgdir i := by
    intro f member
    have pool := (swapping.pool f).mp member
    have free := tables.free f
    have queued := swapping.queued f
    grind
  choose! slot is using table
  have injective : ∀ f ∈ c.pool, ∀ g ∈ c.pool, slot f = slot g → f = g := by
    intro f left g right same
    have word := (tables.table f _ _ (is f left)).2.2
    rw [same, (tables.table g _ _ (is g right)).2.2] at word
    have frames := congrArg frameOf word
    rw [frameOf_pdeWord (tables.small (by simp [is g right])),
      frameOf_pdeWord (tables.small (by simp [is f left]))] at frames
    exact frames.symm
  have bound := Finset.card_le_card_of_injOn slot
    (fun f member => (tables.table f _ _ (is f member)).2.1) fun f left g right => injective f left g right
  have more := c.room
  omega

/-- There is a free frame, or the page that has been on the list for the longest time
leaves its frame. -/
def MadeRoom (s s₁ : Kernel) (queue queue₁ : List ℕ) : Prop :=
  s.free ≠ ∅ ∧ s₁ = s ∧ queue₁ = queue ∨
    s.free = ∅ ∧ ∃ last, queue = queue₁ ++ [last] ∧ s₁.free = {last} ∧ s₁.praVaddr = s.praVaddr

/-- `alloc_page` gives out a frame, and every page holds what it held. -/
theorem Swapping.alloc (policy : Policy) (swapping : Swapping c s role queue) :
    ∃ s₁ role₁ queue₁ f, Swapping c s₁ role₁ queue₁ ∧ f ∈ s₁.free ∧
      s₁.mem c.pgdir = s.mem c.pgdir ∧ Undisturbed c s s₁ ∧
      allocPage policy s = some ({ s₁ with free := s₁.free.erase f }, some f) ∧
      MadeRoom s s₁ queue queue₁ := by
  cases picked : policy.pick s.free with
  | some f =>
    have member := policy.pick_mem _ _ picked
    refine ⟨s, role, queue, f, swapping, member, rfl, .refl, ?_, .inl ⟨Finset.ne_empty_of_mem member, rfl, rfl⟩⟩
    simp [allocPage, allocPagesLoop, picked]
  | none =>
    have empty := policy.pick_none _ picked
    have full := swapping.room.resolve_left (not_not.mpr empty)
    obtain ⟨rest, last, rfl⟩ : ∃ rest last, queue = rest ++ [last] :=
      ⟨_, _, (dropLast_append_getLast full).symm⟩
    obtain ⟨s₁, role₁, ran, swapping₁, free, vaddr, dir, same⟩ := swapping.swapOut
    rw [empty] at free
    cases picked₁ : policy.pick s₁.free with
    | none =>
      rw [policy.pick_none _ picked₁] at free
      cases (Finset.insert_ne_empty last ∅ free.symm)
    | some f =>
      refine ⟨s₁, role₁, rest, f, swapping₁, policy.pick_mem _ _ picked₁, dir, same, ?_,
        .inr ⟨empty, last, rfl, free, vaddr⟩⟩
      simp [allocPage, allocPagesLoop, picked, swapping.swapOn, swapping.checkMm, ran, picked₁]

/-! ## Page tables -/

theorem content_of_view (here : view s (c.pgdir, n) = some f) :
    content s c.pgdir n = some (s.mem f) := by
  have there := present_of_view here
  rw [content, if_neg there.ne_zero, if_pos there, some.inj ((if_pos there).symm.trans here)]

theorem content_congr {d : ℕ} (entry : pteOf s' d n = pteOf s d n)
    (mem : ∀ f, view s (d, n) = some f → s'.mem f = s.mem f) (disk : s'.disk = s.disk) :
    content s' d n = content s d n := by
  unfold content
  rw [entry]
  by_cases there : Present (pteOf s d n)
  · rw [if_pos there, if_pos there, mem _ (if_pos there)]
  · rw [if_neg there, if_neg there, disk]

/-- A frame becomes a page table. -/
theorem Swapping.grown {i : ℕ} (swapping : Swapping c s role queue)
    (grown : Grown c.slots {c.pgdir} s role s' role' c.pgdir i) : Swapping c s' role' queue := by
  have entries : ∀ m, c.Covers m → pteOf s' c.pgdir m = pteOf s c.pgdir m :=
    fun m key => grown.entries _ key
  have views : ∀ m, c.Covers m → view s' (c.pgdir, m) = view s (c.pgdir, m) :=
    fun m key => view_congr (entries m key)
  obtain ⟨counted, kept, used, -, -, -, -, rest⟩ := grown
  have roles : ∀ g, role' g = role g ∨
      role g = .free ∧ role' g = .table c.pgdir i := by grind
  obtain ⟨mem, ref, free, rfl⟩ : ∃ mem ref free, s' = { s with mem, ref, free } := ⟨_, _, _, rest⟩
  have queued := swapping.queued
  have pool := swapping.pool
  refine { swapping with counted, queued := by grind, vaddr := ?_, entry := ?_, pool := by grind }
  · exact fun m g key there => swapping.vaddr m g key (views m key ▸ there)
  · exact fun m key => entries m key ▸ swapping.entry m key

/-- `get_pte(pgdir, la, 1)` finds the entry, and every page holds what it held. -/
theorem Swapping.getPte (policy : Policy) (swapping : Swapping c s role queue)
    (key : c.Covers n) :
    ∃ s' role' queue' t, Paging.getPte policy s c.pgdir (n * pgSize) = some (s', some (t, n % 1024)) ∧
      Swapping c s' role' queue' ∧ role' t = .table c.pgdir (n / 1024) ∧
      Present (s'.mem c.pgdir (n / 1024)) ∧ Undisturbed c s s' ∧ queue' <+: queue ∧
      (Present (s.mem c.pgdir (n / 1024)) → s' = s ∧ queue' = queue) := by
  obtain ⟨known, page, slot⟩ := mem_keys.mp key
  obtain ⟨address, dir, low⟩ := pageAddress page
  rw [← dir, ← low]
  rw [← dir] at slot
  by_cases there : Present (s.mem c.pgdir (pdx (n * pgSize)))
  · obtain ⟨t, found, is⟩ := getPte_there swapping.counted known slot policy there
    exact ⟨s, role, queue, t, found, swapping, is, there, .refl, prefix_rfl, fun _ => ⟨rfl, rfl⟩⟩
  · have off : s.mem c.pgdir (pdx (n * pgSize)) &&& pteP = 0 := not_not.mp there
    obtain ⟨s₁, role₁, queue₁, f, swapping₁, member, same, contents, took, made⟩ := swapping.alloc policy
    have shorter : queue₁ <+: queue := by
      rcases made with ⟨-, -, rfl⟩ | ⟨-, last, rfl, -⟩
      · exact prefix_rfl
      · exact prefix_append queue₁ _
    rw [← same] at there
    obtain ⟨s', role', ran, is, present, grown⟩ :=
      swapping₁.counted.grow known slot there member
    refine ⟨s', role', queue₁, f, ?_, swapping₁.grown grown, is, present, contents.trans
      fun m key' => ⟨?_, fun _ => grown.entries _ key'⟩, shorter, fun here => absurd (same ▸ here) there⟩
    · simp only [Paging.getPte, off, if_true, took, bind_eq_bind, bind_some, ran]
    · refine content_congr (grown.entries _ key') (fun g mapped => ?_) (by rw [grown.rest])
      have data := swapping₁.counted.view_data key' mapped
      have directory := (swapping₁.counted.tables.directory _).mp known
      exact grown.mem g (by simp [data]) (by grind)

/-! ## Mapping a page -/

/-- The frame is the last one on the list, and its address is recorded. -/
def track (s : Kernel) (f la : ℕ) : Kernel :=
  { s with
    praLinks := listAdd s.praLinks .praListHead (.praPageLink f)
    praVaddr := update s.praVaddr f la }

/-- A frame that was free, with something written to it. -/
def takenWith (s : Kernel) (f : ℕ) (words : ℕ → ℕ) : Kernel :=
  ({ s with free := s.free.erase f } : Kernel).fill f words

/-- Taking a free frame and writing to it. -/
theorem Counted.takenWith {slots dirs : Finset ℕ} {words : ℕ → ℕ} (counted : Counted s slots dirs role)
    (member : f ∈ s.free) :
    Counted (Paging.takenWith s f words) slots dirs (update role f .held) ∧
      ∀ x ∈ keys slots dirs, pteOf (Paging.takenWith s f words) x.1 x.2 = pteOf s x.1 x.2 := by
  have was := (counted.tables.free f).mp member
  constructor
  · refine (counted.take member).congr rfl rfl rfl fun g structural => Kernel.fill_mem_other ?_
    rintro rfl
    exact held_notStructural (update_self g .held role ▸ structural)
  · intro x key
    refine counted.tables.entries_congr (fun g structural => Kernel.fill_mem_other ?_) key
    rintro rfl
    exact free_notStructural (was ▸ structural)

section Map

variable {vma : Vma} (words : ℕ → ℕ) (swapping : Swapping c s role queue) (member : f ∈ s.free)
  (key : c.Covers n) (absent : ¬ Present (pteOf s c.pgdir n))

include swapping member key absent in
/-- A free frame is mapped at a page that has a table but no frame. -/
theorem Swapping.mapped (policy : Policy) (region : vma ∈ c.vmas) (inside : vma.Contains (n * pgSize))
    (room : n + 1 < c.maxSwapOffset) (there : Present (s.mem c.pgdir (n / 1024))) :
    ∃ s₃ role', pageInsert policy (takenWith s f words) c.pgdir f (n * pgSize)
        (faultPerm vma.vmFlags) = some (s₃, 0) ∧
      s₃.free = s.free.erase f ∧ s₃.mem c.pgdir = s.mem c.pgdir ∧
      s₃ = { s with mem := s₃.mem, ref := s₃.ref, free := s₃.free } ∧ s₃.ref f = 1 ∧
      Swapping c (track s₃ f (n * pgSize)) role' (f :: queue) ∧
      pteOf s₃ c.pgdir n = pteWord f (faultPerm vma.vmFlags) ∧
      content s₃ c.pgdir n = some words ∧
      ∀ m, c.Covers m → m ≠ n →
        content s₃ c.pgdir m = content s c.pgdir m := by
  obtain ⟨known, page, slot⟩ := mem_keys.mp key
  obtain ⟨address, dir, low⟩ := pageAddress page
  have small : n % 1024 < 1024 := Nat.mod_lt n (by decide)
  have was := (swapping.counted.tables.free f).mp member
  obtain ⟨counted, entries⟩ : Counted (takenWith s f words) c.slots {c.pgdir} (update role f .held) ∧ _ :=
    swapping.counted.takenWith member
  have directory := (swapping.counted.tables.directory _).mp known
  have there₂ : Present ((takenWith s f words).mem c.pgdir (pdx (n * pgSize))) := by
    rwa [dir, takenWith, Kernel.fill_mem_other (by grind)]
  obtain ⟨t, found, is⟩ := getPte_there counted known (by rwa [dir]) policy there₂
  rw [dir] at is
  rw [low] at found
  have flags : faultPerm vma.vmFlags < 2 ^ 12 := faultPerm_lt
  obtain ⟨s₃, role', ran, inserted⟩ := mapPte_spec counted is small flags
    (.inl (update_self f .held role))
  rw [Nat.div_add_mod'] at inserted
  have here : view s₃ (c.pgdir, n) = some f := inserted.view_here faultPerm_lt
  have kept : ∀ m, c.Covers m → m ≠ n →
      pteOf s₃ c.pgdir m = pteOf s c.pgdir m := fun m key' other =>
    (inserted.kept _ key' (by simp [other])).trans (entries _ key')
  have views : ∀ m, c.Covers m → m ≠ n →
      view s₃ (c.pgdir, m) = view s (c.pgdir, m) := fun m key' other => view_congr (kept m key' other)
  have used : ∀ m g, c.Covers m → view s (c.pgdir, m) = some g → g ≠ f := by
    rintro m g key' mapped rfl
    cases was.symm.trans (swapping.counted.view_data key' mapped)
  -- nothing but the new frame changes its role
  have roles : ∀ g, g ≠ f → role' g = role g := by
    intro g other
    have plain : update role f .held g = role g := update_of_ne other _ _
    by_cases data : role g = .data
    · obtain ⟨⟨d, m⟩, key', mapped⟩ := swapping.counted.data_iff.mp data
      obtain rfl : d = c.pgdir := Finset.mem_singleton.mp (mem_keys.mp key').1
      have apart : m ≠ n := by
        rintro rfl
        exact absent (present_of_view mapped)
      rw [data]
      exact inserted.counted.view_data key' ((views m key' apart).trans mapped)
    · rw [inserted.used g other (by rwa [plain]), plain]
  have mem : ∀ g, role g = .data ∨ g = f → s₃.mem g = (takenWith s f words).mem g := by
    intro g kind
    exact inserted.mem g (by grind [Function.update_apply])
  have once : s₃.ref f = 1 := by
    rw [inserted.counted.data f inserted.becomes, tally_eq_one key here]
    · rfl
    · rintro ⟨d, m⟩ key' mapped
      obtain rfl : d = c.pgdir := Finset.mem_singleton.mp (mem_keys.mp key').1
      by_contra apart
      rw [views m key' (fun same => apart (same ▸ rfl))] at mapped
      exact used m f key' mapped rfl
  have content : content s₃ c.pgdir n = some words := by
    rw [content_of_view here, mem f (.inr rfl), takenWith, Kernel.fill_mem_self]
  obtain ⟨mem₃, ref, free, rfl⟩ : ∃ mem ref free, s₃ = { s with mem, ref, free } :=
    ⟨_, _, _, inserted.rest.trans rfl⟩
  have queued := swapping.queued
  have pool := swapping.pool
  have becomes := inserted.becomes
  refine ⟨_, role', ?_, ?_, ?_, rfl, once, ?_, inserted.here, content, fun m key' other => ?_⟩
  · rw [pageInsert, found]
    simp only [bind_eq_bind, bind_some, ran]
  · ext g
    have now := inserted.counted.tables.free g
    have before := swapping.counted.tables.free g
    grind
  · have plain : update role f .held c.pgdir = .directory := by rwa [update_of_ne (by grind)]
    exact (inserted.mem c.pgdir (by simp [plain])).trans (Kernel.fill_mem_other (by grind))
  · refine { swapping with
      counted := inserted.counted.congr rfl rfl rfl fun _ _ => rfl
      ring := ring_listAdd swapping.ring (by simp [queued, was])
      queued := by grind, vaddr := ?_, entry := ?_, pool := by grind }
    · intro m g key' mapped
      by_cases same : m = n
      · cases (same ▸ here).symm.trans mapped
        rw [same]
        exact update_self ..
      · have mapped := (views m key' same).symm.trans mapped
        exact (update_of_ne (used m g key' mapped) ..).trans (swapping.vaddr m g key' mapped)
    · intro m key'
      by_cases new : m = n
      · rw [new]
        exact .inr ⟨vma, region, inside, room, .inr ⟨f, inserted.here⟩⟩
      · have entry := swapping.entry m key'
        rwa [← kept m key' new] at entry
  · refine content_congr (kept m key' other) (fun g mapped => ?_) rfl
    exact (mem g (.inl (swapping.counted.view_data key' mapped))).trans
      (Kernel.fill_mem_other (used m g key' mapped))

end Map

end LiNos.Paging
