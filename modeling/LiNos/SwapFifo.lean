import LiNos.SwapFaults

/-!
Demand paging against the textbook algorithm (swap_fifo.c).

`Fifo` is first-in first-out replacement with `k` frames: the pages in memory, the
newest first, and the number of faults. In the kernel the same queue is spread over
`do_pgfault`, the retry loop of `alloc_pages`, `swap_out` and the list of swappable
pages, where the page that leaves is chosen inside the allocation for the one that
comes. Once the page tables are there, the two agree access by access
(`fifo_paging_textbook`).
-/

namespace LiNos.Paging

open List Option

/-! ## The algorithm -/

structure Fifo where
  queue : List ℕ
  faults : ℕ

/-- A reference to a page, with the page that leaves. -/
def Fifo.reference (k : ℕ) (fifo : Fifo) (page : ℕ) : Fifo × Option ℕ :=
  if page ∈ fifo.queue then (fifo, none)
  else if fifo.queue.length < k then (⟨page :: fifo.queue, fifo.faults + 1⟩, none)
  else (⟨page :: fifo.queue.dropLast, fifo.faults + 1⟩, fifo.queue.getLast?)

/-- A reference string, from an empty memory. -/
def Fifo.run (k : ℕ) (pages : List ℕ) : Fifo :=
  pages.foldl (fun fifo page => (fifo.reference k page).1) ⟨[], 0⟩

theorem Fifo.reference_leaves {k n page : ℕ} {fifo : Fifo} (nodup : fifo.queue.Nodup) :
    (fifo.reference k page).2 = some n ↔ n ∈ fifo.queue ∧ n ∉ (fifo.reference k page).1.queue := by
  rw [Fifo.reference]
  split_ifs with hit room
  · simp
  · grind
  · rcases fifo.queue.eq_nil_or_concat with none | ⟨rest, last, parts⟩
    · simp [none]
    · simp only [parts, concat_eq_append, dropLast_concat, getLast?_concat] at hit nodup ⊢
      grind

/-! ## Runs of accesses -/

variable {c : Setting} {k n faults : ℕ} {s s' : Kernel} {role : ℕ → Role} {queue refs : List ℕ}
  {access : Access}

/-- The flags of the region allow the access. -/
def Access.Permitted (c : Setting) (access : Access) : Prop :=
  ∃ vma ∈ c.vmas, vma.Contains access.target ∧ vma.Permits access.writes

def Access.page (access : Access) : ℕ := access.target / pgSize

/-- The processor raises a page fault. -/
def Access.Faults (c : Setting) (s : Kernel) (access : Access) : Prop :=
  ¬ Accessible (pteOf s c.pgdir access.page) access.writes

instance : Decidable (access.Faults c s) := inferInstanceAs (Decidable (¬ _))

/-- Runs of accesses with the pages they refer to and the number of faults, from a state
with all page tables, no page in memory and `k` free frames. -/
inductive PagingRun (c : Setting) (k : ℕ) : Kernel → List ℕ → ℕ → Prop
  | start {s : Kernel} {role : ℕ → Role} (empty : Swapping c s role [])
    (tables : ∀ i ∈ c.slots, Present (s.mem c.pgdir i)) (frames : s.free.card = k) :
    PagingRun c k s [] 0
  | step {s s' : Kernel} {refs : List ℕ} {faults : ℕ} {outcome : Option ℕ}
    (before : PagingRun c k s refs faults) (policy : Policy) (access : Access)
    (allowed : access.Allowed c) (permitted : access.Permitted c)
    (ran : access.run policy s c.mm = some (s', outcome)) :
    PagingRun c k s' (refs ++ [access.page]) (faults + if access.Faults c s then 1 else 0)

/-! ## One access -/

/-- The pages on the list are those in memory. -/
theorem Swapping.mem_queuePages (swapping : Swapping c s role queue)
    (key : c.Covers n) :
    n ∈ queuePages s queue ↔ Present (pteOf s c.pgdir n) := by
  constructor
  · intro member
    obtain ⟨f, queued, rfl⟩ := List.mem_map.mp member
    obtain ⟨⟨d, m⟩, key', mapped⟩ := swapping.counted.data_iff.mp ((swapping.queued f).mp queued)
    obtain rfl : d = c.pgdir := Finset.mem_singleton.mp (mem_keys.mp key').1
    rw [swapping.vaddr m f key' mapped, Nat.mul_div_cancel m (by decide)]
    exact present_of_view mapped
  · intro there
    have here : view s (c.pgdir, n) = some (frameOf (pteOf s c.pgdir n)) := if_pos there
    refine List.mem_map.mpr ⟨_, (swapping.queued _).mpr (swapping.counted.view_data key here), ?_⟩
    rw [swapping.vaddr n _ key here, Nat.mul_div_cancel n (by decide)]

theorem Swapping.nodup_queuePages (swapping : Swapping c s role queue) : (queuePages s queue).Nodup := by
  have home : ∀ f ∈ queue, ∃ n, view s (c.pgdir, n) = some f ∧ s.praVaddr f / pgSize = n := by
    intro f queued
    obtain ⟨⟨d, m⟩, key, mapped⟩ := swapping.counted.data_iff.mp ((swapping.queued f).mp queued)
    obtain rfl : d = c.pgdir := Finset.mem_singleton.mp (mem_keys.mp key).1
    exact ⟨m, mapped, by rw [swapping.vaddr m f key mapped, Nat.mul_div_cancel m (by decide)]⟩
  refine swapping.nodup.map_on fun f here g there same => ?_
  obtain ⟨n, left, rfl⟩ := home f here
  obtain ⟨m, right, rfl⟩ := home g there
  rw [← same, left] at right
  exact some.inj right

/-- A permitted access faults when its page is not in memory. -/
theorem Swapping.faults_iff (swapping : Swapping c s role queue) (permitted : access.Permitted c) :
    access.Faults c s ↔ ¬ Present (pteOf s c.pgdir access.page) := by
  obtain ⟨vma, region, inside, permits⟩ := permitted
  obtain ⟨key, here⟩ := c.key region inside
  refine not_congr ⟨fun accessible => accessible.1, fun there => ?_⟩
  obtain ⟨vma', region', here', -, f, word⟩ := swapping.present_entry key there
  obtain rfl := c.sorted.unique region region' here here'
  rw [Access.page, word, accessible_pteWord]
  intro writes
  simpa [Vma.Permits, writes] using permits

/-- An access with its effect on the list: none, or the page comes first. -/
theorem Swapping.refer (policy : Policy) (swapping : Swapping c s role queue)
    (tables : ∀ i ∈ c.slots, Present (s.mem c.pgdir i)) (allowed : access.Allowed c)
    (permitted : access.Permitted c) :
    ∃ s' role' queue' byte, access.run policy s c.mm = some (s', some byte) ∧
      Swapping c s' role' queue' ∧ s'.mem c.pgdir = s.mem c.pgdir ∧
      if access.Faults c s then Turned c s s' queue queue' access.page
      else queuePages s' queue' = queuePages s queue ∧ s'.free.card = s.free.card := by
  obtain ⟨vma, region, inside, permits⟩ := permitted
  obtain ⟨key, -⟩ := c.key region inside
  obtain ⟨s', role', queue', page, ran, swapping', translated, moved⟩ :=
    swapping.translate policy access.writes region inside allowed.2.1
  obtain ⟨f, rfl⟩ : ∃ f, page = some f :=
    ne_none_iff_exists'.mp fun none => (translated.refused none).1 permits
  have here := translated.mapped f rfl
  have moved := moved permits (tables _ (mem_keys.mp key).2.2)
  have turned : if access.Faults c s then Turned c s s' queue queue' access.page
      else s' = s ∧ queue' = queue := by
    have same : (if ¬ Accessible (pteOf s c.pgdir access.page) access.writes then
        Turned c s s' queue queue' access.page else s' = s ∧ queue' = queue) := by rwa [ite_not]
    exact same
  have directory : s'.mem c.pgdir = s.mem c.pgdir := by
    split_ifs at turned
    · exact turned.directory
    · rw [turned.1]
  have listed : if access.Faults c s then Turned c s s' queue queue' access.page
      else queuePages s' queue' = queuePages s queue ∧ s'.free.card = s.free.card := by
    split_ifs at turned ⊢
    · exact turned
    · rw [turned.1, turned.2]
      exact ⟨rfl, rfl⟩
  cases access with
  | read addr =>
    have ran : Paging.translate policy s c.mm addr false = some (s', some f) := ran
    refine ⟨s', role', queue', byteOf (s'.mem f (addr % pgSize / 4)) (addr % 4), ?_, swapping', directory, listed⟩
    simp only [Access.run, ran, bind_eq_bind, bind_some, map_some]
  | write addr byte =>
    have ran : Paging.translate policy s c.mm addr true = some (s', some f) := ran
    have stored := (swapping'.store (i := addr % pgSize / 4)
      (w := setByte (s'.mem f (addr % pgSize / 4)) (addr % 4) byte) key here).1
    have data := swapping'.counted.view_data key here
    have root := (swapping'.counted.tables.directory _).mp (Finset.mem_singleton_self c.pgdir)
    have still : (s'.poke f (addr % pgSize / 4)
        (setByte (s'.mem f (addr % pgSize / 4)) (addr % 4) byte)).mem c.pgdir = s'.mem c.pgdir :=
      Kernel.poke_mem_other (by grind)
    refine ⟨_, role', queue', byte, ?_, stored, still.trans directory, ?_⟩
    · simp only [Access.run, ran, bind_eq_bind, bind_some]
    · split_ifs at listed ⊢
      · exact { listed with directory := still.trans directory }
      · exact listed

/-- What a run keeps: the list of the kernel is the queue of the algorithm. -/
structure Paged (c : Setting) (k : ℕ) (s : Kernel) (fifo : Fifo) (role : ℕ → Role) (queue : List ℕ) : Prop where
  swapping : Swapping c s role queue
  tables : ∀ i ∈ c.slots, Present (s.mem c.pgdir i)
  frames : s.free.card + queue.length = k
  queue : fifo.queue = queuePages s queue

theorem Paged.refer {fifo : Fifo} (policy : Policy) (paged : Paged c k s fifo role queue)
    (allowed : access.Allowed c) (permitted : access.Permitted c) :
    ∃ s' role' queue' byte, access.run policy s c.mm = some (s', some byte) ∧
      Paged c k s' (fifo.reference k access.page).1 role' queue' ∧
      (fifo.reference k access.page).1.faults = fifo.faults + if access.Faults c s then 1 else 0 := by
  obtain ⟨swapping, tables, frames, same⟩ := paged
  obtain ⟨s', role', queue', byte, ran, swapping', directory, moved⟩ :=
    swapping.refer policy tables allowed permitted
  have faults := swapping.faults_iff permitted
  obtain ⟨vma, region, inside, -⟩ := permitted
  have key : (c.pgdir, access.page) ∈ keys c.slots {c.pgdir} := (c.key region inside).1
  rw [← swapping.mem_queuePages key, ← same] at faults
  have long : (queuePages s' queue').length = queue'.length := length_map ..
  have length : (queuePages s queue).length = queue.length := length_map ..
  refine ⟨s', role', queue', byte, ran, ?_⟩
  by_cases fault : access.Faults c s
  · rw [if_pos fault] at moved ⊢
    have pages := moved.pages
    have free := moved.free
    by_cases full : s.free = ∅
    · have nonempty := swapping.room.resolve_left (not_not.mpr full)
      have positive := length_pos_of_ne_nil nonempty
      simp only [full, Finset.card_empty, if_true] at frames pages free
      rw [pages, length_cons, length_dropLast] at long
      rw [Fifo.reference, if_neg (faults.mp fault), if_neg (by rw [same]; omega)]
      exact ⟨⟨swapping', directory ▸ tables, by omega, by rw [pages, same]⟩, rfl⟩
    · have positive := Finset.card_pos.mpr (Finset.nonempty_iff_ne_empty.mpr full)
      rw [if_neg full] at pages
      rw [pages, length_cons] at long
      rw [Fifo.reference, if_neg (faults.mp fault), if_pos (by rw [same]; omega)]
      exact ⟨⟨swapping', directory ▸ tables, by omega, by rw [pages, same]⟩, rfl⟩
  · rw [if_neg fault] at moved ⊢
    obtain ⟨pages, free⟩ := moved
    rw [pages] at long
    rw [Fifo.reference, if_pos (not_not.mp (mt faults.mpr fault))]
    exact ⟨⟨swapping', directory ▸ tables, by omega, same.trans pages.symm⟩, rfl⟩

theorem PagingRun.paged (run : PagingRun c k s refs faults) :
    ∃ role queue, Paged c k s (Fifo.run k refs) role queue ∧ (Fifo.run k refs).faults = faults := by
  induction run with
  | start empty tables frames => exact ⟨_, [], ⟨empty, tables, frames, rfl⟩, rfl⟩
  | step before policy access allowed permitted ran ih =>
    obtain ⟨role, queue, paged, count⟩ := ih
    obtain ⟨s₁, role₁, queue₁, byte, came, paged₁, count₁⟩ := paged.refer policy allowed permitted
    cases came.symm.trans ran
    rw [count] at count₁
    rw [Fifo.run, foldl_append]
    exact ⟨role₁, queue₁, paged₁, count₁⟩

/-- Demand paging is first-in first-out replacement. After every reference string the
pages in memory and the number of faults are those of the algorithm; every further
access goes through, and takes out of memory the page that leaves the queue. -/
theorem fifo_paging_textbook (run : PagingRun c k s refs faults) :
    (∀ n, (c.pgdir, n) ∈ keys c.slots {c.pgdir} →
      (Present (pteOf s c.pgdir n) ↔ n ∈ (Fifo.run k refs).queue)) ∧
    faults = (Fifo.run k refs).faults ∧
    ∀ (policy : Policy) (access : Access), access.Allowed c → access.Permitted c →
      ∃ s' byte, access.run policy s c.mm = some (s', some byte) ∧
        ∀ n, (c.pgdir, n) ∈ keys c.slots {c.pgdir} →
          (Present (pteOf s c.pgdir n) ∧ ¬ Present (pteOf s' c.pgdir n) ↔
            ((Fifo.run k refs).reference k access.page).2 = some n) := by
  obtain ⟨role, queue, paged, count⟩ := run.paged
  have resident : ∀ n, (c.pgdir, n) ∈ keys c.slots {c.pgdir} →
      (Present (pteOf s c.pgdir n) ↔ n ∈ (Fifo.run k refs).queue) := by
    intro n key
    rw [paged.queue, paged.swapping.mem_queuePages key]
  refine ⟨resident, count.symm, fun policy access allowed permitted => ?_⟩
  obtain ⟨s', role', queue', byte, ran, paged', -⟩ := paged.refer policy allowed permitted
  refine ⟨s', byte, ran, fun n key => ?_⟩
  rw [Fifo.reference_leaves (paged.queue ▸ paged.swapping.nodup_queuePages), paged'.queue,
    paged'.swapping.mem_queuePages key, resident n key]

/-- The page table of the two pages is there and one frame is left. -/
def tabled (flags : ℕ) : Kernel := ((getPte lowest (twoFrames flags) 0 0x1000).getD (twoFrames flags, none)).1

theorem twoPages_key (flags : ℕ) : (0, 1) ∈ keys (twoPages flags).slots {0} :=
  ((twoPages flags).key (mem_singleton_self _) (by decide : 0x1000 ≤ 0x1000 ∧ 0x1000 < 0x3000)).1

theorem tabled_start {flags : ℕ} (frame : (tabled flags).free.card = 1) :
    PagingRun (twoPages flags) 1 (tabled flags) [] 0 := by
  obtain ⟨s, role, queue, t, got, swapping, -, there, -, shorter, -⟩ :=
    (twoFrames_start flags).swapping.getPte lowest (twoPages_key flags)
  obtain rfl := prefix_nil.mp shorter
  obtain rfl : tabled flags = s := by rw [tabled, show getPte lowest (twoFrames flags) 0 0x1000 = _ from got]; rfl
  refine .start swapping (fun i member => ?_) frame
  rw [show i = 0 from Finset.mem_singleton.mp member]
  exact there

/-- The first page that is read is in memory. -/
theorem fifo_paging_textbook_one :
    ∃ s s₁ faults byte, PagingRun (twoPages 3) 1 s [] 0 ∧
      (Access.read 0x1000).run lowest s 0 = some (s₁, some byte) ∧
      PagingRun (twoPages 3) 1 s₁ [1] faults ∧ Present (pteOf s₁ 0 1) := by
  have allowed : (Access.read 0x1000).Allowed (twoPages 3) := twoPages_allowed 3 (.inl rfl) nofun
  have permitted : (Access.read 0x1000).Permitted (twoPages 3) :=
    ⟨_, mem_singleton_self _, (by decide : 0x1000 ≤ 0x1000 ∧ 0x1000 < 0x3000),
      by simp [Vma.Permits, Access.writes, vmRead, vmExec]⟩
  have start : PagingRun (twoPages 3) 1 (tabled 3) [] 0 := tabled_start rfl
  obtain ⟨s₁, byte, ran, -⟩ := (fifo_paging_textbook start).2.2 lowest _ allowed permitted
  have step := PagingRun.step start lowest _ allowed permitted ran
  exact ⟨_, s₁, _, byte, start, ran, step,
    ((fifo_paging_textbook step).1 1 (twoPages_key 3)).mpr (by decide)⟩

/-- An access that the flags forbid stays outside: in a region with `VM_WRITE` only the
first read is refused, and its page is not in memory as it is in the algorithm. -/
theorem fifo_paging_refused :
    PagingRun (twoPages vmWrite) 1 (tabled vmWrite) [] 0 ∧ (Access.read 0x1000).Allowed (twoPages vmWrite) ∧
      (∃ s', (Access.read 0x1000).run lowest (tabled vmWrite) 0 = some (s', none) ∧
        ¬ Present (pteOf s' 0 1)) ∧
      1 ∈ (Fifo.run 1 [(Access.read 0x1000).page]).queue :=
  ⟨tabled_start rfl, twoPages_allowed vmWrite (.inl rfl) nofun,
    ⟨_, rfl, by decide⟩, by decide⟩

end LiNos.Paging
