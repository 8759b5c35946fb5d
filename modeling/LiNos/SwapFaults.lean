import Mathlib.Tactic.IntervalCases
import LiNos.PageRuns
import LiNos.SwapQueue

/-!
Demand paging with swapping, seen through reads and writes.

An access goes through the page table; when the entry does not allow it, the
processor raises a page fault and the access is tried again after `do_pgfault`.
Reads and writes of one address space see plain memory, although its pages move
between frames and the device (`swapping_transparent`).
-/

namespace LiNos.Paging

open CircularList Tally List Option
open Function (update update_of_ne update_self)

/-! ## Bytes -/

def byteOf (w k : ℕ) : ℕ := w / 256 ^ k % 256

def setByte (w k b : ℕ) : ℕ := w - byteOf w k * 256 ^ k + b * 256 ^ k

theorem byteOf_setByte {w k j b : ℕ} (small : k < 4) (small' : j < 4) (byte : b < 256) :
    byteOf (setByte w k b) j = if j = k then b else byteOf w j := by
  unfold setByte byteOf
  interval_cases k <;> interval_cases j <;> simp <;> omega

/-! ## Accesses -/

/-- The processor's checks for an access from user mode. -/
def Accessible (w : ℕ) (write : Bool) : Prop :=
  Present w ∧ w &&& pteU ≠ 0 ∧ (write = true → w &&& pteW ≠ 0)

instance (w : ℕ) (write : Bool) : Decidable (Accessible w write) :=
  inferInstanceAs (Decidable (_ ∧ _ ∧ _))

/-- The error code the processor pushes. -/
def errorCode (w : ℕ) (write : Bool) : ℕ :=
  4 + (if write then 2 else 0) + if Present w then 1 else 0

inductive Access where
  | read (addr : ℕ)
  | write (addr byte : ℕ)

section Run

variable (policy : Policy)

/-- The frame an access goes to; `none` when `do_pgfault` refuses it. -/
def translate (s : Kernel) (mm addr : ℕ) (write : Bool) : Option (Kernel × Option ℕ) :=
  let pte := pteOf s (s.mms mm).pgdir (addr / pgSize)
  if Accessible pte write then some (s, some (frameOf pte))
  else do
    let (s, ret) ← doPgfault policy s mm (errorCode pte write) addr
    let pte := pteOf s (s.mms mm).pgdir (addr / pgSize)
    some (s, if ret = 0 ∧ Accessible pte write then some (frameOf pte) else none)

/-- An access, with the byte that was read or written. -/
def Access.run (s : Kernel) (mm : ℕ) : Access → Option (Kernel × Option ℕ)
  | .read addr => do
    let (s, page) ← translate policy s mm addr false
    some (s, page.map fun page => byteOf (s.mem page (addr % pgSize / 4)) (addr % 4))
  | .write addr byte => do
    match ← translate policy s mm addr true with
    | (s, none) => some (s, none)
    | (s, some page) =>
      let word := s.mem page (addr % pgSize / 4)
      some (s.poke page (addr % pgSize / 4) (setByte word (addr % 4) byte), some byte)

end Run

/-! ## Regions -/

variable {c : Setting} {s s' s₁ : Kernel} {role role' : ℕ → Role} {queue : List ℕ} {vma : Vma}
  {addr f n : ℕ} {policy : Policy} {write : Bool}

/-- An address is in one region at most. -/
theorem Sorted.unique {vmas : List Vma} {vma' : Vma} (sorted : Sorted vmas) (left : vma ∈ vmas)
    (right : vma' ∈ vmas) (here : vma.Contains addr) (there : vma'.Contains addr) : vma' = vma := by
  by_contra other
  have apart : vmas.Pairwise fun a b => a.vmEnd ≤ b.vmStart ∨ b.vmEnd ≤ a.vmStart :=
    sorted.imp .inl
  have : Std.Symm fun a b : Vma => a.vmEnd ≤ b.vmStart ∨ b.vmEnd ≤ a.vmStart := ⟨fun _ _ => Or.symm⟩
  have either := apart.forall right left other
  obtain ⟨low, high⟩ := here
  obtain ⟨low', high'⟩ := there
  omega

/-- A page of a region has a table among those of the setting. -/
theorem Setting.key (c : Setting) (region : vma ∈ c.vmas) (inside : vma.Contains addr) :
    c.Covers (addr / pgSize) ∧
      vma.Contains (addr / pgSize * pgSize) := by
  obtain ⟨start, stop⟩ := c.aligned vma region
  have top := c.top vma region
  obtain ⟨low, high⟩ := inside
  unfold pgSize at *
  refine ⟨mem_keys.mpr ⟨Finset.mem_singleton_self _, ?_, ?_⟩, by omega, by omega⟩
  · unfold pageCount
    omega
  · exact (c.tables _).mpr ⟨_, ⟨vma, region, Nat.div_le_div_right low, by unfold pgSize; omega⟩, rfl⟩

/-- `find_vma` finds the region of the address. -/
theorem Swapping.lookup (swapping : Swapping c s role queue) (region : vma ∈ c.vmas)
    (inside : vma.Contains addr) : lookupVma (s.mms c.mm) addr = some vma := by
  cases found : lookupVma (s.mms c.mm) addr with
  | some v =>
    obtain ⟨origin, there⟩ := lookupVma_spec found
    have member : v ∈ c.vmas := origin.elim (fun listed => swapping.mmap ▸ listed) (swapping.cache v)
    rw [c.sorted.unique region member inside there]
  | none =>
    have nowhere : (s.mms c.mm).mmap.find? (fun v => v.Contains addr) = none := by
      grind [lookupVma]
    rw [find?_eq_none, swapping.mmap] at nowhere
    exact absurd (decide_eq_true inside) (nowhere vma region)

/-- Only the cached region changes. -/
theorem Swapping.setCache (swapping : Swapping c s role queue) (region : vma ∈ c.vmas) :
    Swapping c (s.setMm c.mm { s.mms c.mm with mmapCache := some vma }) role queue := by
  have self : (s.setMm c.mm { s.mms c.mm with mmapCache := some vma }).mms c.mm =
      { s.mms c.mm with mmapCache := some vma } := update_self _ _ _
  refine { swapping with
    counted := swapping.counted.congr rfl rfl rfl fun _ _ => rfl
    pgdir := by rw [self, swapping.pgdir]
    smPriv := by rw [self, swapping.smPriv]
    mmap := by rw [self, swapping.mmap]
    cache := ?_ }
  rw [self]
  rintro v ⟨⟩
  exact region

/-! ## do_pgfault -/

/-- What serving a fault at page `n` does: the page is in memory with the
permissions of its region; what was there is still there, and all other pages
hold what they held. -/
structure Served (c : Setting) (s s' : Kernel) (vma : Vma) (n : ℕ) : Prop where
  entry : ∃ f, pteOf s' c.pgdir n = pteWord f (faultPerm vma.vmFlags)
  kept : ∀ words, content s c.pgdir n = some words → content s' c.pgdir n = some words
  others : ∀ m, (c.pgdir, m) ∈ keys c.slots {c.pgdir} → m ≠ n →
    content s' c.pgdir m = content s c.pgdir m

theorem Served.of_undisturbed (first : Undisturbed c s s₁)
    (key : c.Covers n) (served : Served c s₁ s' vma n) :
    Served c s s' vma n := by
  refine ⟨served.entry, fun words held => ?_, fun m key' other => ?_⟩
  · exact served.kept words ((first n key).1.trans held)
  · exact (served.others m key' other).trans (first m key').1

/-- The pages in the frames of the list. -/
def queuePages (s : Kernel) (queue : List ℕ) : List ℕ := queue.map fun f => s.praVaddr f / pgSize

/-- Page `n` comes first on the list. The page at its end leaves when no frame was free. -/
structure Turned (c : Setting) (s s' : Kernel) (queue queue' : List ℕ) (n : ℕ) : Prop where
  directory : s'.mem c.pgdir = s.mem c.pgdir
  pages : queuePages s' queue' =
    n :: if s.free = ∅ then (queuePages s queue).dropLast else queuePages s queue
  free : s'.free.card = s.free.card - 1

theorem Turned.of_room {s₃ : Kernel} {queue₁ : List ℕ} {role₁ : ℕ → Role}
    (made : MadeRoom s s₁ queue queue₁) (swapping₁ : Swapping c s₁ role₁ queue₁) (member : f ∈ s₁.free)
    (directory : s₃.mem c.pgdir = s.mem c.pgdir) (free : s₃.free = s₁.free.erase f)
    (vaddr : s₃.praVaddr = s₁.praVaddr) :
    Turned c s (track s₃ f (n * pgSize)) queue (f :: queue₁) n := by
  have outside : ∀ g ∈ queue₁, g ≠ f := by
    rintro g queued rfl
    cases ((swapping₁.queued g).mp queued).symm.trans ((swapping₁.counted.tables.free g).mp member)
  have first : queuePages (track s₃ f (n * pgSize)) (f :: queue₁) = n :: queuePages s₁ queue₁ := by
    have address : (track s₃ f (n * pgSize)).praVaddr = update s₁.praVaddr f (n * pgSize) := by
      rw [← vaddr, track]
    rw [queuePages, map_cons, address, update_self, Nat.mul_div_cancel n (by decide)]
    exact congrArg _ (map_congr_left fun g queued => by rw [update_of_ne (outside g queued)])
  have less : (track s₃ f (n * pgSize)).free.card = s₁.free.card - 1 := by
    rw [track, free, Finset.card_erase_of_mem member]
  refine ⟨directory, first.trans ?_, less.trans ?_⟩
  · rcases made with ⟨available, rfl, rfl⟩ | ⟨none, last, rfl, -, same⟩
    · rw [if_neg available]
    · simp [if_pos none, queuePages, same]
  · rcases made with ⟨-, rfl, -⟩ | ⟨none, last, -, one, -⟩
    · rfl
    · simp [none, one]

section Serve

variable (swapping : Swapping c s role queue) (key : c.Covers n)
  (region : vma ∈ c.vmas) (inside : vma.Contains (n * pgSize)) (room : n + 1 < c.maxSwapOffset)
  (there : Present (s.mem c.pgdir (n / 1024)))

include swapping key region inside room there

/-- The first access to a page. -/
theorem Swapping.pgdirAllocPage (policy : Policy) (untouched : pteOf s c.pgdir n = 0) :
    ∃ s' role' queue' page,
      Paging.pgdirAllocPage policy s c.pgdir (n * pgSize) (faultPerm vma.vmFlags) = some (s', some page) ∧
      Swapping c s' role' queue' ∧ Served c s s' vma n ∧ Turned c s s' queue queue' n := by
  have absent : ¬ Present (pteOf s c.pgdir n) := by
    rw [untouched]
    decide
  obtain ⟨s₁, role₁, queue₁, f, swapping₁, member, dir, same, took, made⟩ := swapping.alloc policy
  have absent₁ : ¬ Present (pteOf s₁ c.pgdir n) := by rwa [(same n key).2 absent]
  obtain ⟨s₃, role₃, ran, free, directory, rest, once, swapping₃, entry, -, others⟩ := swapping₁.mapped
    (s₁.mem f) member key absent₁ policy region inside room (by rwa [dir])
  have nothing : takenWith s₁ f (s₁.mem f) = { s₁ with free := s₁.free.erase f } := by
    simp [takenWith, Kernel.fill]
  rw [nothing] at ran
  refine ⟨track s₃ f (n * pgSize), role₃, f :: queue₁, f, ?_, swapping₃, ?_,
    .of_room made swapping₁ member (directory.trans dir) free (by rw [rest])⟩
  · have on : s₃.swapInitOk = true := swapping₃.swapOn
    have mm : s₃.checkMm = some c.mm := swapping₃.checkMm
    have head : (s₃.mms c.mm).smPriv = some .praListHead := swapping₃.smPriv
    rw [Paging.pgdirAllocPage, took]
    simp only [bind_eq_bind, bind_some, ran, if_true, trackPage, on, mm,
      fifoMapSwappable, head, once, track]
  · refine Served.of_undisturbed same key ⟨⟨f, entry⟩, fun words held => ?_, others⟩
    have zero : pteOf s₁ c.pgdir n = 0 := by rw [(same n key).2 absent, untouched]
    rw [content, if_pos zero] at held
    cases held

/-- A page comes back from the device. -/
theorem Swapping.restorePage (policy : Policy) (touched : pteOf s c.pgdir n ≠ 0)
    (absent : ¬ Present (pteOf s c.pgdir n)) :
    ∃ s' role' queue', Paging.restorePage policy s c.mm (n * pgSize) (faultPerm vma.vmFlags) = some (s', 0) ∧
      Swapping c s' role' queue' ∧ Served c s s' vma n ∧ Turned c s s' queue queue' n := by
  have page := (mem_keys.mp key).2.1
  obtain ⟨s₁, role₁, queue₁, f, swapping₁, member, dir, same, took, made⟩ := swapping.alloc policy
  have still := (same n key).2 absent
  have touched₁ : pteOf s₁ c.pgdir n ≠ 0 := by rwa [still]
  have absent₁ : ¬ Present (pteOf s₁ c.pgdir n) := by rwa [still]
  have word := swapping₁.swapped_entry key touched₁ absent₁
  obtain ⟨t, -, found, entry⟩ := swapping₁.walk key touched₁
  obtain ⟨s₃, role₃, ran, free, directory, rest, -, swapping₃, mapped, held, others⟩ := swapping₁.mapped
    (s₁.disk (n + 1)) member key absent₁ policy region inside room (by rwa [dir])
  refine ⟨track s₃ f (n * pgSize), role₃, f :: queue₁, ?_, swapping₃, ?_,
    .of_room made swapping₁ member (directory.trans dir) free (by rw [rest])⟩
  · have walked : findPte { s₁ with free := s₁.free.erase f } c.pgdir (n * pgSize) =
        some (some (t, n % 1024)) := found
    have offset : swapOffset { s₁ with free := s₁.free.erase f } (s₁.mem t (n % 1024)) =
        some (n + 1) := by
      rw [← entry, word]
      exact swapOffset_eq page (swapping₁.device.symm ▸ room)
    have filled : Kernel.fill { s₁ with free := s₁.free.erase f } f (s₁.disk (n + 1)) =
        takenWith s₁ f (s₁.disk (n + 1)) := rfl
    have pgdir : ((takenWith s₁ f (s₁.disk (n + 1))).mms c.mm).pgdir = c.pgdir := swapping₁.pgdir
    have head : (s₃.mms c.mm).smPriv = some .praListHead := swapping₃.smPriv
    simp only [Paging.restorePage, swapIn, took, bind_eq_bind, bind_some,
      swapping₁.pgdir, walked, swapfsRead, Kernel.pte, offset, filled, pgdir, ran, fifoMapSwappable, head]
    rfl
  · refine Served.of_undisturbed same key ⟨⟨f, mapped⟩, fun words was => ?_, others⟩
    rw [content, if_neg touched₁, if_neg absent₁, word, swapEntry_slot page] at was
    exact held.trans was

omit there in
/-- `do_pgfault` behind its checks, for a page that is not in memory. -/
theorem Swapping.faultPage (policy : Policy) (absent : ¬ Present (pteOf s c.pgdir n)) :
    ∃ s' role' queue', Paging.faultPage policy s c.mm (n * pgSize) (faultPerm vma.vmFlags) = some (s', 0) ∧
      Swapping c s' role' queue' ∧ Served c s s' vma n ∧
      (Present (s.mem c.pgdir (n / 1024)) → Turned c s s' queue queue' n) := by
  obtain ⟨s₁, role₁, queue₁, t, got, swapping₁, is, there, same, -, stays⟩ := swapping.getPte policy key
  have turns : ∀ {s' : Kernel} {queue' : List ℕ}, Turned c s₁ s' queue₁ queue' n →
      Present (s.mem c.pgdir (n / 1024)) → Turned c s s' queue queue' n := by
    intro s' queue' turned table
    obtain ⟨rfl, rfl⟩ := stays table
    exact turned
  have still := (same n key).2 absent
  have entry : s₁.pte (t, n % 1024) = pteOf s₁ c.pgdir n := by
    have walked := swapping₁.counted.tables.pteOf_table is (Nat.mod_lt n (by decide))
    rw [Nat.div_add_mod'] at walked
    exact walked.symm
  have off : pteOf s₁ c.pgdir n &&& pteP = 0 := by
    rw [still]
    exact not_not.mp absent
  rw [Paging.faultPage, swapping.pgdir, got]
  simp only [bind_eq_bind, bind_some, servePage, entry, swapping₁.pgdir]
  by_cases zero : pteOf s₁ c.pgdir n = 0
  · obtain ⟨s', role', queue', page, ran, swapping', served, turned⟩ :=
      swapping₁.pgdirAllocPage key region inside room there policy zero
    refine ⟨s', role', queue', ?_, swapping', served.of_undisturbed same key, turns turned⟩
    simp only [zero, if_true, ran, bind_some]
  · obtain ⟨s', role', queue', ran, swapping', served, turned⟩ := swapping₁.restorePage key region inside
      room there policy zero (by rwa [still])
    refine ⟨s', role', queue', ?_, swapping', served.of_undisturbed same key, turns turned⟩
    simp only [zero, if_false, off, ne_eq, not_true_eq_false, swapping₁.swapOn, if_true, ran]

end Serve

/-- `do_pgfault` for an address whose region `find_vma` has found. -/
theorem doPgfault_found {mm : ℕ} (policy : Policy) (errorCode : ℕ)
    (found : lookupVma (s.mms mm) addr = some vma) :
    Paging.doPgfault policy s mm errorCode addr =
      if faultOk errorCode vma.vmFlags then
        Paging.faultPage policy (s.setMm mm { s.mms mm with mmapCache := some vma }) mm
          (addr / pgSize * pgSize) (faultPerm vma.vmFlags)
      else some (s.setMm mm { s.mms mm with mmapCache := some vma }, -eInval) := by
  have down : roundDown addr pgSize = addr / pgSize * pgSize :=
    Nat.sub_eq_of_eq_add (Nat.div_add_mod' addr pgSize).symm
  rw [Paging.doPgfault, findVma, found]
  simp only [(lookupVma_spec found).2.1, true_and, down]

/-- `do_pgfault` serves a fault the region allows. -/
theorem Swapping.doPgfault {errorCode : ℕ} (policy : Policy) (swapping : Swapping c s role queue)
    (region : vma ∈ c.vmas) (inside : vma.Contains addr) (room : addr / pgSize + 1 < c.maxSwapOffset)
    (absent : ¬ Present (pteOf s c.pgdir (addr / pgSize))) (ok : faultOk errorCode vma.vmFlags = true) :
    ∃ s' role' queue', Paging.doPgfault policy s c.mm errorCode addr = some (s', 0) ∧
      Swapping c s' role' queue' ∧ Served c s s' vma (addr / pgSize) ∧
      (Present (s.mem c.pgdir (addr / pgSize / 1024)) → Turned c s s' queue queue' (addr / pgSize)) := by
  obtain ⟨key, here⟩ := c.key region inside
  obtain ⟨s', role', queue', ran, swapping', served, turned⟩ :=
    (swapping.setCache region).faultPage key region here room policy absent
  refine ⟨s', role', queue', ?_, swapping', { served with }, fun table => { turned table with }⟩
  rw [doPgfault_found policy errorCode (swapping.lookup region inside), if_pos ok, ran]

/-! ## Translation -/

/-- The access is one that the flags of the region allow. -/
def Vma.Permits (vma : Vma) (write : Bool) : Prop :=
  if write then vma.vmFlags &&& vmWrite ≠ 0 else vma.vmFlags &&& (vmRead ||| vmExec) ≠ 0

/-- An entry with the permissions of a region allows what a writable region does. -/
theorem accessible_pteWord {flags : ℕ} :
    Accessible (pteWord f (faultPerm flags)) write ↔ (write = true → flags &&& vmWrite ≠ 0) := by
  have low : ∀ k < 2 ^ 12, pteWord f (faultPerm flags) &&& k = (pteP ||| faultPerm flags) &&& k := by
    intro k small
    rw [pteWord, Nat.or_assoc]
    exact Bits.packed_and_low small
  have user : pteWord f (faultPerm flags) &&& pteU ≠ 0 := by
    rw [low _ (by decide), faultPerm]
    split_ifs <;> decide
  have writable : pteWord f (faultPerm flags) &&& pteW ≠ 0 ↔ flags &&& vmWrite ≠ 0 := by
    rw [low _ (by decide), faultPerm]
    split_ifs with allowed
    · exact iff_of_true (by decide) allowed
    · exact iff_of_false (by decide) allowed
  constructor
  · exact fun accessible write => writable.mp (accessible.2.2 write)
  · exact fun allowed => ⟨present_pteWord, user, fun write => writable.mpr (allowed write)⟩

/-- What becomes of an access at `addr`. -/
structure Translated (c : Setting) (s s' : Kernel) (vma : Vma) (n : ℕ) (write : Bool)
    (page : Option ℕ) : Prop where
  kept : ∀ words, content s c.pgdir n = some words → content s' c.pgdir n = some words
  others : ∀ m, (c.pgdir, m) ∈ keys c.slots {c.pgdir} → m ≠ n →
    content s' c.pgdir m = content s c.pgdir m
  mapped : ∀ f, page = some f → view s' (c.pgdir, n) = some f
  refused : page = none → ¬ vma.Permits write ∧ (write = true ∨ ¬ Present (pteOf s c.pgdir n))

theorem Swapping.translate (policy : Policy) (write : Bool) (swapping : Swapping c s role queue)
    (region : vma ∈ c.vmas) (inside : vma.Contains addr) (room : addr / pgSize + 1 < c.maxSwapOffset) :
    ∃ s' role' queue' page, Paging.translate policy s c.mm addr write = some (s', page) ∧
      Swapping c s' role' queue' ∧ Translated c s s' vma (addr / pgSize) write page ∧
      (vma.Permits write → Present (s.mem c.pgdir (addr / pgSize / 1024)) →
        if Accessible (pteOf s c.pgdir (addr / pgSize)) write then s' = s ∧ queue' = queue
        else Turned c s s' queue queue' (addr / pgSize)) := by
  obtain ⟨key, here⟩ := c.key region inside
  have refusing : ∀ code, faultOk code vma.vmFlags = false → Paging.doPgfault policy s c.mm code addr =
      some (s.setMm c.mm { s.mms c.mm with mmapCache := some vma }, -eInval) := by
    intro code refused
    rw [doPgfault_found policy code (swapping.lookup region inside), refused]
    rfl
  have cached := swapping.setCache region
  have failed : ¬ -eInval = 0 := by decide
  rw [Paging.translate]
  simp only [swapping.pgdir]
  split_ifs with accessible
  · refine ⟨s, role, queue, _, rfl, swapping, ⟨fun _ => id, fun _ _ _ => rfl, ?_, nofun⟩,
      fun _ _ => ⟨rfl, rfl⟩⟩
    rintro f ⟨⟩
    exact if_pos accessible.1
  · by_cases there : Present (pteOf s c.pgdir (addr / pgSize))
    · -- a write to a page that is there and may only be read
      obtain ⟨vma', region', here', -, f, word⟩ := swapping.present_entry key there
      obtain rfl := c.sorted.unique region region' here here'
      rw [word, accessible_pteWord] at accessible
      obtain ⟨rfl, readOnly⟩ := Classical.not_imp.mp accessible
      have refused : faultOk (errorCode (pteOf s c.pgdir (addr / pgSize)) true) vma'.vmFlags = false := by
        rw [errorCode, if_pos there]
        simpa [faultOk] using readOnly
      rw [refusing _ refused]
      have denied : ¬ vma'.Permits true := by simpa [Vma.Permits] using readOnly
      refine ⟨_, role, queue, none, ?_, cached, ⟨fun _ => id, fun _ _ _ => rfl, nofun,
        fun _ => ⟨denied, .inl rfl⟩⟩, fun permitted => absurd permitted denied⟩
      simp only [bind_eq_bind, bind_some, failed, false_and, if_false]
    · have code : faultOk (errorCode (pteOf s c.pgdir (addr / pgSize)) write) vma.vmFlags = true ↔
          vma.Permits write := by
        rw [errorCode, if_neg there]
        cases write <;> simp [faultOk, Vma.Permits]
      by_cases permitted : vma.Permits write
      · obtain ⟨s', role', queue', ran, swapping', served, turned⟩ :=
          swapping.doPgfault policy region inside room there (code.mpr permitted)
        obtain ⟨f, word⟩ := served.entry
        have now : Accessible (pteOf s' c.pgdir (addr / pgSize)) write := by
          rw [word, accessible_pteWord]
          rintro rfl
          simpa [Vma.Permits] using permitted
        refine ⟨s', role', queue', some (frameOf (pteOf s' c.pgdir (addr / pgSize))), ?_, swapping',
          ⟨served.kept, served.others, ?_, nofun⟩, fun _ => turned⟩
        · rw [ran]
          simp only [bind_eq_bind, bind_some, swapping'.pgdir, now, true_and, if_true]
        · rintro g ⟨⟩
          exact if_pos now.1
      · rw [refusing _ (by simpa using mt code.mp permitted)]
        refine ⟨_, role, queue, none, ?_, cached, ⟨fun _ => id, fun _ _ _ => rfl, nofun,
          fun _ => ⟨permitted, .inr there⟩⟩, fun allowed => absurd allowed permitted⟩
        simp only [bind_eq_bind, bind_some, failed, false_and, if_false]

/-! ## Runs -/

def Access.target : Access → ℕ
  | .read addr => addr
  | .write addr _ => addr

/-- Accesses to the regions of the setting, at addresses the device has a slot for. -/
def Access.Allowed (c : Setting) (access : Access) : Prop :=
  (∃ vma ∈ c.vmas, vma.Contains access.target) ∧ access.target / pgSize + 1 < c.maxSwapOffset ∧
    ∀ addr byte, access = .write addr byte → byte < 256

/-- The byte that was last written to each address. -/
abbrev Written : Type := ℕ → Option ℕ

def Access.record (written : Written) : Access → Option ℕ → Written
  | .write addr byte, some _ => update written addr (some byte)
  | _, _ => written

def Access.touch (touched : Finset ℕ) (access : Access) : Option ℕ → Finset ℕ
  | some _ => insert (access.target / pgSize) touched
  | none => touched

/-- The address space has its regions, and none of its pages has been touched. -/
structure SwapStart (c : Setting) (s : Kernel) : Prop where
  start : Start c.slots {c.pgdir} c.pool { s with checkMm := none }
  swapOn : s.swapInitOk = true
  checkMm : s.checkMm = some c.mm
  pgdir : (s.mms c.mm).pgdir = c.pgdir
  smPriv : (s.mms c.mm).smPriv = some .praListHead
  mmap : (s.mms c.mm).mmap = c.vmas
  cache : (s.mms c.mm).mmapCache = none
  device : s.maxSwapOffset = c.maxSwapOffset
  empty : Ring s.praLinks .praListHead []

/-- Runs of accesses, with what was written and which pages were touched. -/
inductive SwapRun (c : Setting) : Kernel → Written → Finset ℕ → Prop
  | start {s : Kernel} (start : SwapStart c s) : SwapRun c s (fun _ => none) ∅
  | step {s s' : Kernel} {written : Written} {touched : Finset ℕ} {outcome : Option ℕ}
    (before : SwapRun c s written touched) (policy : Policy) (access : Access)
    (allowed : access.Allowed c) (ran : access.run policy s c.mm = some (s', outcome)) :
    SwapRun c s' (access.record written outcome) (access.touch touched outcome)

/-- The page is in memory: its frame is on the list once, with its address. -/
def Resident (c : Setting) (s : Kernel) (n : ℕ) : Prop :=
  ∃ (f : ℕ) (queue : List ℕ), view s (c.pgdir, n) = some f ∧ Ring s.praLinks .praListHead (queue.map .praPageLink) ∧
    queue.count f = 1 ∧ s.praVaddr f = n * pgSize

/-- The page is on the device: its entry is the slot, the slot holds what was
written, and no frame on the list is that of the page. -/
def SwappedOut (c : Setting) (s : Kernel) (written : Written) (n : ℕ) : Prop :=
  pteOf s c.pgdir n = (n + 1) <<< 8 ∧ ¬ Present (pteOf s c.pgdir n) ∧
    (∀ addr byte, addr / pgSize = n → written addr = some byte →
      byteOf (s.disk (n + 1) (addr % pgSize / 4)) (addr % 4) = byte) ∧
    ∃ queue : List ℕ, Ring s.praLinks .praListHead (queue.map .praPageLink) ∧
      ∀ f ∈ queue, s.praVaddr f ≠ n * pgSize

variable {written : Written} {touched : Finset ℕ}

/-- The contents agree with what was written. -/
structure Remembers (c : Setting) (s : Kernel) (written : Written) (touched : Finset ℕ) : Prop where
  bytes : ∀ addr byte, written addr = some byte → ∃ words, content s c.pgdir (addr / pgSize) = some words ∧
    byteOf (words (addr % pgSize / 4)) (addr % 4) = byte
  pages : ∀ addr byte, written addr = some byte → addr / pgSize ∈ touched
  known : ∀ n ∈ touched, (c.pgdir, n) ∈ keys c.slots {c.pgdir}
  touched : ∀ n ∈ touched, pteOf s c.pgdir n ≠ 0

theorem SwapStart.swapping (start : SwapStart c s) :
    Swapping c s (startRole {c.pgdir} c.pool) [] := by
  have entries : ∀ n, c.Covers n → pteOf s c.pgdir n = 0 :=
    fun n key => if_neg (start.start.empty _ (Finset.mem_singleton_self _) _ (mem_keys.mp key).2.2)
  refine { start with
    counted := start.start.sound.counted.congr rfl rfl rfl fun _ _ => rfl
    cache := by simp [start.cache]
    ring := start.empty, queued := by grind [startRole], vaddr := ?_, entry := ?_, pool := ?_ }
  · intro n f key mapped
    rw [view_none (by rw [entries n key]; decide)] at mapped
    cases mapped
  · exact fun n key => .inl (entries n key)
  · grind [startRole]

theorem SwapStart.remembers : Remembers c s (fun _ => none) ∅ :=
  ⟨nofun, nofun, nofun, nofun⟩

theorem content_none_iff {d : ℕ} : content s d n = none ↔ pteOf s d n = 0 := by
  unfold content
  split_ifs <;> simp_all

/-- A page is written. -/
theorem Swapping.store {i w : ℕ} (swapping : Swapping c s role queue)
    (key : c.Covers n) (here : view s (c.pgdir, n) = some f) :
    Swapping c (s.poke f i w) role queue ∧
      (∀ m, c.Covers m → pteOf (s.poke f i w) c.pgdir m = pteOf s c.pgdir m) ∧
      content (s.poke f i w) c.pgdir n = some (update (s.mem f) i w) ∧
      ∀ m, c.Covers m → m ≠ n →
        content (s.poke f i w) c.pgdir m = content s c.pgdir m := by
  have data := swapping.counted.view_data key here
  have mem : ∀ g, (role g).Structural → (s.poke f i w).mem g = s.mem g := fun g structural =>
    Kernel.poke_mem_other (by rintro rfl; exact data_notStructural (data ▸ structural))
  have entries : ∀ m, c.Covers m →
      pteOf (s.poke f i w) c.pgdir m = pteOf s c.pgdir m :=
    fun m key' => swapping.counted.tables.entries_congr mem key'
  have views : ∀ m, c.Covers m →
      view (s.poke f i w) (c.pgdir, m) = view s (c.pgdir, m) := fun m key' => view_congr (entries m key')
  refine ⟨{ swapping with
    counted := swapping.counted.congr rfl rfl rfl mem
    vaddr := fun m g key' mapped => swapping.vaddr m g key' (views m key' ▸ mapped)
    entry := fun m key' => entries m key' ▸ swapping.entry m key' }, entries, ?_, fun m key' other => ?_⟩
  · rw [content_of_view ((views n key).trans here), Kernel.poke_mem_self]
  · refine content_congr (entries m key') (fun g mapped => Kernel.poke_mem_other ?_) rfl
    rintro rfl
    exact other (swapping.unique key here key' mapped)

/-- Translating an address forgets nothing. -/
theorem Remembers.translated {page : Option ℕ} (remembers : Remembers c s written touched)
    (translated : Translated c s s' vma n write page) : Remembers c s' written touched := by
  have contents : ∀ m words, c.Covers m → content s c.pgdir m = some words →
      content s' c.pgdir m = some words := by
    intro m words key held
    by_cases same : m = n
    · subst same
      exact translated.kept words held
    · rw [translated.others m key same, held]
  refine ⟨fun addr byte was => ?_, remembers.pages, remembers.known, fun m member zero => ?_⟩
  · obtain ⟨words, held, here⟩ := remembers.bytes addr byte was
    exact ⟨words, contents _ words (remembers.known _ (remembers.pages addr byte was)) held, here⟩
  · have before := mt content_none_iff.mp (remembers.touched m member)
    obtain ⟨words, held⟩ := ne_none_iff_exists'.mp before
    cases (content_none_iff.mpr zero).symm.trans (contents m words (remembers.known m member) held)

def Access.writes : Access → Bool
  | .read _ => false
  | .write _ _ => true

/-- `do_pgfault` refuses the access because of the flags of the region. -/
def Refused (c : Setting) (s : Kernel) (access : Access) : Prop :=
  ∃ vma ∈ c.vmas, vma.Contains access.target ∧ ¬ vma.Permits access.writes ∧
    (access.writes = true ∨ ¬ Present (pteOf s c.pgdir (access.target / pgSize)))

/-- The page of an access that goes through is touched. -/
theorem Remembers.touch (remembers : Remembers c s written touched)
    (key : c.Covers n) (here : view s (c.pgdir, n) = some f) :
    Remembers c s written (insert n touched) := by
  obtain ⟨bytes, pages, known, touched⟩ := remembers
  have there := (present_of_view here).ne_zero
  exact ⟨bytes, by grind, by grind, by grind⟩

/-- A byte is written through the page table. -/
theorem Remembers.store {byte : ℕ} (remembers : Remembers c s written touched)
    (swapping : Swapping c s role queue)
    (key : c.Covers (addr / pgSize)) (member : addr / pgSize ∈ touched)
    (here : view s (c.pgdir, addr / pgSize) = some f) (small : byte < 256) :
    Remembers c (s.poke f (addr % pgSize / 4) (setByte (s.mem f (addr % pgSize / 4)) (addr % 4) byte))
      (update written addr (some byte)) touched := by
  obtain ⟨-, entries, mine, others⟩ := swapping.store (i := addr % pgSize / 4)
    (w := setByte (s.mem f (addr % pgSize / 4)) (addr % 4) byte) key here
  have low : ∀ a : ℕ, a % 4 < 4 := fun a => Nat.mod_lt a (by decide)
  refine ⟨fun a b was => ?_, fun a b was => ?_, remembers.known, fun m touched zero => ?_⟩
  · by_cases same : a = addr
    · subst same
      rw [update_self] at was
      refine ⟨_, mine, ?_⟩
      rw [update_self, byteOf_setByte (low a) (low a) small, if_pos rfl]
      exact some.inj was
    · rw [update_of_ne same] at was
      obtain ⟨words, held, byte'⟩ := remembers.bytes a b was
      have key' := remembers.known _ (remembers.pages a b was)
      by_cases page : a / pgSize = addr / pgSize
      · -- another byte of the page, maybe of the same word
        rw [page, content_of_view here] at held
        cases held
        refine ⟨_, page ▸ mine, ?_⟩
        by_cases word : a % pgSize / 4 = addr % pgSize / 4
        · have offset : a % 4 ≠ addr % 4 := by
            unfold pgSize at page word
            omega
          rwa [word, update_self, byteOf_setByte (low addr) (low a) small, if_neg offset, ← word]
        · rwa [update_of_ne word]
      · exact ⟨words, (others _ key' page).trans held, byte'⟩
  · have before := remembers.pages a b
    grind [Function.update_apply]
  · rw [entries m (remembers.known m touched)] at zero
    exact remembers.touched m touched zero

theorem Swapping.access (policy : Policy) (swapping : Swapping c s role queue)
    (remembers : Remembers c s written touched) {access : Access} (allowed : access.Allowed c) :
    ∃ s' role' queue' outcome, access.run policy s c.mm = some (s', outcome) ∧
      Swapping c s' role' queue' ∧
      Remembers c s' (access.record written outcome) (access.touch touched outcome) ∧
      (outcome = none → Refused c s access) ∧
      ∀ addr byte got, access = .read addr → written addr = some byte → outcome = some got → got = byte := by
  obtain ⟨⟨vma, region, inside⟩, room, bytes⟩ := allowed
  obtain ⟨key, -⟩ := c.key region inside
  obtain ⟨s', role', queue', page, ran, swapping', translated, -⟩ :=
    swapping.translate policy access.writes region inside room
  have remembers' := remembers.translated translated
  cases page with
  | none =>
    obtain ⟨denied, why⟩ := translated.refused rfl
    have refused : Refused c s access := ⟨vma, region, inside, denied, why⟩
    cases access with
    | read addr =>
      refine ⟨s', role', queue', none, ?_, swapping', remembers', fun _ => refused, nofun⟩
      simp only [Access.run, show Paging.translate policy s c.mm addr false = _ from ran, bind_eq_bind,
        bind_some, map_none]
    | write addr byte =>
      refine ⟨s', role', queue', none, ?_, swapping', remembers', fun _ => refused, nofun⟩
      simp only [Access.run, show Paging.translate policy s c.mm addr true = _ from ran, bind_eq_bind,
        bind_some]
  | some f =>
    have here := translated.mapped f rfl
    cases access with
    | read addr =>
      refine ⟨s', role', queue', some (byteOf (s'.mem f (addr % pgSize / 4)) (addr % 4)), ?_, swapping',
        remembers'.touch key here, nofun, ?_⟩
      · simp only [Access.run, show Paging.translate policy s c.mm addr false = _ from ran, bind_eq_bind,
          bind_some, map_some]
      · rintro _ byte got ⟨⟩ was ⟨⟩
        obtain ⟨words, held, right⟩ := remembers'.bytes addr byte was
        cases (content_of_view here).symm.trans held
        exact right
    | write addr byte =>
      refine ⟨_, role', queue', some byte, ?_, (swapping'.store key here).1,
        (remembers'.touch key here).store swapping' key (Finset.mem_insert_self _ _) here
          (bytes addr byte rfl), nofun, nofun⟩
      simp only [Access.run, show Paging.translate policy s c.mm addr true = _ from ran, bind_eq_bind,
        bind_some]

/-- The invariant holds in every state of a run. -/
theorem SwapRun.swapping (run : SwapRun c s written touched) :
    ∃ role queue, Swapping c s role queue ∧ Remembers c s written touched := by
  induction run with
  | start start => exact ⟨_, [], start.swapping, SwapStart.remembers⟩
  | step before policy access allowed ran ih =>
    obtain ⟨role, queue, swapping, remembers⟩ := ih
    obtain ⟨s₁, role₁, queue₁, outcome, came, swapping₁, remembers₁, -⟩ :=
      swapping.access policy remembers allowed
    rw [came] at ran
    cases ran
    exact ⟨role₁, queue₁, swapping₁, remembers₁⟩

/-- Every touched page is in memory or on the device. -/
theorem Swapping.placed (swapping : Swapping c s role queue) (remembers : Remembers c s written touched)
    (member : n ∈ touched) : Resident c s n ∨ SwappedOut c s written n := by
  have key := remembers.known n member
  have page := (mem_keys.mp key).2.1
  by_cases there : Present (pteOf s c.pgdir n)
  · have here : view s (c.pgdir, n) = some (frameOf (pteOf s c.pgdir n)) := if_pos there
    have data := swapping.counted.view_data key here
    refine .inl ⟨_, queue, here, swapping.ring, ?_, swapping.vaddr n _ key here⟩
    exact count_eq_one_of_mem swapping.nodup ((swapping.queued _).mpr data)
  · have touched := remembers.touched n member
    have word := swapping.swapped_entry key touched there
    refine .inr ⟨?_, there, fun addr byte same was => ?_, queue, swapping.ring, fun f queued address => ?_⟩
    · rw [word, swapEntry_eq page, Nat.shiftLeft_eq]
    · obtain ⟨words, held, right⟩ := remembers.bytes addr byte was
      rw [same, content, if_neg touched, if_neg there, word, swapEntry_slot page] at held
      cases held
      exact right
    · obtain ⟨⟨d, m⟩, key', mapped⟩ := swapping.counted.data_iff.mp ((swapping.queued f).mp queued)
      obtain rfl : d = c.pgdir := Finset.mem_singleton.mp (mem_keys.mp key').1
      have same := (swapping.vaddr m f key' mapped).symm.trans address
      obtain rfl := Nat.eq_of_mul_eq_mul_right (by decide : 0 < pgSize) same
      exact there (present_of_view mapped)

/-- Swapping is transparent. In every state of every run each touched page is in
memory or on the device and not both, and every further access comes back: a read
of a byte that was written before yields the byte that was written last. Only
the flags of the region may forbid an access, and a page that is in memory can
always be read. -/
theorem swapping_transparent (run : SwapRun c s written touched) :
    (∀ n ∈ touched, (Resident c s n ∨ SwappedOut c s written n) ∧
      ¬ (Resident c s n ∧ SwappedOut c s written n)) ∧
    ∀ (policy : Policy) (access : Access), access.Allowed c →
      ∃ s' outcome, access.run policy s c.mm = some (s', outcome) ∧
        (outcome = none → Refused c s access) ∧
        ∀ addr byte, access = .read addr → written addr = some byte →
          outcome = some byte ∨ outcome = none ∧ Refused c s access := by
  obtain ⟨role, queue, swapping, remembers⟩ := run.swapping
  constructor
  · refine fun n member => ⟨swapping.placed remembers member, ?_⟩
    rintro ⟨⟨f, -, here, -⟩, -, absent, -⟩
    exact absent (present_of_view here)
  · intro policy access allowed
    obtain ⟨s', role', queue', outcome, ran, -, -, refused, right⟩ :=
      swapping.access policy remembers allowed
    refine ⟨s', outcome, ran, refused, fun addr byte reads was => ?_⟩
    cases outcome with
    | none => exact .inr ⟨rfl, refused rfl⟩
    | some got => exact .inl (congrArg some (right addr byte got reads was rfl))

/-- A region of two pages, with two frames: one for the page table, one for a page. -/
def twoPages (flags : ℕ) : Setting where
  mm := 0
  pgdir := 0
  vmas := [⟨0x1000, 0x3000, flags⟩]
  slots := {0}
  pool := {1, 2}
  maxSwapOffset := 8
  aligned := forall_mem_singleton.mpr
    ⟨(by decide : 0x1000 % pgSize = 0), (by decide : 0x3000 % pgSize = 0)⟩
  top := forall_mem_singleton.mpr (by decide : 0x3000 ≤ 2 ^ 32)
  sorted := pairwise_singleton _ _
  tables := by
    intro i
    rw [Finset.mem_singleton]
    constructor
    · rintro rfl
      exact ⟨1, ⟨_, mem_singleton_self _, (by decide : 0x1000 / pgSize ≤ 1),
        (by decide : 1 < 0x3000 / pgSize)⟩, rfl⟩
    · rintro ⟨n, ⟨v, member, -, high⟩, rfl⟩
      rw [mem_singleton] at member
      subst member
      have high : n < 0x3000 / pgSize := high
      unfold pgSize at high
      omega
  room := Nat.le_refl 2

def twoFrames (flags : ℕ) : Kernel :=
  { smallKernel with
    npage := 3
    free := {1, 2}
    mms := fun _ => ⟨[⟨0x1000, 0x3000, flags⟩], none, 0, 1, some .praListHead, 0⟩
    praLinks := listInit ⟨id, id⟩ .praListHead
    swapInitOk := true
    checkMm := some 0
    maxSwapOffset := 8 }

theorem twoFrames_start (flags : ℕ) : SwapStart (twoPages flags) (twoFrames flags) := by
  refine ⟨⟨(by decide : 3 ≤ 2 ^ 20), by simp [twoPages], rfl, ?_, ?_, ?_, fun _ _ => rfl, ?_, rfl⟩, rfl,
    rfl, rfl, rfl, rfl, rfl, rfl, ring_init _ _⟩
  · exact (by decide : ∀ f ∈ ({1, 2} : Finset ℕ), f < 3)
  · exact (by decide : ∀ f ∈ ({0} : Finset ℕ), f < 3)
  · exact (by decide : Disjoint ({0} : Finset ℕ) {1, 2})
  · exact fun d _ i _ => (by decide : ¬ Present 0)

theorem twoPages_allowed (flags : ℕ) {access : Access} (page : access.target = 0x1000 ∨ access.target = 0x2000)
    (bytes : ∀ addr byte, access = .write addr byte → byte < 256) : access.Allowed (twoPages flags) := by
  refine ⟨⟨⟨0x1000, 0x3000, flags⟩, mem_singleton_self _, ?_⟩, ?_, bytes⟩
  · rcases page with same | same <;> rw [same]
    · exact (by decide : 0x1000 ≤ 0x1000 ∧ 0x1000 < 0x3000)
    · exact (by decide : 0x1000 ≤ 0x2000 ∧ 0x2000 < 0x3000)
  · rcases page with same | same <;> rw [same]
    · exact (by decide : 0x1000 / pgSize + 1 < 8)
    · exact (by decide : 0x2000 / pgSize + 1 < 8)

theorem twoPages_write (flags : ℕ) {addr : ℕ} (page : addr = 0x1000 ∨ addr = 0x2000) :
    (Access.write addr 42).Allowed (twoPages flags) := by
  refine twoPages_allowed flags page ?_
  rintro _ _ ⟨⟩
  decide

/-- Both pages of a readable and writable region are written, by which the first
one goes to the device; the byte comes back from there. -/
theorem swapping_transparent_read_back :
    ∃ s s' written touched, SwapRun (twoPages 3) s written touched ∧ written 0x1000 = some 42 ∧
      pteOf s 0 1 = 0x200 ∧ (Access.read 0x1000).run lowest s 0 = some (s', some 42) := by
  have first := SwapRun.step (.start (twoFrames_start 3)) lowest _ (twoPages_write 3 (.inl rfl)) rfl
  have second := SwapRun.step first lowest _ (twoPages_write 3 (.inr rfl)) rfl
  obtain ⟨s', outcome, ran, -, right⟩ :=
    (swapping_transparent second).2 lowest (.read 0x1000) (twoPages_allowed 3 (.inl rfl) nofun)
  rcases right 0x1000 42 rfl rfl with rfl | ⟨-, vma, region, -, denied, -⟩
  · exact ⟨_, s', _, _, second, rfl, rfl, ran⟩
  · rw [show vma = ⟨0x1000, 0x3000, 3⟩ from mem_singleton.mp region] at denied
    exact absurd (by decide : ¬ 3 &&& (vmRead ||| vmExec) = 0) denied

/-- In a region with `VM_WRITE` only, a byte that was written cannot be read once its
page is on the device. -/
theorem write_only_region_not_readable :
    ∃ s s' written touched, SwapRun (twoPages vmWrite) s written touched ∧ written 0x1000 = some 42 ∧
      (Access.read 0x1000).Allowed (twoPages vmWrite) ∧
      (Access.read 0x1000).run lowest s 0 = some (s', none) := by
  have first := SwapRun.step (.start (twoFrames_start vmWrite)) lowest _
    (twoPages_write vmWrite (.inl rfl)) rfl
  have second := SwapRun.step first lowest _ (twoPages_write vmWrite (.inr rfl)) rfl
  exact ⟨_, _, _, _, second, rfl, twoPages_allowed vmWrite (.inl rfl) nofun, rfl⟩

/-! ## Running out of memory -/

/-- A page that can be written out: its frame is in use, it is mapped where its
`pra_vaddr` says, and the device has a slot for it. -/
structure Swappable (s : Kernel) (mm f : ℕ) : Prop where
  used : f ∉ s.free
  mapped : ∃ ptep, findPte s (s.mms mm).pgdir (s.praVaddr f) = some (some ptep) ∧ Present (s.pte ptep)
  slot : ∃ offset, swapOffset s (swapEntry (s.praVaddr f)) = some offset

/-- The pages that are registered with `check_mm_struct`, if there is one and it has been
through `swap_init_mm`. They stay registered when they are unmapped. -/
inductive Registered (s : Kernel) : List ℕ → Prop
  | nobody (absent : s.checkMm = none) : Registered s []
  | unset {mm : ℕ} (current : s.checkMm = some mm) (smPriv : (s.mms mm).smPriv = none) : Registered s []
  | pages {mm : ℕ} {queue : List ℕ} (current : s.checkMm = some mm)
    (smPriv : (s.mms mm).smPriv = some .praListHead)
    (ring : Ring s.praLinks .praListHead (queue.map .praPageLink)) : Registered s queue

/-- A page of `check_mm_struct` in the list can be written out. -/
def CanSwap (s : Kernel) (queue : List ℕ) : Prop :=
  ∃ mm, s.checkMm = some mm ∧ ∃ f ∈ queue, Swappable s mm f

/-- Without a free frame and a registered page `alloc_pages(1)` returns NULL; with a page
to write out it returns a frame. -/
def Reports (policy : Policy) (s : Kernel) (queue : List ℕ) : Prop :=
  (s.free = ∅ → queue = [] → ∃ s', allocPage policy s = some (s', none)) ∧
    (CanSwap s queue → ∃ s' f, allocPage policy s = some (s', some f))

/-- With nothing to write out, `swap_out` dereferences NULL or fails an assertion. -/
theorem Registered.dies (on : s.swapInitOk = true) (registered : Registered s []) (full : s.free = ∅) :
    allocPage policy s = none := by
  have nothing : policy.pick s.free = none :=
    eq_none_iff_forall_ne_some.mpr fun f picked => by simpa [full] using policy.pick_mem _ _ picked
  cases registered with
  | nobody absent => simp [allocPage, allocPagesLoop, nothing, on, absent]
  | unset current smPriv =>
    simp [allocPage, allocPagesLoop, nothing, on, current, Paging.swapOut, fifoSwapOutVictim, smPriv]
  | pages current smPriv ring =>
    have last : s.praLinks.prev .praListHead = .praListHead := ring.prev_head
    simp [allocPage, allocPagesLoop, nothing, on, current, Paging.swapOut, fifoSwapOutVictim, smPriv, last]

/-- What `swap_out` has written out could be written out. -/
theorem Swappable.of_swapOut {mm f : ℕ} (smPriv : (s.mms mm).smPriv = some .praListHead)
    (ring : Ring s.praLinks .praListHead ((queue ++ [f]).map .praPageLink)) (full : s.free = ∅)
    (ran : Paging.swapOut mm 1 s = some s') : Swappable s mm f := by
  obtain ⟨⟨s₁, page⟩, victim, ran⟩ := bind_eq_some_iff.mp ran
  cases (fifoSwapOutVictim_last smPriv ring).symm.trans victim
  obtain ⟨found, walked, ran⟩ := bind_eq_some_iff.mp ran
  obtain ⟨ptep, rfl, ran⟩ := bind_eq_some_iff.mp ran
  change (if s.pte ptep &&& pteP = 0 then none else _ : Option Kernel) = _ at ran
  split_ifs at ran with absent
  obtain ⟨s₂, written, -⟩ := bind_eq_some_iff.mp ran
  obtain ⟨offset, slot, -⟩ := bind_eq_some_iff.mp written
  exact ⟨by simp [full], ⟨ptep, walked, absent⟩, offset, slot⟩

/-- When memory is full, there is a frame exactly if the oldest page can be written out:
`swap_out` tries no other. -/
theorem Registered.alloc_iff (on : s.swapInitOk = true) (registered : Registered s queue) (full : s.free = ∅) :
    (∃ s' f, allocPage policy s = some (s', some f)) ↔ CanSwap s queue.getLast?.toList := by
  have nothing : policy.pick s.free = none :=
    eq_none_iff_forall_ne_some.mpr fun f picked => by simpa [full] using policy.pick_mem _ _ picked
  rcases eq_nil_or_concat' queue with rfl | ⟨rest, last, rfl⟩
  · simp [registered.dies on full, CanSwap]
  rw [getLast?_concat, toList_some]
  generalize whole : rest ++ [last] = queue at registered
  cases registered with
  | nobody | unset => simp at whole
  | @pages mm _ current smPriv ring =>
    subst whole
    simp only [CanSwap, current, some.injEq, exists_eq_left', mem_singleton, exists_eq_left]
    constructor
    · rintro ⟨s', f, ran⟩
      simp only [allocPage, allocPagesLoop, nothing, on, current, if_true] at ran
      obtain ⟨_, ⟨⟩, ran⟩ := bind_eq_some_iff.mp ran
      obtain ⟨s₁, out, -⟩ := bind_eq_some_iff.mp ran
      exact .of_swapOut smPriv ring full out
    · rintro ⟨used, ⟨ptep, walked, present⟩, offset, slot⟩
      have ran := swapOut_last smPriv ring walked present slot used
      cases again : policy.pick (insert last s.free) with
      | none => exact absurd (policy.pick_none _ again) (Finset.insert_ne_empty _ _)
      | some f => exact ⟨_, f, by simp [allocPage, allocPagesLoop, nothing, on, current, ran, again]; rfl⟩

/-- `alloc_pages(1)` reports that memory has run out, or makes room, exactly if a frame is
free, or pages are registered and the oldest of them can be written out if any can. -/
theorem alloc_page_reports_exhaustion (on : s.swapInitOk = true) (registered : Registered s queue) :
    Reports policy s queue ↔
      s.free ≠ ∅ ∨ queue ≠ [] ∧ (CanSwap s queue → CanSwap s queue.getLast?.toList) := by
  by_cases full : s.free = ∅
  · rw [Reports, registered.alloc_iff on full, or_iff_right (not_not.mpr full), forall_prop_of_true full]
    by_cases empty : queue = []
    · subst empty
      simp [registered.dies on full]
    · simp [empty]
  · refine iff_of_true ⟨fun none => absurd none full, fun _ => ?_⟩ (.inl full)
    cases picked : policy.pick s.free with
    | none => exact absurd (policy.pick_none _ picked) full
    | some f => exact ⟨{ s with free := s.free.erase f }, f, by simp [allocPage, allocPagesLoop, picked]⟩

/-- No frame is free; the page at 0x1000 in frame 2 is registered. -/
def onePage : Kernel :=
  { twoFrames 3 with
    free := ∅
    mem := fun frame _ => if frame = 0 then pdeWord 1 else 0x2007
    praVaddr := fun _ => 0x1000
    praLinks := listAdd (listInit ⟨id, id⟩ .praListHead) .praListHead (.praPageLink 2) }

/-- The registered page makes room. -/
theorem alloc_page_reports_exhaustion_one :
    onePage.free = ∅ ∧ Registered onePage [2] ∧ CanSwap onePage [2] ∧ Reports lowest onePage [2] := by
  have registered : Registered onePage [2] := by
    exact .pages rfl rfl (ring_listAdd (ring_init _ _) (by simp))
  have swappable : Swappable onePage 0 2 :=
    ⟨Finset.notMem_empty 2, ⟨(1, 1), rfl, (by decide : Present 0x2007)⟩, 2, rfl⟩
  have canSwap : CanSwap onePage [2] := ⟨0, rfl, 2, mem_singleton_self 2, swappable⟩
  exact ⟨rfl, registered, canSwap, (alloc_page_reports_exhaustion rfl registered).mpr
    (.inr ⟨cons_ne_nil _ _, fun _ => canSwap⟩)⟩

/-- With no frame left the kernel dies, with `check_mm_struct` NULL and with an empty
list alike. -/
theorem exhausted_kernel_dies :
    (∀ policy, allocPage policy { onePage with checkMm := none } = none) ∧
      ∀ policy, allocPage policy { twoFrames 3 with free := ∅ } = none :=
  ⟨fun _ => Registered.dies rfl (.nobody rfl) rfl, fun _ => Registered.dies rfl
    (.pages rfl rfl (ring_init _ _)) rfl⟩

end LiNos.Paging
