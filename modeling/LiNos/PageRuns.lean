import Mathlib.Order.Interval.Finset.Nat
import LiNos.FramePool
import LiNos.PageRefs

/-!
Sequences of `page_insert`, `page_remove` and `unmap_range` over any set of page
directories.

A `Session` is a kernel with a record of what has been done to it. A call may
insert a page that was just allocated or is mapped somewhere, at any address of
the slots of interest; which free frame the allocator hands out may differ from
call to call. The result is about every state such calls lead to, and about
what each further call does there (`page_refs_exact`).
-/

namespace LiNos.Paging

open Tally Function Finset

variable {slots dirs pool : Finset ℕ} {role role' : ℕ → Role} {f d la : ℕ}

/-! ## Calls -/

/-- A kernel, the frames `alloc_page` has handed out and nobody has used yet, and
for every page the frame last inserted there and not removed since. -/
structure Session where
  kernel : Kernel
  fresh : Finset ℕ
  last : ℕ × ℕ → Option ℕ

inductive Call where
  | allocPage
  | freePage (page : ℕ)
  | pageInsert (pgdir page la perm : ℕ)
  | pageRemove (pgdir la : ℕ)
  | unmapRange (pgdir start stop : ℕ)

/-- A page of some directory is mapped to the frame. -/
def Mapped (slots dirs : Finset ℕ) (s : Kernel) (f : ℕ) : Prop :=
  ∃ x ∈ keys slots dirs, view s x = some f

/-- The frame is a page table of one of the directories. -/
def IsTable (slots dirs : Finset ℕ) (s : Kernel) (f : ℕ) : Prop :=
  ∃ d ∈ dirs, ∃ i ∈ slots, Present (s.mem d i) ∧ frameOf (s.mem d i) = f

/-- The arguments are such as callers pass: a frame that is given back was never
used, and one that is inserted is fresh or mapped. -/
def Call.Allowed (slots dirs : Finset ℕ) (r : Session) : Call → Prop
  | .allocPage => True
  | .freePage page => page ∈ r.fresh
  | .pageInsert pgdir page la perm =>
    pgdir ∈ dirs ∧ la < 2 ^ 32 ∧ pdx la ∈ slots ∧ perm < 2 ^ 12 ∧
      (page ∈ r.fresh ∨ Mapped slots dirs r.kernel page)
  | .pageRemove pgdir la => pgdir ∈ dirs ∧ la < 2 ^ 32 ∧ pdx la ∈ slots
  | .unmapRange pgdir start stop => pgdir ∈ dirs ∧ RangeOk start stop

/-- The call needs a frame. -/
def Call.Allocates : Call → Prop
  | .allocPage | .pageInsert .. => True
  | _ => False

/-- Nothing is inserted any more in the pages from `start` to `stop`. -/
def forget (last : ℕ × ℕ → Option ℕ) (pgdir start stop : ℕ) (x : ℕ × ℕ) : Option ℕ :=
  if x.1 = pgdir ∧ start / pgSize ≤ x.2 ∧ x.2 < stop / pgSize then none else last x

/-- The call with its result, and the record brought up to date. -/
def Call.run (policy : Policy) (r : Session) : Call → Option (Session × ℤ)
  | .allocPage => do
    match ← Paging.allocPage policy r.kernel with
    | (s, none) => some ({ r with kernel := s }, 0)
    | (s, some page) => some ({ r with kernel := s, fresh := insert page r.fresh }, 0)
  | .freePage page => do
    let s ← Paging.freePage r.kernel page
    some ({ r with kernel := s, fresh := r.fresh.erase page }, 0)
  | .pageInsert pgdir page la perm => do
    let (s, ret) ← Paging.pageInsert policy r.kernel pgdir page la perm
    if ret = 0 then
      some (⟨s, r.fresh.erase page, update r.last (pgdir, la / pgSize) (some page)⟩, 0)
    else some ({ r with kernel := s }, ret)
  | .pageRemove pgdir la => do
    let s ← Paging.pageRemove r.kernel pgdir la
    some ({ r with kernel := s, last := update r.last (pgdir, la / pgSize) none }, 0)
  | .unmapRange pgdir start stop => do
    let s ← Paging.unmapRange r.kernel pgdir start stop
    some ({ r with kernel := s, last := forget r.last pgdir start stop }, 0)

/-- Before the first call the directories are empty and the frames of the pool
are free. -/
structure Start (slots dirs pool : Finset ℕ) (s : Kernel) : Prop where
  npage_le : s.npage ≤ 2 ^ 20
  slot_lt : ∀ i ∈ slots, i < 1024
  free : s.free = pool
  pool_lt : ∀ f ∈ pool, f < s.npage
  dir_lt : ∀ d ∈ dirs, d < s.npage
  apart : Disjoint dirs pool
  ref : ∀ f ∈ pool, s.ref f = 0
  empty : ∀ d ∈ dirs, ∀ i ∈ slots, ¬ Present (s.mem d i)
  normal : s.checkMm = none

inductive Reachable (slots dirs pool : Finset ℕ) : Session → Prop
  | start {s : Kernel} (start : Start slots dirs pool s) :
    Reachable slots dirs pool ⟨s, ∅, fun _ => none⟩
  | step {r r' : Session} {ret : ℤ} (before : Reachable slots dirs pool r) (policy : Policy)
    (call : Call) (allowed : call.Allowed slots dirs r) (ran : call.run policy r = some (r', ret)) :
    Reachable slots dirs pool r'

/-! ## The invariant -/

/-- The counts are exact, and the record says what the kernel says. -/
structure Sound (slots dirs pool : Finset ℕ) (r : Session) (role : ℕ → Role) : Prop where
  counted : Counted r.kernel slots dirs role
  normal : r.kernel.checkMm = none
  fresh : ∀ f, f ∈ r.fresh ↔ role f = .held
  last : ∀ x ∈ keys slots dirs, view r.kernel x = r.last x
  pool : ∀ f, f ∈ pool ↔ role f ≠ .other ∧ role f ≠ .directory

/-- The roles before the first call. -/
def startRole (dirs pool : Finset ℕ) (f : ℕ) : Role :=
  if f ∈ pool then .free else if f ∈ dirs then .directory else .other

theorem Start.sound {s : Kernel} (start : Start slots dirs pool s) :
    Sound slots dirs pool ⟨s, ∅, fun _ => none⟩ (startRole dirs pool) := by
  have apart := disjoint_left.mp start.apart
  have others : ∀ f, startRole dirs pool f ≠ .held ∧ startRole dirs pool f ≠ .data ∧
      ∀ d i, startRole dirs pool f ≠ .table d i := by grind [startRole]
  have entries : ∀ x ∈ keys slots dirs, view s x = none := by
    rintro ⟨d, n⟩ key
    obtain ⟨known, -, slot⟩ := mem_keys.mp key
    exact view_none (by simp only [pteOf, if_neg (start.empty d known _ slot)]; decide)
  obtain ⟨npage_le, slot_lt, free, pool_lt, dir_lt, -, ref, empty, normal⟩ := start
  refine ⟨⟨⟨npage_le, slot_lt, by grind [startRole], by grind [startRole], by grind [startRole],
    fun d known i slot there => absurd there (empty d known i slot),
    fun t d i is => absurd is ((others t).2.2 d i), fun t d i is => absurd is ((others t).2.2 d i)⟩,
    by grind [startRole], fun t d i is => absurd is ((others t).2.2 d i),
    fun f is => absurd is (others f).2.1, fun f is => absurd is (others f).2.1⟩, normal,
    by grind, entries, by grind [startRole]⟩

/-! ## Roles after a call -/

section Roles

variable {s s' : Kernel} {x : ℕ × ℕ} {i page word : ℕ} {gone : Set (ℕ × ℕ)} {r : Role}

theorem Grown.role_iff (grown : Grown slots dirs s role s' role' d i) (used : r ≠ .free)
    (notTable : r ≠ .table d i) : role' f = r ↔ role f = r := by
  grind [grown.used f, grown.kept f]

theorem Inserted.role_iff (inserted : Inserted slots dirs s role s' role' x page word)
    (other : f ≠ page) (used : r ≠ .free) (notData : r ≠ .data) : role' f = r ↔ role f = r := by
  grind [inserted.data f, inserted.used f]

/-- Exactly the frames that lose their last mapping become free. -/
theorem Unmapped.freed_iff (unmapped : Unmapped slots dirs s role s' role' gone) :
    role' f = .free ∧ role f ≠ .free ↔ role f = .data ∧ role' f ≠ .data := by
  grind [unmapped.data f, unmapped.used f]

theorem Inserted.freed_iff (inserted : Inserted slots dirs s role s' role' x page word) :
    role' f = .free ∧ role f ≠ .free ↔ role f = .data ∧ role' f ≠ .data := by
  grind [inserted.data f, inserted.used f, inserted.becomes]

end Roles

/-! ## One call -/

/-- What a call may do in a sound state. It can only fail to come back for want of
a frame, when `alloc_pages` turns to `swap_out` without an address space. Frames
become free by losing their last mapping, or by being given back unused; and a
call that reports a lack of memory has done nothing. -/
structure Outcome (slots dirs pool : Finset ℕ) (r : Session) (role : ℕ → Role) (call : Call)
    (r' : Session) (ret : ℤ) (role' : ℕ → Role) : Prop where
  sound : Sound slots dirs pool r' role'
  freed : ∀ f, role' f = .free ∧ role f ≠ .free ↔
    (role f = .data ∧ role' f ≠ .data) ∨ call = .freePage f
  ret : ret = 0 ∨ ret = -eNoMem ∧ r' = r

def Stuck (policy : Policy) (r : Session) (call : Call) : Prop :=
  call.run policy r = none ∧ call.Allocates ∧ r.kernel.free = ∅ ∧ r.kernel.swapInitOk = true

variable {r : Session}

section

variable (sound : Sound slots dirs pool r role)

include sound

theorem Sound.allocPage (policy : Policy) :
    (∃ r' ret role', Call.run policy r .allocPage = some (r', ret) ∧
        Outcome slots dirs pool r role .allocPage r' ret role') ∨ Stuck policy r .allocPage := by
  rcases allocPage_cases policy sound.normal with ⟨f, member, took⟩ | ⟨empty, nothing⟩
  · have was := (sound.counted.tables.free f).mp member
    have fresh := sound.fresh
    have pool := sound.pool
    refine .inl ⟨⟨{ r.kernel with free := r.kernel.free.erase f }, insert f r.fresh, r.last⟩, 0,
      _, ?_, ⟨sound.counted.take member, sound.normal, ?_, sound.last, ?_⟩, ?_, .inl rfl⟩
    · rw [Call.run, took]
      rfl
    all_goals grind [update_apply]
  · by_cases swapping : r.kernel.swapInitOk = true
    · refine .inr ⟨?_, trivial, empty, swapping⟩
      simp [Call.run, nothing, swapping]
    · refine .inl ⟨r, 0, role, ?_, sound, by simp, .inl rfl⟩
      simp [Call.run, nothing, swapping]

theorem Sound.freePage (policy : Policy) (fresh : f ∈ r.fresh) :
    ∃ r' ret role', Call.run policy r (.freePage f) = some (r', ret) ∧
      Outcome slots dirs pool r role (.freePage f) r' ret role' := by
  have held := (sound.fresh f).mp fresh
  obtain ⟨s', ran, counted, rfl⟩ := sound.counted.give_back held
  obtain ⟨-, normal, fresh, last, pool⟩ := sound
  refine ⟨⟨_, r.fresh.erase f, r.last⟩, 0, _, ?_, ⟨counted, normal, ?_, last, ?_⟩, ?_, .inl rfl⟩
  · rw [Call.run, ran]
    rfl
  all_goals grind [update_apply]

/-- Removing mappings, as `page_remove` and `unmap_range` do. -/
theorem Sound.unmap {s' : Kernel} {gone : Set (ℕ × ℕ)} {last : ℕ × ℕ → Option ℕ} {call : Call}
    (unmapped : Unmapped slots dirs r.kernel role s' role' gone)
    (removed : ∀ x ∈ gone, last x = none) (kept : ∀ x, x ∉ gone → last x = r.last x)
    (other : ∀ f, call ≠ .freePage f) :
    Outcome slots dirs pool r role call { r with kernel := s', last := last } 0 role' := by
  have fresh := sound.fresh
  have pool := sound.pool
  have data := unmapped.data
  have used := unmapped.used
  refine ⟨⟨unmapped.counted, ?_, ?_, ?_, ?_⟩, fun f => ?_, .inl rfl⟩
  · rw [show s'.checkMm = r.kernel.checkMm by rw [unmapped.rest]]
    exact sound.normal
  · grind
  · intro x key
    by_cases inside : x ∈ gone
    · exact ((unmapped.view_eq key).1 inside).trans (removed x inside).symm
    · rw [(unmapped.view_eq key).2 inside, sound.last x key]
      exact (kept x inside).symm
  · grind
  · rw [unmapped.freed_iff]
    simp [other f]

theorem Sound.pageInsert {page perm : ℕ} (policy : Policy)
    (allowed : Call.Allowed slots dirs r (.pageInsert d page la perm)) :
    (∃ r' ret role', Call.run policy r (.pageInsert d page la perm) = some (r', ret) ∧
        Outcome slots dirs pool r role (.pageInsert d page la perm) r' ret role') ∨
      Stuck policy r (.pageInsert d page la perm) := by
  obtain ⟨known, address, slot, flags, source⟩ := allowed
  have fresh : role page = .held ∨ role page = .data :=
    source.imp (sound.fresh page).mp sound.counted.data_iff.mpr
  rcases pageInsert_spec policy sound.counted sound.normal known address slot flags fresh with
    ⟨empty, ran⟩ | ⟨s₁, role₁, s', role', ran, grown, inserted⟩
  · by_cases swapping : r.kernel.swapInitOk = true
    · refine .inr ⟨?_, trivial, empty, swapping⟩
      simp [Call.run, ran, swapping]
    · refine .inl ⟨r, -eNoMem, role, ?_, sound, by simp, .inr ⟨rfl, rfl⟩⟩
      rw [if_neg swapping] at ran
      simp [Call.run, ran, eNoMem]
  · have held := sound.fresh
    have pool := sound.pool
    have roles : ∀ f r, f ≠ page → r ≠ .free → r ≠ .data → (∀ d i, r ≠ .table d i) →
        (role' f = r ↔ role f = r) := fun f r other used notData notTable =>
      (inserted.role_iff other used notData).trans (grown.role_iff used (notTable _ _))
    refine .inl ⟨⟨s', r.fresh.erase page, update r.last (d, la / pgSize) (some page)⟩, 0,
      role', ?_, ⟨inserted.counted, ?_, fun f => ?_, fun x key => ?_, fun f => ?_⟩, fun f => ?_, .inl rfl⟩
    · rw [Call.run, ran]
      rfl
    · rw [show s'.checkMm = r.kernel.checkMm by rw [inserted.rest, grown.rest]]
      exact sound.normal
    · have same := roles f .held
      grind [inserted.becomes]
    · by_cases same : x = (d, la / pgSize)
      · rw [same, inserted.view_here flags]
        exact (update_self (d, la / pgSize) (some page) r.last).symm
      · rw [view_congr (inserted.kept x key same), grown.view_eq key, sound.last x key]
        exact (update_of_ne same _ _).symm
    · have other := roles f .other
      have directory := roles f .directory
      grind [inserted.becomes]
    · have last := inserted.freed_iff (f := f)
      grind [grown.kept f]

end

/-- Every allowed call keeps the invariant, with the outcome its kind allows. -/
theorem Sound.call (user : UserSlots slots) (sound : Sound slots dirs pool r role) (policy : Policy)
    (call : Call) (allowed : call.Allowed slots dirs r) :
    (∃ r' ret role', call.run policy r = some (r', ret) ∧
      Outcome slots dirs pool r role call r' ret role') ∨ Stuck policy r call := by
  cases call with
  | allocPage => exact sound.allocPage policy
  | freePage page => exact .inl (sound.freePage policy allowed)
  | pageInsert pgdir page la perm => exact sound.pageInsert policy allowed
  | pageRemove pgdir la =>
    obtain ⟨known, address, slot⟩ := allowed
    obtain ⟨s', role', ran, unmapped⟩ := pageRemove_spec sound.counted known address slot
    refine .inl ⟨⟨s', r.fresh, update r.last (pgdir, la / pgSize) none⟩, 0, role', ?_,
      sound.unmap unmapped ?_ (fun x outside => update_of_ne outside _ _) (by simp)⟩
    · rw [Call.run, ran]
      rfl
    · rintro x rfl
      exact update_self _ _ _
  | unmapRange pgdir start stop =>
    obtain ⟨known, ok⟩ := allowed
    obtain ⟨s', role', ran, unmapped⟩ := unmapRange_spec user known sound.counted ok
    refine .inl ⟨⟨s', r.fresh, forget r.last pgdir start stop⟩, 0, role', ?_,
      sound.unmap unmapped (fun x inside => if_pos inside) (fun x outside => if_neg outside) (by simp)⟩
    rw [Call.run, ran]
    rfl

/-! ## Runs -/

theorem Reachable.sound (user : UserSlots slots) (reached : Reachable slots dirs pool r) :
    ∃ role, Sound slots dirs pool r role := by
  induction reached with
  | start start => exact ⟨_, start.sound⟩
  | step _ policy call allowed ran ih =>
    obtain ⟨role, sound⟩ := ih
    rcases sound.call user policy call allowed with ⟨r', ret, role', came, outcome⟩ | ⟨none, -⟩
    · cases came.symm.trans ran
      exact ⟨role', outcome.sound⟩
    · cases none.symm.trans ran

/-- What holds in every state: the count of a frame is the number of pages mapped
to it, over all directories; page tables, which no page is mapped to, have count
1; no mapped frame is free; and `get_page` returns the page last inserted. -/
structure Exact (slots dirs pool : Finset ℕ) (r : Session) : Prop where
  ref : ∀ f ∈ pool, ¬ IsTable slots dirs r.kernel f →
    r.kernel.ref f = tally (keys slots dirs) (view r.kernel) f
  table : ∀ f, IsTable slots dirs r.kernel f →
    f ∈ pool ∧ r.kernel.ref f = 1 ∧ ¬ Mapped slots dirs r.kernel f ∧ f ∉ r.kernel.free
  mapped : ∀ f, Mapped slots dirs r.kernel f → f ∈ pool ∧ f ∉ r.kernel.free
  getPage : ∀ d ∈ dirs, ∀ la < 2 ^ 32, pdx la ∈ slots →
    getPage r.kernel d la = some (r.last (d, la / pgSize))

theorem Sound.exact (sound : Sound slots dirs pool r role) : Exact slots dirs pool r := by
  have tables := sound.counted.tables
  have isTable : ∀ f, IsTable slots dirs r.kernel f ↔ ∃ d i, role f = .table d i := by
    intro f
    constructor
    · rintro ⟨d, known, i, slot, there, rfl⟩
      obtain ⟨t, word, is⟩ := tables.pde d known i slot there
      rw [word, frameOf_pdeWord (tables.small (by simp [is]))]
      exact ⟨d, i, is⟩
    · rintro ⟨d, i, is⟩
      obtain ⟨known, slot, word⟩ := tables.table f d i is
      refine ⟨d, known, i, slot, word ▸ present_pdeWord, ?_⟩
      rw [word, frameOf_pdeWord (tables.small (by simp [is]))]
  refine ⟨?_, ?_, ?_, ?_⟩
  · intro f pooled notTable
    rw [isTable] at notTable
    obtain ⟨notOther, notDir⟩ := (sound.pool f).mp pooled
    by_cases data : role f = .data
    · exact sound.counted.data f data
    · have idle : role f = .free ∨ role f = .held := by
        cases is : role f <;> grind
      rw [sound.counted.idle f idle,
        tally_eq_zero_iff.mpr fun x key here => data (sound.counted.view_data key here)]
      rfl
  · intro f is
    obtain ⟨d, i, is⟩ := (isTable f).mp is
    refine ⟨(sound.pool f).mpr (by simp [is]), sound.counted.table f d i is, fun mapped => ?_,
      by simp [tables.free f, is]⟩
    cases is.symm.trans (sound.counted.data_iff.mpr mapped)
  · intro f mapped
    have data := sound.counted.data_iff.mpr mapped
    exact ⟨(sound.pool f).mpr (by simp [data]), by simp [tables.free f, data]⟩
  · intro d known la address slot
    rw [tables.getPage_eq known address slot, sound.last _ ?_]
    rw [mem_keys, ← pdx_eq address]
    refine ⟨known, ?_, slot⟩
    unfold pageCount pgSize
    omega

/-- Reference counting is exact over every sequence of calls, and in every state
each further call frees exactly the frames whose last mapping it removes. -/
theorem page_refs_exact (user : UserSlots slots) (reached : Reachable slots dirs pool r) :
    Exact slots dirs pool r ∧
      ∀ (policy : Policy) (call : Call), call.Allowed slots dirs r →
        (call.run policy r = none →
          call.Allocates ∧ r.kernel.free = ∅ ∧ r.kernel.swapInitOk = true) ∧
        ∀ r' ret, call.run policy r = some (r', ret) →
          (∀ f, f ∈ r'.kernel.free ∧ f ∉ r.kernel.free ↔
            (Mapped slots dirs r.kernel f ∧ ¬ Mapped slots dirs r'.kernel f) ∨
              call = .freePage f) ∧
          (ret = 0 ∨ ret = -eNoMem ∧ r' = r) := by
  obtain ⟨role, sound⟩ := reached.sound user
  refine ⟨sound.exact, fun policy call allowed => ?_⟩
  rcases sound.call user policy call allowed with ⟨r₁, ret₁, role', came, outcome⟩ | ⟨none, stuck⟩
  · rw [came]
    refine ⟨(nomatch ·), ?_⟩
    rintro r' ret ⟨⟩
    refine ⟨fun f => ?_, outcome.ret⟩
    have after := outcome.sound.counted
    rw [after.tables.free f, sound.counted.tables.free f]
    simp only [Mapped, ← sound.counted.data_iff, ← after.data_iff]
    exact outcome.freed f
  · rw [none]
    exact ⟨fun _ => stuck, fun _ _ => (nomatch ·)⟩

/-- Three free frames and an empty directory in frame 0. -/
def smallKernel : Kernel where
  npage := 4
  mem := fun _ _ => 0
  ref := fun _ => 0
  free := {1, 2, 3}
  mms := fun _ => ⟨[], none, 0, 0, none, 0⟩
  bootPgdir := 0
  praVaddr := fun _ => 0
  praLinks := ⟨id, id⟩
  swapInitOk := false
  checkMm := none
  maxSwapOffset := 0
  disk := fun _ _ => 0

theorem start_smallKernel : Start (range 1024) {0} {1, 2, 3} smallKernel := by
  refine ⟨by decide, by simp, rfl, by decide, by decide, by decide, by simp [smallKernel], ?_, rfl⟩
  exact fun d _ i _ => (by decide : ¬ Present 0)

theorem range_user : UserSlots (range 1024) := by
  intro i below
  unfold userTop ptSize pgSize at below
  exact mem_range.mpr (by omega)

/-- A page is allocated, mapped and removed again, by which its frame becomes
free. -/
theorem page_refs_exact_last_mapping :
    ∃ r r', Reachable (range 1024) {0} {1, 2, 3} r ∧
      getPage r.kernel 0 0x200000 = some (some 1) ∧
      Call.run lowest r (.pageRemove 0 0x200000) = some (r', 0) ∧
      Mapped (range 1024) {0} r.kernel 1 ∧
      ¬ Mapped (range 1024) {0} r'.kernel 1 := by
  have slot : pdx 0x200000 ∈ range 1024 := mem_range.mpr (by decide)
  have first := Reachable.step (Reachable.start start_smallKernel) lowest .allocPage trivial rfl
  have second := Reachable.step first lowest (.pageInsert 0 1 0x200000 7)
    ⟨by decide, by decide, slot, by decide, .inl (by decide)⟩ rfl
  obtain ⟨refs, calls⟩ := page_refs_exact range_user second
  have removed := (calls lowest (.pageRemove 0 0x200000) ⟨by decide, by decide, slot⟩).2 _ _ rfl
  have freed := (removed.1 1).mp (by decide)
  refine ⟨_, _, second, ?_, rfl, ?_⟩
  · exact refs.getPage 0 (by decide) 0x200000 (by decide) slot
  · simpa using freed

/-! ## unmap_range -/

section Unmap

variable {s s' : Kernel} {start stop : ℕ}

/-- The number of pages of `[start, stop)` that `d` maps to `f`. -/
def mappingsIn (s : Kernel) (d start stop f : ℕ) : ℕ :=
  tally (Ico (start / pgSize) (stop / pgSize)) (fun n => view s (d, n)) f

section

variable (inside : ∀ n ∈ pageRange start stop, (d, n) ∈ keys slots dirs)
  (unmapped : Unmapped slots dirs s role s' role' (pagesOf d start stop))
include inside unmapped

theorem Unmapped.tally_add : tally (keys slots dirs) (view s) f =
    tally (keys slots dirs) (view s') f + mappingsIn s d start stop f := by
  let pages := (Ico (start / pgSize) (stop / pgSize)).map ⟨Prod.mk d, Prod.mk_right_injective d⟩
  have pages_iff : ∀ x, x ∈ pages ↔ x ∈ pagesOf d start stop := by
    rintro ⟨d', n⟩
    simp [pages, pagesOf, pageRange, and_comm, eq_comm]
  have within : pages ⊆ keys slots dirs := by
    rintro ⟨d', n⟩ member
    obtain ⟨rfl, page⟩ := (pages_iff _).mp member
    exact inside n page
  have same : mappingsIn s d start stop f = tally pages (view s) f := by
    rw [mappingsIn, tally, tally, filter_map, card_map]
    rfl
  rw [same]
  refine tally_drop within (fun x member => ?_) fun x key outside => ?_
  · exact (unmapped.view_eq (within member)).1 ((pages_iff x).mp member)
  · exact (unmapped.view_eq key).2 (mt (pages_iff x).mpr outside)

theorem Unmapped.ref_add (counted : Counted s slots dirs role) :
    s'.ref f + mappingsIn s d start stop f = s.ref f := by
  have moved := unmapped.tally_add (f := f) inside
  by_cases data : role f = .data
  · have count : s'.ref f = tally (keys slots dirs) (view s') f := by
      rcases unmapped.data f data with still | free
      · exact unmapped.counted.data f still
      · have never : tally (keys slots dirs) (view s') f = 0 := by
          refine tally_eq_zero_iff.mpr fun x key here => ?_
          cases free.symm.trans (unmapped.counted.view_data key here)
        rw [unmapped.counted.idle f (.inl free), never, Nat.cast_zero]
    rw [count, counted.data f data, moved, Nat.cast_add]
  · have never : tally (keys slots dirs) (view s) f = 0 :=
      tally_eq_zero_iff.mpr fun x key here => data (counted.view_data key here)
    have none : mappingsIn s d start stop f = 0 := by omega
    rw [none, Nat.cast_zero, add_zero]
    exact unmapped.ref f fun x key _ here => data (counted.view_data key here)

end

theorem Unmapped.free_iff {gone : Set (ℕ × ℕ)} (counted : Counted s slots dirs role)
    (unmapped : Unmapped slots dirs s role s' role' gone) :
    f ∈ s'.free ↔ f ∈ s.free ∨ s.ref f ≠ 0 ∧ s'.ref f = 0 := by
  have positive : ∀ {s : Kernel} {role : ℕ → Role}, Counted s slots dirs role → role f = .data → s.ref f ≠ 0 := by
    intro s role counted data
    have positive := tally_pos_iff.mpr (counted.mapped f data)
    rw [counted.data f data]
    omega
  rw [counted.tables.free f, unmapped.counted.tables.free f]
  by_cases data : role f = .data
  · rcases unmapped.data f data with still | free
    · simp [data, still, positive unmapped.counted still]
    · simp [data, free, positive counted data, unmapped.counted.idle f (.inl free)]
  · have same := unmapped.ref f fun x key _ here => data (counted.view_data key here)
    rw [unmapped.used f data, same]
    tauto

/-- `unmap_range` comes back; no page of the range is mapped, everything else is as it was, the
count of every frame is lower by its mappings in the range, and the frames whose count has
become 0 are free. -/
theorem unmap_range_exact (user : UserSlots slots) (known : d ∈ dirs)
    (counted : Counted s slots dirs role) (ok : RangeOk start stop) :
    ∃ s', unmapRange s d start stop = some s' ∧
      (∀ n ∈ pageRange start stop, ¬ Present (pteOf s' d n)) ∧
      (∀ x ∈ keys slots dirs, x ∉ pagesOf d start stop → pteOf s' x.1 x.2 = pteOf s x.1 x.2) ∧
      (∀ f, (∀ i, role f ≠ .table d i) → s'.mem f = s.mem f) ∧
      (∀ f, s'.ref f + mappingsIn s d start stop f = s.ref f) ∧
      ∀ f, f ∈ s'.free ↔ f ∈ s.free ∨ s.ref f ≠ 0 ∧ s'.ref f = 0 := by
  have inside : ∀ n ∈ pageRange start stop, (d, n) ∈ keys slots dirs :=
    fun n page => user.key known (page.2.trans_le (Nat.div_le_div_right ok.2.2.2.2))
  obtain ⟨s', role', ran, unmapped⟩ := unmapRange_spec user known counted ok
  refine ⟨s', ran, fun n page => unmapped.absent (inside n page) ⟨rfl, page⟩, unmapped.kept, ?_,
    fun f => unmapped.ref_add inside counted, fun f => unmapped.free_iff counted⟩
  exact fun f apart => unmapped.mem f fun x page i => page.1 ▸ apart i

/-- The only page of a directory is unmapped, by which its frame becomes free. -/
theorem unmap_range_exact_last :
    ∃ r s', Reachable (range 1024) {0} {1, 2, 3} r ∧ r.kernel.ref 1 = 1 ∧
      unmapRange r.kernel 0 0x200000 0x201000 = some s' ∧ s'.ref 1 = 0 ∧ 1 ∈ s'.free := by
  have slot : pdx 0x200000 ∈ range 1024 := mem_range.mpr (by decide)
  have first := Reachable.step (Reachable.start start_smallKernel) lowest .allocPage trivial rfl
  have second := Reachable.step first lowest (.pageInsert 0 1 0x200000 7)
    ⟨by decide, by decide, slot, by decide, .inl (by decide)⟩ rfl
  obtain ⟨role, sound⟩ := second.sound range_user
  obtain ⟨s', ran, -, -, -, refs, freed⟩ := unmap_range_exact range_user (mem_singleton_self 0) sound.counted
    (by decide : RangeOk 0x200000 0x201000)
  have zero : s'.ref 1 + 1 = 1 := refs 1
  have count : s'.ref 1 = 0 := by omega
  exact ⟨_, s', second, rfl, ran, count, (freed 1).mpr (.inr ⟨by decide, count⟩)⟩

end Unmap

end LiNos.Paging
