import LiNos.SwapFaults

/-!
What a process can read on a page it touches for the first time.

`pgdir_alloc_page` maps the frame that `alloc_page` returns and does not write to
it, so the new page shows what the frame held while it was free. Two kernels that
differ only in free frames are compared before and after the same page fault
(`fresh_page_leaks_iff`).
-/

namespace LiNos.Paging

open Function Option Finset

variable {s s' s₁ s₂ : Kernel} {slots dirs : Finset ℕ} {role role' : ℕ → Role} {policy : Policy}
  {vma : Vma} {mm d f t addr la va perm : ℕ} {words : ℕ → ℕ}

/-! ## What user mode reads -/

def byteAt (s : Kernel) (f off : ℕ) : ℕ := byteOf (s.mem f (off / 4)) (off % 4)

/-- The byte a read from user mode finds; `none` when the read is not allowed. -/
def userByte (s : Kernel) (d va : ℕ) : Option ℕ :=
  let pte := pteOf s d (va / pgSize)
  if Accessible pte false then some (byteAt s (frameOf pte) (va % pgSize)) else none

/-- The kernels are equal but for what free frames hold. -/
structure AlikeButFree (s₁ s₂ : Kernel) : Prop where
  rest : s₂ = { s₁ with mem := s₂.mem }
  used : ∀ f, f ∉ s₁.free → s₂.mem f = s₁.mem f

/-- Both runs of a handler stop the kernel, or both return and leave the process
with the same readable bytes. -/
def SameReadable (mm : ℕ) : Option (Kernel × ℤ) → Option (Kernel × ℤ) → Prop
  | none, none => True
  | some (s₁, _), some (s₂, _) =>
    ∀ va < userTop, userByte s₁ (s₁.mms mm).pgdir va = userByte s₂ (s₂.mms mm).pgdir va
  | _, _ => False

/-- The free frame that the page at `la` would get: the first one `alloc_page` hands
out, or the second one if the page needs a table as well. -/
def frameFor (policy : Policy) (s : Kernel) (d la : ℕ) : Option ℕ :=
  if Present (s.mem d (pdx la)) then policy.pick s.free
  else (policy.pick s.free).bind fun t => policy.pick (s.free.erase t)

theorem userByte_congr (entry : pteOf s' d (va / pgSize) = pteOf s d (va / pgSize))
    (mem : ∀ f, view s (d, va / pgSize) = some f → s'.mem f = s.mem f) :
    userByte s' d va = userByte s d va := by
  simp only [userByte, entry]
  by_cases access : Accessible (pteOf s d (va / pgSize)) false
  · have held := mem _ (if_pos access.1)
    rw [if_pos access, if_pos access, byteAt, held, byteAt]
  · rw [if_neg access, if_neg access]

theorem UserSlots.key_of_lt (user : UserSlots slots) (known : d ∈ dirs) (below : va < userTop) :
    (d, va / pgSize) ∈ keys slots dirs := by
  refine user.key known ?_
  unfold userTop pgSize at *
  omega

/-! ## One run -/

theorem allocPage_picked (picked : policy.pick s.free = some f) :
    allocPage policy s = some ({ s with free := s.free.erase f }, some f) := by
  simp [allocPage, allocPagesLoop, picked]

theorem allocPage_empty (normal : s.checkMm = none) (picked : policy.pick s.free = none) :
    allocPage policy s = if s.swapInitOk then none else some (s, none) := by
  simp [allocPage, allocPagesLoop, picked, normal]

/-- What a served fault leaves: the page shows the frame as it was while free, all
other pages show what they showed. -/
structure ShowsFrame (s s' : Kernel) (d la f : ℕ) : Prop where
  mms : s'.mms = s.mms
  here : ∀ va, va / pgSize = la / pgSize → userByte s' d va = some (byteAt s f (va % pgSize))
  others : ∀ va < userTop, va / pgSize ≠ la / pgSize → userByte s' d va = userByte s d va

/-- A process faults at a page of its own whose entry is 0. -/
structure FirstTouch (slots dirs : Finset ℕ) (role : ℕ → Role) (s : Kernel) (mm d la : ℕ) : Prop where
  user : UserSlots slots
  known : d ∈ dirs
  below : la < userTop
  counted : Counted s slots dirs role
  normal : s.checkMm = none
  dir : (s.mms mm).pgdir = d
  zero : pteOf s d (la / pgSize) = 0

namespace FirstTouch

variable (touch : FirstTouch slots dirs role s mm d la)

include touch

theorem key (below : va < userTop) : (d, va / pgSize) ∈ keys slots dirs :=
  touch.user.key_of_lt touch.known below

theorem pte_eq (is : role t = .table d (pdx la)) : s.pte (t, ptx la) = 0 := by
  rw [Kernel.pte, ← touch.counted.tables.pteOf_table is (ptx_lt la),
    pageNumber_eq (user_address touch.below), touch.zero]

/-- A free frame is mapped at a page that has a table. -/
theorem servePage_fresh (policy : Policy) (vmFlags : ℕ) (there : Present (s.mem d (pdx la)))
    (is : role t = .table d (pdx la)) (picked : policy.pick s.free = some f) :
    ∃ s', servePage policy s mm la (faultPerm vmFlags) (t, ptx la) = some (s', 0) ∧
      ShowsFrame s s' d la f := by
  have member := policy.pick_mem _ _ picked
  have was := (touch.counted.tables.free f).mp member
  obtain ⟨t₁, found, is₁⟩ := getPte_there (touch.counted.take member) touch.known
    (touch.user.pdx_mem touch.below) policy there
  have flags : faultPerm vmFlags < 2 ^ 12 := faultPerm_lt
  obtain ⟨s₃, role₃, ran, inserted⟩ := mapPte_spec (touch.counted.take member) is₁ (ptx_lt la) flags
    (Or.inl (update_self f .held role))
  rw [pageNumber_eq (user_address touch.below)] at inserted
  have insert : pageInsert policy { s with free := s.free.erase f } d f la (faultPerm vmFlags) =
      some (s₃, 0) := by
    simp only [pageInsert, found, bind_eq_bind, bind_some, ran]
  have check : s₃.checkMm = none := by
    rw [inserted.rest]
    exact touch.normal
  have track : trackPage s₃ la f = some (s₃, some f) := by
    rw [trackPage, check]
    split <;> simp_all
  have small := inserted.counted.tables.small (f := f) (by simp [inserted.becomes])
  have word : frameOf (pteWord f (faultPerm vmFlags)) = f := frameOf_pteWord small flags
  have readable : Accessible (pteWord f (faultPerm vmFlags)) false :=
    accessible_pteWord.mpr fun write => absurd write Bool.false_ne_true
  have held : s₃.mem f = s.mem f := inserted.mem f (by simp)
  refine ⟨s₃, ?_, ?_, ?_, ?_⟩
  · simp only [servePage, touch.pte_eq is, if_true, touch.dir, pgdirAllocPage,
      allocPage_picked picked, bind_eq_bind, bind_some, insert, track]
  · rw [inserted.rest]
  · intro va page
    have here : pteOf s₃ d (va / pgSize) = pteWord f (faultPerm vmFlags) := by
      rw [page]
      exact inserted.here
    simp only [userByte, here, if_pos readable, word, byteAt, held]
  · intro va below other
    have key := touch.key below
    refine userByte_congr (inserted.kept _ key fun same => other (congrArg Prod.snd same)) ?_
    intro g mapped
    have data := touch.counted.view_data key mapped
    have apart : g ≠ f := by grind
    exact inserted.mem g (by simp [update_of_ne apart, data])

/-- There is no frame for the page. -/
theorem servePage_empty (is : role t = .table d (pdx la)) (picked : policy.pick s.free = none) :
    servePage policy s mm la perm (t, ptx la) = if s.swapInitOk then none else some (s, -eNoMem) := by
  simp only [servePage, touch.pte_eq is, if_true, pgdirAllocPage, allocPage_empty touch.normal picked]
  split <;> rfl

/-- The table for the page is set up; no other frame is written but the directory. -/
theorem getPte_grown (absent : ¬ Present (s.mem d (pdx la))) (picked : policy.pick s.free = some t) :
    ∃ mem ref role', getPte policy s d la =
        some ({ s with mem, ref, free := s.free.erase t }, some (t, ptx la)) ∧
      role' t = .table d (pdx la) ∧ Present (mem d (pdx la)) ∧
      FirstTouch slots dirs role' { s with mem, ref, free := s.free.erase t } mm d la ∧
      (∀ va < userTop, userByte { s with mem, ref, free := s.free.erase t } d va = userByte s d va) ∧
      ∀ g ∈ s.free, g ≠ t → mem g = s.mem g := by
  have counted := touch.counted
  have slot := touch.user.pdx_mem touch.below
  have member := policy.pick_mem _ _ picked
  have off : s.mem d (pdx la) &&& pteP = 0 := not_not.mp absent
  have known := (counted.tables.directory d).mp touch.known
  obtain ⟨s', role', ran, is, there, grown⟩ := counted.grow touch.known slot absent member
  obtain ⟨explicit, -⟩ := installTable_spec (counted.take member)
    touch.known slot (update_self t .held role) absent
  obtain ⟨rfl, -⟩ := Prod.mk.inj (some.inj (explicit.symm.trans ran))
  refine ⟨_, _, role', ?_, is, there, { touch with counted := grown.counted, zero := ?_ }, ?_, ?_⟩
  · simp only [getPte, off, if_true, allocPage_picked picked, bind_eq_bind, bind_some, ran]
    rfl
  · exact (grown.entries _ (touch.key touch.below)).trans touch.zero
  · intro va below
    have key := touch.key below
    refine userByte_congr (grown.entries _ key) fun g mapped => ?_
    have data := counted.view_data key mapped
    exact grown.mem g (by simp [data]) (by grind)
  · intro g free other
    have was := (counted.tables.free g).mp free
    rw [Kernel.poke_mem_other (by grind), Kernel.fill_mem_other other]
    rfl

/-- The page gets the frame `frameFor`. -/
theorem faultPage_fresh (policy : Policy) (vmFlags : ℕ) (picked : frameFor policy s d la = some f) :
    ∃ s', faultPage policy s mm la (faultPerm vmFlags) = some (s', 0) ∧ ShowsFrame s s' d la f := by
  by_cases there : Present (s.mem d (pdx la))
  · rw [frameFor, if_pos there] at picked
    obtain ⟨t, found, is⟩ := getPte_there touch.counted touch.known
      (touch.user.pdx_mem touch.below) policy there
    obtain ⟨s', ran, shows⟩ := touch.servePage_fresh policy vmFlags there is picked
    refine ⟨s', ?_, shows⟩
    simp only [faultPage, touch.dir, found, bind_eq_bind, bind_some, ran]
  · rw [frameFor, if_neg there, bind_eq_some_iff] at picked
    obtain ⟨t, first, second⟩ := picked
    obtain ⟨mem, ref, role₁, found, is, there₁, touch₁, same, kept⟩ := touch.getPte_grown there first
    obtain ⟨s', ran, shows⟩ := touch₁.servePage_fresh policy vmFlags there₁ is second
    have member := mem_erase.mp (policy.pick_mem _ _ second)
    refine ⟨s', ?_, shows.mms, fun va page => ?_, fun va below other => ?_⟩
    · simp only [faultPage, touch.dir, found, bind_eq_bind, bind_some, ran]
    · simp only [shows.here va page, byteAt, kept f member.2 member.1]
    · rw [shows.others va below other, same va below]

/-- When there is no frame for the page, the process reads what it read. -/
theorem faultPage_empty (policy : Policy) (perm : ℕ) (picked : frameFor policy s d la = none) :
    ∃ s', faultPage policy s mm la perm = (if s.swapInitOk then none else some (s', -eNoMem)) ∧
      s'.mms = s.mms ∧ ∀ va < userTop, userByte s' d va = userByte s d va := by
  by_cases there : Present (s.mem d (pdx la))
  · rw [frameFor, if_pos there] at picked
    obtain ⟨t, found, is⟩ := getPte_there touch.counted touch.known
      (touch.user.pdx_mem touch.below) policy there
    refine ⟨s, ?_, rfl, fun _ _ => rfl⟩
    simp only [faultPage, touch.dir, found, bind_eq_bind, bind_some, touch.servePage_empty is picked]
  · have off : s.mem d (pdx la) &&& pteP = 0 := not_not.mp there
    rw [frameFor, if_neg there, bind_eq_none_iff] at picked
    cases first : policy.pick s.free with
    | none =>
      refine ⟨s, ?_, rfl, fun _ _ => rfl⟩
      simp only [faultPage, touch.dir, getPte, off, if_true, allocPage_empty touch.normal first]
      split <;> rfl
    | some t =>
      obtain ⟨mem, ref, role₁, found, is, -, touch₁, same, -⟩ := touch.getPte_grown there first
      refine ⟨{ s with mem, ref, free := s.free.erase t }, ?_, rfl, same⟩
      simp only [faultPage, touch.dir, found, bind_eq_bind, bind_some,
        touch₁.servePage_empty is (picked t first)]

end FirstTouch

/-! ## Two runs -/

namespace AlikeButFree

variable (alike : AlikeButFree s₁ s₂)

include alike

theorem mms : s₂.mms = s₁.mms := by rw [alike.rest]

theorem structural (counted : Counted s₁ slots dirs role) {g : ℕ} (is : (role g).Structural) :
    s₂.mem g = s₁.mem g := by
  refine alike.used g fun free => ?_
  rw [(counted.tables.free g).mp free] at is
  exact free_notStructural is

theorem userByte_eq (counted : Counted s₁ slots dirs role) (key : (d, va / pgSize) ∈ keys slots dirs) :
    userByte s₂ d va = userByte s₁ d va := by
  refine userByte_congr ?_ fun g mapped => alike.used g fun free => ?_
  · exact counted.tables.entries_congr (fun g is => alike.structural counted is) key
  · cases (counted.view_data key mapped).symm.trans ((counted.tables.free g).mp free)

/-- Finding the region of the address does not tell the kernels apart. -/
theorem setMm (mm : ℕ) (m : Mm) : AlikeButFree (s₁.setMm mm m) (s₂.setMm mm m) := by
  refine ⟨?_, alike.used⟩
  rw [Kernel.setMm, alike.mms, Kernel.setMm, alike.rest]

variable (touch : FirstTouch slots dirs role s₁ mm d la)

include touch

theorem firstTouch : FirstTouch slots dirs role s₂ mm d la where
  user := touch.user
  known := touch.known
  below := touch.below
  counted := by
    refine touch.counted.congr ?_ ?_ ?_ fun g is => alike.structural touch.counted is
    all_goals rw [alike.rest]
  normal := by rw [alike.rest, touch.normal]
  dir := by rw [alike.mms, touch.dir]
  zero := by
    rw [← touch.zero]
    exact touch.counted.tables.entries_congr (fun g is => alike.structural touch.counted is)
      (touch.key touch.below)

theorem frameFor_eq : frameFor policy s₂ d la = frameFor policy s₁ d la := by
  have free : s₂.free = s₁.free := by rw [alike.rest]
  have dir := alike.structural touch.counted
    (Or.inl ((touch.counted.tables.directory d).mp touch.known))
  rw [frameFor, frameFor, free, dir]

/-- The fault is served: the two kernels show the frame the page got. -/
theorem served_iff {vmFlags : ℕ} (aligned : la % pgSize = 0)
    (picked : frameFor policy s₁ d la = some f) :
    SameReadable mm (faultPage policy s₁ mm la (faultPerm vmFlags))
        (faultPage policy s₂ mm la (faultPerm vmFlags)) ↔
      ∀ off < pgSize, byteAt s₁ f off = byteAt s₂ f off := by
  have below := touch.below
  obtain ⟨s₁', ran₁, shows₁⟩ := touch.faultPage_fresh policy vmFlags picked
  obtain ⟨s₂', ran₂, shows₂⟩ := (alike.firstTouch touch).faultPage_fresh policy vmFlags
    ((alike.frameFor_eq touch).trans picked)
  rw [ran₁, ran₂]
  simp only [SameReadable, shows₁.mms, shows₂.mms, alike.mms, touch.dir]
  constructor
  · intro same off small
    have page : (la + off) / pgSize = la / pgSize := by
      unfold pgSize at *
      omega
    have inside : (la + off) % pgSize = off := by
      unfold pgSize at *
      omega
    have inUser : la + off < userTop := by
      unfold userTop pgSize at *
      omega
    have bytes := same (la + off) inUser
    rw [shows₁.here _ page, shows₂.here _ page, inside] at bytes
    exact some.inj bytes
  · intro same va below'
    by_cases page : va / pgSize = la / pgSize
    · rw [shows₁.here va page, shows₂.here va page, same _ (Nat.mod_lt va (by decide))]
    · rw [shows₁.others va below' page, shows₂.others va below' page,
        alike.userByte_eq touch.counted (touch.key below')]

/-- There is no frame for the page: the two kernels show what they showed. -/
theorem unserved (picked : frameFor policy s₁ d la = none) :
    SameReadable mm (faultPage policy s₁ mm la perm) (faultPage policy s₂ mm la perm) := by
  have swapping : s₂.swapInitOk = s₁.swapInitOk := by rw [alike.rest]
  obtain ⟨s₁', ran₁, mms₁, same₁⟩ := touch.faultPage_empty policy perm picked
  obtain ⟨s₂', ran₂, mms₂, same₂⟩ := (alike.firstTouch touch).faultPage_empty policy perm
    ((alike.frameFor_eq touch).trans picked)
  rw [ran₁, ran₂, swapping]
  cases s₁.swapInitOk with
  | true => trivial
  | false =>
    intro va below
    rw [mms₁, mms₂, alike.mms, touch.dir, same₁ va below, same₂ va below,
      alike.userByte_eq touch.counted (touch.key below)]

end AlikeButFree

/-- A process that touches a page for the first time sees the same bytes in two
kernels that differ in free frames exactly if the fault is refused, or there is no
frame for the page, or the frame the page gets held the same bytes before. -/
theorem fresh_page_leaks_iff (policy : Policy) (errorCode : ℕ) (user : UserSlots slots)
    (counted : Counted s₁ slots dirs role) (normal : s₁.checkMm = none)
    (known : (s₁.mms mm).pgdir ∈ dirs) (region : lookupVma (s₁.mms mm) addr = some vma)
    (below : addr < userTop) (zero : pteOf s₁ (s₁.mms mm).pgdir (addr / pgSize) = 0)
    (alike : AlikeButFree s₁ s₂) :
    SameReadable mm (doPgfault policy s₁ mm errorCode addr) (doPgfault policy s₂ mm errorCode addr) ↔
      (faultOk errorCode vma.vmFlags = true →
        ∀ f, frameFor policy s₁ (s₁.mms mm).pgdir addr = some f →
          ∀ off < pgSize, byteAt s₁ f off = byteAt s₂ f off) := by
  have region₂ : lookupVma (s₂.mms mm) addr = some vma := by rwa [alike.mms]
  rw [doPgfault_found policy errorCode region, doPgfault_found policy errorCode region₂, alike.mms]
  have cached := alike.setMm mm { s₁.mms mm with mmapCache := some vma }
  have counted' : Counted (s₁.setMm mm { s₁.mms mm with mmapCache := some vma }) slots dirs role :=
    counted.congr rfl rfl rfl fun _ _ => rfl
  by_cases allowed : faultOk errorCode vma.vmFlags = true
  · have start : addr / pgSize * pgSize < userTop := (Nat.div_mul_le_self _ _).trans_lt below
    have page : addr / pgSize * pgSize / pgSize = addr / pgSize := Nat.mul_div_cancel _ (by decide)
    have slot : pdx (addr / pgSize * pgSize) = pdx addr := by
      rw [pdx_eq (user_address start), pdx_eq (user_address below), page]
    have touch : FirstTouch slots dirs role (s₁.setMm mm { s₁.mms mm with mmapCache := some vma }) mm
        (s₁.mms mm).pgdir (addr / pgSize * pgSize) :=
      ⟨user, known, start, counted', normal, by rw [Kernel.setMm_mms_self], by rw [page]; exact zero⟩
    rw [if_pos allowed, if_pos allowed]
    have frame : frameFor policy (s₁.setMm mm { s₁.mms mm with mmapCache := some vma })
        (s₁.mms mm).pgdir (addr / pgSize * pgSize) = frameFor policy s₁ (s₁.mms mm).pgdir addr := by
      rw [frameFor, frameFor, slot]
      rfl
    cases picked : frameFor policy s₁ (s₁.mms mm).pgdir addr with
    | some f =>
      rw [cached.served_iff touch (Nat.mul_mod_left _ _) (frame.trans picked)]
      constructor
      · rintro same - g ⟨⟩
        exact same
      · exact fun same => same allowed f rfl
    | none =>
      exact iff_of_true (cached.unserved touch (frame.trans picked)) fun _ g none => nomatch none
  · rw [if_neg allowed, if_neg allowed]
    refine iff_of_true ?_ fun refused => absurd refused allowed
    intro va below'
    rw [Kernel.setMm_mms_self, Kernel.setMm_mms_self]
    exact (cached.userByte_eq counted' (user.key_of_lt known below')).symm

/-- Four frames: the directory 0 and the free frames 1 to 3; frame `f` is full of
`words f`. A process has the page at 0x200000 in a region and has not touched it. -/
def leftovers (words : ℕ → ℕ) : Kernel :=
  { smallKernel with
    mem := fun f _ => words f
    mms := fun _ => ⟨[⟨0x200000, 0x201000, vmRead ||| vmWrite⟩], none, 0, 1, none, 1⟩ }

theorem leftovers_counted (dir : words 0 = 0) :
    Counted (leftovers words) (range 1024) {0} (startRole {0} {1, 2, 3}) := by
  have start : Start (range 1024) {0} {1, 2, 3} (leftovers words) := by
    refine { start_smallKernel with free := rfl, empty := ?_, normal := rfl }
    intro d known i _
    rw [mem_singleton] at known
    subst known
    have zero : (leftovers words).mem 0 i = 0 := dir
    rw [zero]
    decide
  exact start.sound.counted

theorem leftovers_alike (outside : ∀ f, f ∉ ({1, 2, 3} : Finset ℕ) → words f = 0) :
    AlikeButFree (leftovers fun _ => 0) (leftovers words) := by
  refine ⟨rfl, fun f used => ?_⟩
  funext i
  exact outside f used

private theorem userSlots_all : UserSlots (range 1024) := by
  intro i below
  rw [mem_range]
  unfold userTop ptSize pgSize at below
  omega

/-- The kernels differ in frame 3, and the page gets frame 2. -/
theorem fresh_page_leaks_iff_other_frame :
    SameReadable 0 (doPgfault lowest (leftovers fun _ => 0) 0 6 0x200000)
      (doPgfault lowest (leftovers fun f => if f = 3 then 7 else 0) 0 6 0x200000) := by
  have alike : AlikeButFree (leftovers fun _ => 0) (leftovers fun f => if f = 3 then 7 else 0) :=
    leftovers_alike (by simp_all)
  refine (fresh_page_leaks_iff lowest 6 userSlots_all (leftovers_counted rfl) rfl (by decide) rfl
    (by decide) rfl alike).mpr ?_
  rintro - f picked off -
  have second : frameFor lowest (leftovers fun _ => 0) 0 0x200000 = some 2 := rfl
  cases second.symm.trans picked
  rfl

/-- A new page shows what the frame held while it was free. -/
theorem fresh_page_shows_old_frame :
    ∃ s₁ s₂, Counted s₁ (range 1024) {0} (startRole {0} {1, 2, 3}) ∧ AlikeButFree s₁ s₂ ∧
      lookupVma (s₁.mms 0) 0x200000 = some ⟨0x200000, 0x201000, vmRead ||| vmWrite⟩ ∧
      pteOf s₁ (s₁.mms 0).pgdir (0x200000 / pgSize) = 0 ∧
      ¬ SameReadable 0 (doPgfault lowest s₁ 0 6 0x200000) (doPgfault lowest s₂ 0 6 0x200000) := by
  refine ⟨leftovers fun _ => 0, leftovers fun f => if f = 2 then 7 else 0, leftovers_counted rfl,
    leftovers_alike (by simp_all), rfl, rfl, fun same => ?_⟩
  obtain ⟨s₁, s₂, ran₁, ran₂, byte₁, byte₂⟩ : ∃ s₁ s₂,
      doPgfault lowest (leftovers fun _ => 0) 0 6 0x200000 = some (s₁, 0) ∧
      doPgfault lowest (leftovers fun f => if f = 2 then 7 else 0) 0 6 0x200000 = some (s₂, 0) ∧
      userByte s₁ (s₁.mms 0).pgdir 0x200000 = some 0 ∧
      userByte s₂ (s₂.mms 0).pgdir 0x200000 = some 7 :=
    ⟨_, _, rfl, rfl, rfl, rfl⟩
  rw [ran₁, ran₂] at same
  have bytes := same 0x200000 (by decide)
  rw [byte₁, byte₂] at bytes
  cases bytes

end LiNos.Paging
