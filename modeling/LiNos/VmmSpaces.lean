import LiNos.Vmm
import LiNos.PageCopy
import LiNos.PageTeardown

/-!
What the functions of vmm.c do to one address space.

`Built` is the outcome of a call for an address space: work for its directory
within its regions (`Worked`), and at most more regions. `mm_map`,
`pgdir_alloc_page`, `do_pgfault` and `dup_mmap` all have it, however they end;
`exit_mmap` gives all of it back.
-/

namespace LiNos.Paging

open Function List Option

variable {s s' s₁ s₂ : Kernel} {dirs slots : Finset ℕ} {role role' role₁ role₂ : ℕ → Role}
  {area hand hand' : Set ℕ} {d mm la addr perm len vmFlags : ℕ} {m m' : Mm} {vma v : Vma}
  {policy : Policy} {ret : ℤ} {rest : List Vma}

/-- The slots below `USERTOP`. -/
def userSlots : Finset ℕ := Finset.range (userTop / ptSize)

theorem userSlots_user : UserSlots userSlots := fun _ below => Finset.mem_range.mpr below

/-! ## Regions -/

/-- The pages of all regions. -/
def regionPages (mmap : List Vma) : Set ℕ := {n | ∃ v ∈ mmap, n ∈ pageRange v.vmStart v.vmEnd}

theorem lookupVma_spec (found : lookupVma m addr = some vma) :
    (vma ∈ m.mmap ∨ m.mmapCache = some vma) ∧ vma.Contains addr := by
  have inList : ∀ v, m.mmap.find? (fun v => v.Contains addr) = some v → v ∈ m.mmap ∧ v.Contains addr :=
    fun v here => ⟨mem_of_find?_eq_some here, by simpa using find?_some here⟩
  grind [lookupVma]

theorem insertVmaStruct_perm (inserted : insertVmaStruct m vma = some m') : m'.mmap.Perm (vma :: m.mmap) := by
  dsimp only [insertVmaStruct] at inserted
  split_ifs at inserted
  cases inserted
  refine perm_middle.trans ?_
  rw [takeWhile_append_dropWhile]

theorem insertVmaStruct_spec (inserted : insertVmaStruct m vma = some m') :
    (∀ v, v ∈ m'.mmap ↔ v = vma ∨ v ∈ m.mmap) ∧ m'.pgdir = m.pgdir ∧ m'.mmapCache = m.mmapCache := by
  refine ⟨fun v => by rw [(insertVmaStruct_perm inserted).mem_iff, mem_cons], ?_⟩
  dsimp only [insertVmaStruct] at inserted
  split_ifs at inserted
  cases inserted
  exact ⟨rfl, rfl⟩

/-- The regions are in order and do not overlap. -/
def Sorted (mmap : List Vma) : Prop := mmap.Pairwise fun a b => a.vmEnd ≤ b.vmStart

/-- `insert_vma_struct` only compares with the neighbours; by the order of the list
that is enough. -/
theorem insertVmaStruct_sorted (sorted : Sorted m.mmap) (proper : ∀ v ∈ m.mmap, v.vmStart < v.vmEnd)
    (inserted : insertVmaStruct m vma = some m') : Sorted m'.mmap := by
  dsimp only [insertVmaStruct] at inserted
  split_ifs at inserted with checks
  obtain ⟨-, left, right⟩ := checks
  cases inserted
  generalize before_eq : m.mmap.takeWhile (fun v => decide (v.vmStart ≤ vma.vmStart)) = before at *
  generalize after_eq : m.mmap.dropWhile (fun v => decide (v.vmStart ≤ vma.vmStart)) = after at *
  have parts : before ++ after = m.mmap := by
    rw [← before_eq, ← after_eq]
    exact takeWhile_append_dropWhile
  unfold Sorted at *
  rw [← parts] at sorted proper
  obtain ⟨low, high, cross⟩ := pairwise_append.mp sorted
  have below : ∀ a ∈ before, a.vmEnd ≤ vma.vmStart := by
    intro a member
    obtain ⟨front, last, rfl⟩ := eq_nil_or_concat before |>.resolve_left (ne_nil_of_mem member)
    obtain ⟨nonempty, order, -⟩ := left last (by simp)
    rw [concat_eq_append] at member low
    have gap := (pairwise_append.mp low).2.2 a
    grind
  have above : ∀ b ∈ after, vma.vmEnd ≤ b.vmStart := by
    intro b member
    cases after with
    | nil => cases member
    | cons first rest =>
      obtain ⟨-, order, nonempty⟩ := right first rfl
      have gap := (pairwise_cons.mp high).1 b
      grind
  exact pairwise_append.mpr ⟨low, pairwise_cons.mpr ⟨above, high⟩, by grind⟩

/-- A region before all others becomes the first one. -/
theorem insertVmaStruct_first (first : ∀ v ∈ m.mmap, vma.vmStart < v.vmStart)
    (inserted : insertVmaStruct m vma = some m') : m'.mmap = vma :: m.mmap := by
  have none : m.mmap.takeWhile (fun v => decide (v.vmStart ≤ vma.vmStart)) = [] ∧
      m.mmap.dropWhile (fun v => decide (v.vmStart ≤ vma.vmStart)) = m.mmap := by
    cases shape : m.mmap with
    | nil => simp
    | cons v rest => simp [Nat.not_le.mpr (first v (by simp [shape]))]
  dsimp only [insertVmaStruct] at inserted
  split_ifs at inserted
  cases inserted
  rw [none.1, none.2]
  rfl

/-- The regions can be walked by `unmap_range`, are in order, and the cached one is
among them. -/
structure Mm.Ok (m : Mm) : Prop where
  range : ∀ v ∈ m.mmap, RangeOk v.vmStart v.vmEnd
  sorted : Sorted m.mmap
  cache : ∀ v, m.mmapCache = some v → v ∈ m.mmap

theorem Mm.Ok.lookup (ok : m.Ok) (found : lookupVma m addr = some vma) :
    vma ∈ m.mmap ∧ vma.Contains addr :=
  (lookupVma_spec found).imp (fun known => known.elim id (ok.cache vma)) id

theorem Mm.Ok.findVma (ok : m.Ok) : (findVma m addr).1.Ok := by
  unfold Paging.findVma
  split
  · rename_i v found
    exact { ok with cache := fun v' same => some.inj same ▸ (ok.lookup found).1 }
  · exact ok

@[simp] theorem findVma_mmap : (findVma m addr).1.mmap = m.mmap := by
  unfold findVma
  split <;> rfl

@[simp] theorem findVma_pgdir : (findVma m addr).1.pgdir = m.pgdir := by
  unfold findVma
  split <;> rfl

@[simp] theorem findVma_found : (findVma m addr).2 = lookupVma m addr := by
  unfold findVma
  split <;> simp [*]

theorem Mm.Ok.insert (ok : m.Ok) (range : RangeOk vma.vmStart vma.vmEnd)
    (inserted : insertVmaStruct m vma = some m') : m'.Ok := by
  obtain ⟨members, -, cached⟩ := insertVmaStruct_spec inserted
  refine ⟨?_, insertVmaStruct_sorted ok.sorted (fun v member => (ok.range v member).2.2.2.1) inserted, ?_⟩
  · grind [ok.range]
  · grind [ok.cache]

/-- The page of an address of a region is one of its pages. -/
theorem contains_page (range : RangeOk vma.vmStart vma.vmEnd) (inside : vma.Contains addr) :
    addr < userTop ∧ addr / pgSize ∈ pageRange vma.vmStart vma.vmEnd := by
  obtain ⟨aligned, whole, -, -, top⟩ := range
  obtain ⟨low, high⟩ := inside
  refine ⟨high.trans_le top, Nat.div_le_div_right low, ?_⟩
  unfold pgSize at *
  omega

/-! ## One address space -/

/-- `Worked` does not look at the address spaces. -/
theorem Worked.withMms
    (worked : Worked slots dirs d area s role hand s' role' hand') (mms : ℕ → Mm) :
    Worked slots dirs d area { s with mms := mms } role hand { s' with mms := mms } role' hand' :=
  { worked with
    counted := worked.counted.congr rfl rfl rfl fun _ _ => rfl
    rest := by
      have rest := worked.rest
      rw [rest] }

/-- What a call for the address space `mm` does: work for its directory in its
regions; the regions it had stay, and all of them are good. -/
structure Built (dirs : Finset ℕ) (mm : ℕ) (s : Kernel) (role : ℕ → Role) (s' : Kernel)
    (role' : ℕ → Role) : Prop where
  worked : Worked userSlots dirs (s.mms mm).pgdir (regionPages (s'.mms mm).mmap) s role ∅
    { s' with mms := s.mms } role' ∅
  others : ∀ m, m ≠ mm → s'.mms m = s.mms m
  pgdir : (s'.mms mm).pgdir = (s.mms mm).pgdir
  more : ∀ v ∈ (s.mms mm).mmap, v ∈ (s'.mms mm).mmap
  ok : (s'.mms mm).Ok

theorem regionPages_mono {mmap mmap' : List Vma} (more : ∀ v ∈ mmap, v ∈ mmap') :
    regionPages mmap ⊆ regionPages mmap' :=
  fun _ ⟨v, member, inside⟩ => ⟨v, more v member, inside⟩

theorem Built.trans (first : Built dirs mm s role s₁ role₁) (second : Built dirs mm s₁ role₁ s₂ role₂) :
    Built dirs mm s role s₂ role₂ := by
  refine ⟨?_, ?_, second.pgdir.trans first.pgdir, ?_, second.ok⟩
  · have left := first.worked.mono (regionPages_mono second.more)
    have right := second.worked.withMms s.mms
    rw [first.pgdir] at right
    exact left.trans right
  · exact fun m other => (second.others m other).trans (first.others m other)
  · exact fun v member => second.more v (first.more v member)

/-- Only the structure of the address space changes. -/
theorem Built.setMm (counted : Counted s userSlots dirs role) (pgdir : m.pgdir = (s.mms mm).pgdir)
    (more : ∀ v ∈ (s.mms mm).mmap, v ∈ m.mmap) (ok : m.Ok) :
    Built dirs mm s role (s.setMm mm m) role := by
  have self : (s.setMm mm m).mms mm = m := update_self _ _ _
  refine ⟨Worked.refl counted (by simp), ?_, by rw [self, pgdir], by rwa [self], by rwa [self]⟩
  exact fun m' other => update_of_ne other _ _

/-- Only memory changes. -/
theorem Built.work (ok : (s.mms mm).Ok)
    (worked : Worked userSlots dirs (s.mms mm).pgdir (regionPages (s.mms mm).mmap) s role ∅ s' role' ∅) :
    Built dirs mm s role s' role' := by
  have same : s'.mms = s.mms := by rw [worked.rest]
  have back : { s' with mms := s.mms } = s' := by rw [← same]
  refine ⟨?_, fun m _ => by rw [same], by rw [same], fun v member => by rwa [same], by rwa [same]⟩
  rw [back, same]
  exact worked

theorem Built.counted (built : Built dirs mm s role s' role') : Counted s' userSlots dirs role' :=
  built.worked.counted.congr rfl rfl rfl fun _ _ => rfl

theorem Built.checkMm (built : Built dirs mm s role s' role') : s'.checkMm = s.checkMm := by
  have rest := congrArg Kernel.checkMm built.worked.rest
  exact rest

/-! ## The functions -/

theorem mapRegion_built {kmalloc : Bool} (counted : Counted s userSlots dirs role)
    (ok : (s.mms mm).Ok) (range : RangeOk vma.vmStart vma.vmEnd)
    (ran : mapRegion s mm vma kmalloc = some (s', ret)) : Built dirs mm s role s' role := by
  cases kmalloc with
  | false =>
    cases ran
    exact Built.work ok (Worked.refl counted (by simp))
  | true =>
    simp only [mapRegion, if_true, bind_eq_bind, bind_eq_some_iff] at ran
    obtain ⟨m, inserted, ran⟩ := ran
    cases ran
    obtain ⟨members, pgdir, -⟩ := insertVmaStruct_spec inserted
    exact Built.setMm counted pgdir (fun v member => (members v).mpr (.inr member))
      (ok.insert range inserted)

/-- The range `mm_map` works out is one of whole pages. -/
theorem mapRange_ok (access : UserAccess (roundDown addr pgSize)
    (roundUp (wrap (addr + len)) pgSize)) :
    RangeOk (roundDown addr pgSize) (roundUp (wrap (addr + len)) pgSize) := by
  refine ⟨?_, ?_, access⟩ <;> simp only [roundUp, roundDown, pgSize] <;> omega

theorem mmMap_built {kmalloc : Bool} (counted : Counted s userSlots dirs role) (ok : (s.mms mm).Ok)
    (ran : mmMap s mm addr len vmFlags kmalloc = some (s', ret)) : Built dirs mm s role s' role := by
  have cached : Built dirs mm s role
      (s.setMm mm (findVma (s.mms mm) (roundDown addr pgSize)).1) role :=
    Built.setMm counted findVma_pgdir (by simp) ok.findVma
  dsimp only [mmMap] at ran
  split_ifs at ran with access
  · cases ran
    exact cached
  · exact cached.trans (mapRegion_built cached.counted cached.ok (mapRange_ok access) ran)
  · cases ran
    exact Built.work ok (Worked.refl counted (by simp))

/-- The page of an address in one of the regions. -/
theorem Mm.Ok.page (ok : m.Ok) (member : vma ∈ m.mmap) (inside : vma.Contains addr) :
    addr < userTop ∧ addr / pgSize ∈ regionPages m.mmap := by
  obtain ⟨below, page⟩ := contains_page (ok.range vma member) inside
  exact ⟨below, vma, member, page⟩

section

variable (counted : Counted s userSlots dirs role) (normal : s.checkMm = none)
  (known : (s.mms mm).pgdir ∈ dirs) (alone : Private userSlots dirs s) (ok : (s.mms mm).Ok)
  (below : la < userTop) (inside : la / pgSize ∈ regionPages (s.mms mm).mmap) (flags : perm < 2 ^ 12)
include counted normal known alone ok below inside flags

theorem pgdirAllocPage_built {page : Option ℕ}
    (ran : pgdirAllocPage policy s (s.mms mm).pgdir la perm = some (s', page)) :
    ∃ role', Built dirs mm s role s' role' := by
  obtain ⟨role', worked⟩ := pgdirAllocPage_worked counted normal known (user_address below)
    (userSlots_user.pdx_mem below) inside flags alone ran
  exact ⟨role', Built.work ok worked⟩

theorem servePage_built {t : ℕ} (clean : Clean userSlots dirs s)
    (is : role t = .table (s.mms mm).pgdir (pdx la))
    (ran : servePage policy s mm la perm (t, ptx la) = some (s', ret)) :
    ∃ role', Built dirs mm s role s' role' := by
  have address := user_address below
  have entry : pteOf s (s.mms mm).pgdir (la / pgSize) = s.pte (t, ptx la) := by
    rw [← pageNumber_eq address, counted.tables.pteOf_table is (ptx_lt la)]
    rfl
  have key := page_key known address (userSlots_user.pdx_mem below)
  rcases clean _ key with zero | there
  · simp only [servePage, entry.symm.trans zero, if_true, bind_eq_bind, bind_eq_some_iff] at ran
    obtain ⟨⟨s₁, page⟩, allocated, ran⟩ := ran
    have built := pgdirAllocPage_built counted normal known alone ok below inside flags allocated
    cases page <;>
    · cases ran
      exact built
  · rw [entry] at there
    simp only [servePage, there.ne_zero, if_false] at ran
    rw [if_pos (show s.pte (t, ptx la) &&& pteP ≠ 0 from there)] at ran
    cases ran

theorem faultPage_built (clean : Clean userSlots dirs s)
    (ran : faultPage policy s mm la perm = some (s', ret)) :
    ∃ role', Built dirs mm s role s' role' := by
  simp only [faultPage, bind_eq_bind, bind_eq_some_iff] at ran
  obtain ⟨⟨s₁, found⟩, got, ran⟩ := ran
  rcases getPte_worked counted normal known (user_address below)
    (userSlots_user.pdx_mem below) inside got with ⟨rfl, rfl⟩ | ⟨role₁, t, rfl, is, -, worked⟩
  · cases ran
    exact ⟨role, Built.work ok (Worked.refl counted (by simp))⟩
  · have built := Built.work ok worked
    have same : s₁.mms = s.mms := by rw [worked.rest]
    have normal₁ : s₁.checkMm = none := by rw [built.checkMm, normal]
    rw [← same] at known ok inside is
    obtain ⟨role', served⟩ := servePage_built worked.counted normal₁ known (worked.alone alone)
      ok below inside flags (worked.clean clean) is ran
    exact ⟨role', built.trans served⟩

end

theorem faultPerm_lt : faultPerm vmFlags < 2 ^ 12 := by
  unfold faultPerm
  split <;> decide

/-- The page of an address is that of the start of its page. -/
theorem roundDown_page : roundDown addr pgSize / pgSize = addr / pgSize := by
  unfold roundDown pgSize
  omega

theorem doPgfault_built {errorCode : ℕ} (counted : Counted s userSlots dirs role)
    (normal : s.checkMm = none) (known : (s.mms mm).pgdir ∈ dirs) (alone : Private userSlots dirs s)
    (clean : Clean userSlots dirs s) (ok : (s.mms mm).Ok)
    (ran : doPgfault policy s mm errorCode addr = some (s', ret)) :
    ∃ role', Built dirs mm s role s' role' := by
  have cached : Built dirs mm s role (s.setMm mm (findVma (s.mms mm) addr).1) role :=
    Built.setMm counted findVma_pgdir (by simp) ok.findVma
  dsimp only [doPgfault] at ran
  rw [findVma_found] at ran
  cases found : lookupVma (s.mms mm) addr with
  | none =>
    rw [found] at ran
    cases ran
    exact ⟨role, cached⟩
  | some vma =>
    rw [found] at ran
    dsimp only at ran
    split_ifs at ran
    · obtain ⟨member, contains⟩ := ok.lookup found
      obtain ⟨below, inside⟩ := ok.page member contains
      have self : (s.setMm mm (findVma (s.mms mm) addr).1).mms mm = (findVma (s.mms mm) addr).1 :=
        update_self _ _ _
      have below' : roundDown addr pgSize < userTop := (Nat.sub_le _ _).trans_lt below
      obtain ⟨role', built⟩ := faultPage_built cached.counted normal (by rwa [self, findVma_pgdir]) alone
        cached.ok below' (by rwa [self, findVma_mmap, roundDown_page]) faultPerm_lt clean ran
      exact ⟨role', cached.trans built⟩
    · cases ran
      exact ⟨role, cached⟩

/-! ## dup_mmap -/

theorem Copied.withMms {toDir fromDir : ℕ}
    (copied : Copied slots dirs toDir fromDir area s role s' role') (mms : ℕ → Mm) :
    Copied slots dirs toDir fromDir area { s with mms := mms } role { s' with mms := mms } role' :=
  ⟨copied.worked.withMms mms, copied.copies⟩

theorem regionPages_cons :
    regionPages (vma :: rest) = pageRange vma.vmStart vma.vmEnd ∪ regionPages rest := by
  ext n
  simp [regionPages]

/-- The regions behind the last one have none of its pages. -/
theorem regionPages_disjoint (after : ∀ v ∈ rest, v.vmEnd ≤ vma.vmStart) :
    Disjoint (pageRange vma.vmStart vma.vmEnd) (regionPages rest) := by
  refine Set.disjoint_left.mpr ?_
  rintro n ⟨low, -⟩ ⟨v, member, -, high⟩
  exact absurd (high.trans_le (Nat.div_le_div_right (after v member))) (Nat.not_lt.mpr low)

variable {toMm fromMm : ℕ} {kmalloc : Vma → Bool} {vs : List Vma}

section

variable (counted : Counted s userSlots dirs role)

include counted

section

variable (ranges : ∀ v ∈ vs, RangeOk v.vmStart v.vmEnd)
include ranges

/-- The loop of `dup_mmap`, however it ends, and what it has done if it comes to
its end. The regions come from the last to the first. -/
theorem dupLoop_spec (normal : s.checkMm = none)
    (known : (s.mms toMm).pgdir ∈ dirs) (known' : (s.mms fromMm).pgdir ∈ dirs)
    (other : (s.mms fromMm).pgdir ≠ (s.mms toMm).pgdir) (ok : (s.mms toMm).Ok)
    (descending : vs.Pairwise fun a b => b.vmEnd ≤ a.vmStart)
    (sole : ∀ n ∈ regionPages vs, Sole userSlots dirs s ((s.mms toMm).pgdir, n))
    (ran : dupLoop policy kmalloc toMm fromMm vs s = some (s', ret)) :
    ∃ role', Built dirs toMm s role s' role' ∧
      (ret = 0 → Copied userSlots dirs (s.mms toMm).pgdir (s.mms fromMm).pgdir (regionPages vs) s role
        { s' with mms := s.mms } role') ∧
      (ret = 0 → (∀ v ∈ vs, ∀ u ∈ (s.mms toMm).mmap, v.vmStart < u.vmStart) →
        (s'.mms toMm).mmap = vs.reverse ++ (s.mms toMm).mmap) := by
  have apart : fromMm ≠ toMm := by
    rintro rfl
    exact other rfl
  have failed : ¬ -eNoMem = 0 := by decide
  induction vs generalizing s role with
  | nil =>
    cases ran
    have nothing : Worked userSlots dirs (s'.mms toMm).pgdir (regionPages []) s' role ∅ s' role ∅ :=
      Worked.refl counted (by simp)
    exact ⟨role, Built.work ok (Worked.refl counted (by simp)),
      fun _ => ⟨nothing, by simp [regionPages]⟩, fun _ _ => rfl⟩
  | cons vma rest ih =>
    obtain ⟨after, descending'⟩ := pairwise_cons.mp descending
    rw [dupLoop] at ran
    split at ran
    · simp only [bind_eq_bind, bind_eq_some_iff] at ran
      obtain ⟨m, inserted, ⟨s₂, ret₁⟩, copy, ran⟩ := ran
      obtain ⟨members, pgdir, -⟩ := insertVmaStruct_spec inserted
      have self : (s.setMm toMm m).mms toMm = m := update_self _ _ _
      have away : (s.setMm toMm m).mms fromMm = s.mms fromMm := update_of_ne apart _ _
      have grown : Built dirs toMm s role (s.setMm toMm m) role :=
        Built.setMm counted pgdir (fun v member => (members v).mpr (.inr member))
          (ok.insert (ranges vma (by simp)) inserted)
      rw [self, away, pgdir] at copy
      obtain ⟨role₂, worked, copied⟩ := copyRange_copied userSlots_user grown.counted normal other known
        known' (fun n inside => sole n (regionPages_cons ▸ .inl inside)) copy
      have built : Built dirs toMm s role s₂ role₂ := by
        refine grown.trans (Built.work grown.ok ?_)
        rw [self, pgdir]
        exact worked.mono fun n inside => ⟨vma, (members vma).mpr (.inl rfl), inside⟩
      have mms₂ : s₂.mms = (s.setMm toMm m).mms := by rw [worked.rest]
      split at ran
      · rename_i zero
        have copied := copied zero
        have pgdir₂ : (s₂.mms toMm).pgdir = (s.mms toMm).pgdir := built.pgdir
        have pgdir₂' : (s₂.mms fromMm).pgdir = (s.mms fromMm).pgdir := by rw [built.others _ apart]
        have disjoint := regionPages_disjoint after
        have sole₂ : ∀ n ∈ regionPages rest, Sole userSlots dirs s₂ ((s₂.mms toMm).pgdir, n) := by
          intro n inside
          obtain ⟨v, member, page⟩ := inside
          have top := (ranges v (by simp [member])).2.2.2.2
          have key := userSlots_user.key known (page.2.trans_le (Nat.div_le_div_right top))
          rw [pgdir₂]
          exact copied.sole key (Set.disjoint_right.mp disjoint ⟨v, member, page⟩)
            (sole n (regionPages_cons ▸ .inr ⟨v, member, page⟩))
        obtain ⟨role', built', copied', listed⟩ := ih built.counted
          (fun v member => ranges v (by simp [member])) (by rw [built.checkMm, normal])
          (by rwa [pgdir₂]) (by rwa [pgdir₂']) (by rwa [pgdir₂, pgdir₂']) built.ok descending' sole₂ ran
        refine ⟨role', built.trans built', fun zero => ?_, fun zero first => ?_⟩
        · have right := (copied' zero).withMms s.mms
          rw [pgdir₂, pgdir₂'] at right
          rw [regionPages_cons]
          exact (copied.withMms s.mms).trans right disjoint other known'
        · have front := insertVmaStruct_first (first vma (by simp)) inserted
          rw [listed zero ?_, mms₂, self, front]
          · simp
          · intro v member u inside
            rw [mms₂, self, front] at inside
            have proper := (ranges v (by simp [member])).2.2.2.1
            have later := after v member
            grind
      · cases ran
        exact ⟨role₂, built, fun zero => absurd zero failed, fun zero => absurd zero failed⟩
    · cases ran
      exact ⟨role, Built.work ok (Worked.refl counted (by simp)), fun zero => absurd zero failed,
        fun zero => absurd zero failed⟩

/-! ## exit_mmap -/

/-- The first loop of `exit_mmap` unmaps the pages of all regions. -/
theorem unmapAll_spec (known : d ∈ dirs) (alone : Private userSlots dirs s) :
    ∃ s' role', vs.foldlM (fun s vma => unmapRange s d vma.vmStart vma.vmEnd) s = some s' ∧
      Worked userSlots dirs d (regionPages vs) s role ∅ s' role' ∅ ∧
      ∀ n, (d, n) ∈ keys userSlots dirs → Present (pteOf s' d n) →
        Present (pteOf s d n) ∧ n ∉ regionPages vs := by
  induction vs generalizing s role with
  | nil =>
    exact ⟨s, role, rfl, Worked.refl counted (by simp), fun n _ there => ⟨there, by simp [regionPages]⟩⟩
  | cons vma rest ih =>
    obtain ⟨s₁, role₁, ran₁, unmapped⟩ :=
      unmapRange_spec userSlots_user known counted (ranges vma (by simp))
    have worked₁ : Worked userSlots dirs d (pageRange vma.vmStart vma.vmEnd) s role ∅ s₁ role₁ ∅ := by
      refine unmapped.worked counted known (by simp) (fun x inside => inside) ?_
      rintro ⟨d', n⟩ ⟨rfl, inside⟩
      have top := (ranges vma (by simp)).2.2.2.2
      exact alone.sole (userSlots_user.key known (inside.2.trans_le (Nat.div_le_div_right top)))
    obtain ⟨s', role', ran, worked, left⟩ :=
      ih worked₁.counted (fun v member => ranges v (by simp [member])) (worked₁.alone alone)
    rw [foldlM_cons, ran₁, regionPages_cons]
    refine ⟨s', role', ran,
      (worked₁.mono Set.subset_union_left).trans (worked.mono Set.subset_union_right), fun n key there => ?_⟩
    obtain ⟨there₁, outside⟩ := left n key there
    have away : (d, n) ∉ pagesOf d vma.vmStart vma.vmEnd :=
      fun inside => unmapped.absent key inside there₁
    rw [unmapped.kept (d, n) key away] at there₁
    exact ⟨there₁, fun either => either.elim (fun inside => away ⟨rfl, inside⟩) outside⟩

/-- The slots of the pages of all regions. -/
def regionSlots (mmap : List Vma) : Set ℕ := {i | ∃ n ∈ regionPages mmap, n / 1024 = i}

/-- The second loop of `exit_mmap` gives back the tables of all regions. -/
theorem exitAll_spec (known : d ∈ dirs) (vacant : Vacant userSlots dirs s d) :
    ∃ s' role', vs.foldlM (fun s vma => exitRange s d vma.vmStart vma.vmEnd) s = some s' ∧
      Worked userSlots dirs d Set.univ s role ∅ s' role' ∅ ∧
      ∀ i, Present (s'.mem d i) → Present (s.mem d i) ∧ i ∉ regionSlots vs := by
  induction vs generalizing s role with
  | nil =>
    exact ⟨s, role, rfl, Worked.refl counted (by simp),
      fun i there => ⟨there, by simp [regionSlots, regionPages]⟩⟩
  | cons vma rest ih =>
    obtain ⟨s₁, role₁, ran₁, worked₁, vacant₁, left₁⟩ :=
      exitRange_spec userSlots_user known counted vacant (ranges vma (by simp))
    obtain ⟨s', role', ran, worked, left⟩ :=
      ih worked₁.counted (fun v member => ranges v (by simp [member])) vacant₁
    rw [foldlM_cons, ran₁]
    refine ⟨s', role', ran, worked₁.trans worked, fun i there => ?_⟩
    obtain ⟨there₁, outside⟩ := left i there
    obtain ⟨there₀, away⟩ := left₁ i there₁
    refine ⟨there₀, ?_⟩
    rintro ⟨n, inside, same⟩
    rw [regionPages_cons] at inside
    exact inside.elim (fun here => away ⟨n, here, same⟩) fun later => outside ⟨n, later, same⟩

end

/-- Pages and tables of the address space are in its regions only. -/
structure Fits (dirs : Finset ℕ) (s : Kernel) (m : Mm) : Prop where
  ok : m.Ok
  pages : ∀ n, (m.pgdir, n) ∈ keys userSlots dirs → Present (pteOf s m.pgdir n) →
    n ∈ regionPages m.mmap
  tables : ∀ i ∈ userSlots, Present (s.mem m.pgdir i) → i ∈ regionSlots m.mmap

/-- `exit_mmap` comes back, and nothing of the address space but its directory is
left. -/
theorem exitMmap_spec (known : (s.mms mm).pgdir ∈ dirs)
    (alone : Private userSlots dirs s) (fits : Fits dirs s (s.mms mm))
    (unused : (s.mms mm).mmCount = 0) :
    ∃ s' role', exitMmap s mm = some s' ∧
      Worked userSlots dirs (s.mms mm).pgdir Set.univ s role ∅ s' role' ∅ ∧
      ∀ i ∈ userSlots, ¬ Present (s'.mem (s.mms mm).pgdir i) := by
  obtain ⟨s₁, role₁, ran₁, worked₁, left₁⟩ := unmapAll_spec counted fits.ok.range known alone
  have vacant : Vacant userSlots dirs s₁ (s.mms mm).pgdir := by
    intro n key there
    obtain ⟨there₀, outside⟩ := left₁ n key there
    exact outside (fits.pages n key there₀)
  obtain ⟨s', role', ran, worked, left⟩ :=
    exitAll_spec worked₁.counted fits.ok.range known vacant
  have same : s₁.mms = s.mms := by rw [worked₁.rest]
  refine ⟨s', role', ?_, (worked₁.mono (Set.subset_univ _)).trans worked, fun i slot there => ?_⟩
  · rw [exitMmap, if_pos unused]
    dsimp only
    rw [ran₁, bind_eq_bind, bind_some, same]
    exact ran
  · obtain ⟨there₁, outside⟩ := left i there
    rcases worked₁.slot i with kept | inside
    · exact outside (fits.tables i slot (kept ▸ there₁))
    · exact outside inside

end

end LiNos.Paging
