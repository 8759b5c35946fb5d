import LiNos.PageRuns
import LiNos.VmmSpaces

/-!
Address spaces from `setup_pgdir` to `put_pgdir`.

`Spaces` is a kernel with a ledger of who each frame was allocated for: whatever
leaves the free frames during a call is charged to the address space the call
was made for, and what becomes free is struck out. A run creates address spaces,
maps regions, allocates and faults in pages, forks, writes to pages, and tears
address spaces down, in any order; the rest of the kernel allocates and frees in
between. In every state the ledger says what belongs to an address space, and
tearing one down frees exactly that (`teardown_exact`).
-/

namespace LiNos.Paging

open Function List Option

variable {s s' : Kernel} {pool dirs dirs' : Finset ℕ} {role role' : ℕ → Role} {d d' f mm : ℕ}
  {policy : Policy} {m : Mm} {area : Set ℕ} {words : ℕ → ℕ}

/-! ## Calls -/

/-- Who a frame was allocated for. -/
inductive Owner where
  | kernel
  | space (mm : ℕ)
deriving DecidableEq, Repr

structure Spaces where
  kernel : Kernel
  live : Finset ℕ
  owner : ℕ → Option Owner

/-- The ledger after a call that was made for `who`. -/
def charge (who : Owner) (s s' : Kernel) (owner : ℕ → Option Owner) (f : ℕ) : Option Owner :=
  if f ∈ s'.free then none else if f ∈ s.free then some who else owner f

inductive SpaceCall where
  | create (mm : ℕ)
  | mmMap (mm addr len vmFlags : ℕ) (kmalloc : Bool)
  | pgdirAllocPage (mm la perm : ℕ)
  | doPgfault (mm errorCode addr : ℕ)
  | dupMmap (toMm fromMm : ℕ) (kmalloc : Vma → Bool)
  | store (mm la w : ℕ)
  | setMmCount (mm : ℕ) (val : ℤ)
  | allocPage
  | freePage (page : ℕ)
  | teardown (mm : ℕ)

/-- A word is written through the page table of the address space. -/
def store (s : Kernel) (mm la w : ℕ) : Option Kernel := do
  match ← getPage s (s.mms mm).pgdir la with
  | none => some s
  | some page => some (s.poke page (la % pgSize / 4) w)

/-- `exit_mmap` and `put_pgdir`. -/
def teardown (s : Kernel) (mm : ℕ) : Option Kernel := do
  let s ← exitMmap s mm
  putPgdir s mm

/-- The calls the rest of the kernel makes: pages are put into regions only, and a
frame is given back by the one who holds it. -/
def SpaceCall.Allowed (r : Spaces) : SpaceCall → Prop
  | .create mm => mm ∉ r.live
  | .mmMap mm .. => mm ∈ r.live
  | .pgdirAllocPage mm la perm =>
    mm ∈ r.live ∧ perm < 2 ^ 12 ∧ ∃ vma ∈ (r.kernel.mms mm).mmap, vma.Contains la
  | .doPgfault mm _ _ => mm ∈ r.live
  | .dupMmap toMm fromMm _ => toMm ∈ r.live ∧ fromMm ∈ r.live ∧ toMm ≠ fromMm
  | .store mm la _ => mm ∈ r.live ∧ la < userTop
  | .setMmCount mm _ => mm ∈ r.live
  | .allocPage => True
  | .freePage page => r.owner page = some .kernel
  | .teardown mm => mm ∈ r.live

/-- The kernel is `s` after a call made for `who`. -/
def Spaces.after (r : Spaces) (who : Owner) (s : Kernel) : Spaces :=
  { r with kernel := s, owner := charge who r.kernel s r.owner }

def SpaceCall.run (policy : Policy) (r : Spaces) : SpaceCall → Option Spaces
  | .create mm => do
    let (s, ret) ← setupPgdir policy (mmCreate r.kernel mm) mm
    if ret = 0 then some { r.after (.space mm) s with live := insert mm r.live }
    else some (r.after (.space mm) s)
  | .mmMap mm addr len vmFlags kmalloc => do
    let (s, _) ← Paging.mmMap r.kernel mm addr len vmFlags kmalloc
    some (r.after (.space mm) s)
  | .pgdirAllocPage mm la perm => do
    let (s, _) ← Paging.pgdirAllocPage policy r.kernel (r.kernel.mms mm).pgdir la perm
    some (r.after (.space mm) s)
  | .doPgfault mm errorCode addr => do
    let (s, _) ← Paging.doPgfault policy r.kernel mm errorCode addr
    some (r.after (.space mm) s)
  | .dupMmap toMm fromMm kmalloc => do
    let (s, _) ← Paging.dupMmap policy r.kernel toMm fromMm kmalloc
    some (r.after (.space toMm) s)
  | .store mm la w => do
    let s ← Paging.store r.kernel mm la w
    some (r.after (.space mm) s)
  | .setMmCount mm val =>
    some (r.after (.space mm) (r.kernel.setMm mm { r.kernel.mms mm with mmCount := val }))
  | .allocPage => do
    let (s, _) ← Paging.allocPage policy r.kernel
    some (r.after .kernel s)
  | .freePage page => do
    let s ← Paging.freePage r.kernel page
    some (r.after .kernel s)
  | .teardown mm => do
    let s ← Paging.teardown r.kernel mm
    some { r.after (.space mm) s with live := r.live.erase mm }

/-- Before the first address space: the frames of the pool are free, and
`boot_pgdir`, which is not one of them, maps no user address. -/
structure Booted (pool : Finset ℕ) (s : Kernel) : Prop where
  start : Start userSlots ∅ pool s
  boot : s.bootPgdir ∉ pool
  bare : ∀ i ∈ userSlots, ¬ Present (s.mem s.bootPgdir i)

inductive Spaces.Reachable (pool : Finset ℕ) : Spaces → Prop
  | boot {s : Kernel} (booted : Booted pool s) : Spaces.Reachable pool ⟨s, ∅, fun _ => none⟩
  | step {r r' : Spaces} (before : Spaces.Reachable pool r) (policy : Policy) (call : SpaceCall)
    (allowed : call.Allowed r) (ran : call.run policy r = some r') : Spaces.Reachable pool r'

/-! ## Owners -/

/-- A frame of an address space by its role. -/
theorem OwnedBy.cases (counted : Counted s userSlots dirs role) (known : d ∈ dirs)
    (owned : OwnedBy userSlots dirs s role d f) :
    role f = .directory ∧ f = d ∨ (∃ i, role f = .table d i) ∨
      role f = .data ∧ ∃ n, (d, n) ∈ keys userSlots dirs ∧ view s (d, n) = some f := by
  rcases owned with rfl | table | ⟨n, key, mapped⟩
  · exact .inl ⟨(counted.tables.directory f).mp known, rfl⟩
  · exact .inr (.inl table)
  · exact .inr (.inr ⟨counted.view_data key mapped, n, key, mapped⟩)

/-- The frames of an address space are in use. -/
theorem OwnedBy.used (counted : Counted s userSlots dirs role) (known : d ∈ dirs)
    (owned : OwnedBy userSlots dirs s role d f) :
    role f ≠ .free ∧ role f ≠ .held ∧ role f ≠ .other := by
  rcases owned.cases counted known with ⟨is, -⟩ | ⟨i, is⟩ | ⟨is, -⟩ <;> simp [is]

/-- A frame belongs to one address space. -/
theorem OwnedBy.unique (counted : Counted s userSlots dirs role) (alone : Private userSlots dirs s)
    (known : d ∈ dirs) (known' : d' ∈ dirs) (owned : OwnedBy userSlots dirs s role d f)
    (owned' : OwnedBy userSlots dirs s role d' f) : d = d' := by
  rcases owned.cases counted known with ⟨is, same⟩ | ⟨i, is⟩ | ⟨is, n, key, mapped⟩ <;>
    rcases owned'.cases counted known' with ⟨is', same'⟩ | ⟨i', is'⟩ | ⟨is', n', key', mapped'⟩ <;>
    simp only [is, reduceCtorEq, Role.table.injEq] at is'
  · exact same.symm.trans same'
  · exact is'.1
  · exact (Prod.mk.inj (alone _ key _ key' f mapped mapped')).1

/-! ## The invariant -/

/-- The address spaces keep to their regions, the ledger says what belongs to
whom, and everything in the pool is accounted for. -/
structure Tended (pool : Finset ℕ) (r : Spaces) (dirs : Finset ℕ) (role : ℕ → Role) : Prop where
  counted : Counted r.kernel userSlots dirs role
  normal : r.kernel.checkMm = none
  alone : Private userSlots dirs r.kernel
  clean : Clean userSlots dirs r.kernel
  directory : ∀ d, d ∈ dirs ↔ ∃ mm ∈ r.live, (r.kernel.mms mm).pgdir = d
  distinct : ∀ m ∈ r.live, ∀ m' ∈ r.live,
    (r.kernel.mms m).pgdir = (r.kernel.mms m').pgdir → m = m'
  boot : role r.kernel.bootPgdir = .other ∧ ∀ i ∈ userSlots, ¬ Present
    (r.kernel.mem r.kernel.bootPgdir i)
  fits : ∀ mm ∈ r.live, Fits dirs r.kernel (r.kernel.mms mm)
  space : ∀ f mm, r.owner f = some (.space mm) ↔
    mm ∈ r.live ∧ OwnedBy userSlots dirs r.kernel role (r.kernel.mms mm).pgdir f
  kernel : ∀ f, r.owner f = some .kernel ↔ role f = .held
  pool : ∀ f, f ∈ pool ↔ role f ≠ .other

variable {r : Spaces}

theorem Booted.tended (booted : Booted pool s) :
    Tended pool ⟨s, ∅, fun _ => none⟩ ∅ (startRole ∅ pool) := by
  have none : ∀ x, x ∉ keys userSlots ∅ := by
    rintro ⟨d, n⟩ key
    exact absurd (mem_keys.mp key).1 (Finset.notMem_empty d)
  refine ⟨booted.start.sound.counted, booted.start.normal, fun x key => absurd key (none x),
    fun x key => absurd key (none x), by simp, by simp, ⟨?_, booted.bare⟩, by simp, by simp, ?_, ?_⟩
  · simp [startRole, booted.boot]
  all_goals
    intro f
    unfold startRole
    split_ifs <;> simp_all

theorem Tended.pgdir_mem (tended : Tended pool r dirs role) (live : mm ∈ r.live) :
    (r.kernel.mms mm).pgdir ∈ dirs :=
  (tended.directory _).mpr ⟨mm, live, rfl⟩

/-- The frame is in the hands of the owner. -/
def Holds (live dirs : Finset ℕ) (s : Kernel) (role : ℕ → Role) (f : ℕ) : Owner → Prop
  | .kernel => role f = .held
  | .space m => m ∈ live ∧ OwnedBy userSlots dirs s role (s.mms m).pgdir f

theorem Tended.holds {o : Owner} (tended : Tended pool r dirs role) :
    r.owner f = some o ↔ Holds r.live dirs r.kernel role f o := by
  cases o with
  | kernel => exact tended.kernel f
  | space m => exact tended.space f m

/-- The invariant after a call: what the call took is in the hands of the one it was
made for, and every other frame in use in the hands it was in. -/
theorem Tended.next {who : Owner} {live' dirs' : Finset ℕ} (tended : Tended pool r dirs role)
    (counted : Counted s' userSlots dirs' role') (check : s'.checkMm = r.kernel.checkMm)
    (alone : Private userSlots dirs' s') (clean : Clean userSlots dirs' s')
    (directory : ∀ d, d ∈ dirs' ↔ ∃ m ∈ live', (s'.mms m).pgdir = d)
    (distinct : ∀ m ∈ live', ∀ m' ∈ live', (s'.mms m).pgdir = (s'.mms m').pgdir → m = m')
    (boot : s'.bootPgdir = r.kernel.bootPgdir)
    (bootMem : s'.mem r.kernel.bootPgdir = r.kernel.mem r.kernel.bootPgdir)
    (fits : ∀ m ∈ live', Fits dirs' s' (s'.mms m))
    (others : ∀ f, role' f = .other ↔ role f = .other)
    (taken : ∀ f, role f = .free → role' f ≠ .free → Holds live' dirs' s' role' f who)
    (kept : ∀ f o, role f ≠ .free → role' f ≠ .free →
      (Holds live' dirs' s' role' f o ↔ Holds r.live dirs r.kernel role f o)) :
    Tended pool { r.after who s' with live := live' } dirs' role' := by
  have known : ∀ m ∈ live', (s'.mms m).pgdir ∈ dirs' := fun m live => (directory _).mpr ⟨m, live, rfl⟩
  have used : ∀ f o, Holds live' dirs' s' role' f o → role' f ≠ .free := by
    intro f o holds
    cases o with
    | kernel => simp [show role' f = .held from holds]
    | space m => exact (holds.2.used counted (known m holds.1)).1
  have unique : ∀ f o o', Holds live' dirs' s' role' f o → Holds live' dirs' s' role' f o' → o = o' :=
    by
    intro f o o' holds holds'
    cases o with
    | kernel =>
      cases o' with
      | kernel => rfl
      | space m' => exact absurd holds (holds'.2.used counted (known m' holds'.1)).2.1
    | space m =>
      cases o' with
      | kernel => exact absurd holds' (holds.2.used counted (known m holds.1)).2.1
      | space m' =>
        rw [distinct m holds.1 m' holds'.1
          (holds.2.unique counted alone (known m holds.1) (known m' holds'.1) holds'.2)]
  have ledger : ∀ f o, charge who r.kernel s' r.owner f = some o ↔ Holds live' dirs' s' role' f o := by
    intro f o
    simp only [charge, counted.tables.free f, tended.counted.tables.free f]
    by_cases after : role' f = .free
    · rw [if_pos after]
      exact iff_of_false (by simp) fun holds => used f o holds after
    · rw [if_neg after]
      split_ifs with before
      · have mine := taken f before after
        exact ⟨fun same => some.inj same ▸ mine, fun holds => congrArg some (unique f _ _ mine holds)⟩
      · rw [kept f o before after]
        exact tended.holds
  refine ⟨counted, check.trans tended.normal, alone, clean, directory, distinct, ?_, fits,
    fun f m => ledger f (.space m), fun f => ledger f .kernel, fun f => ?_⟩
  · simp only [Spaces.after, boot, bootMem]
    exact ⟨(others _).mpr tended.boot.1, tended.boot.2⟩
  · rw [tended.pool f, ne_eq, ne_eq, others f]

/-- An address space fits its regions as long as its directory and tables stay. -/
theorem Fits.congr (fits : Fits dirs s m) (entries : ∀ n, (m.pgdir, n) ∈ keys userSlots dirs' →
      (m.pgdir, n) ∈ keys userSlots dirs ∧ pteOf s' m.pgdir n = pteOf s m.pgdir n)
    (mem : s'.mem m.pgdir = s.mem m.pgdir) : Fits dirs' s' m := by
  refine ⟨fits.ok, fun n key there => ?_, fun i slot there => fits.tables i slot (mem ▸ there)⟩
  obtain ⟨key, same⟩ := entries n key
  exact fits.pages n key (same ▸ there)

/-- What a call does to the roles and to who owns what, in terms of the frames the
call may use. -/
theorem Worked.owners (worked : Worked userSlots dirs d area s role ∅ s' role' ∅)
      (counted : Counted s userSlots dirs role)
    (alone : Private userSlots dirs s) (known : d ∈ dirs) (known' : d' ∈ dirs) (other : d' ≠ d) :
    OwnedBy userSlots dirs s' role' d' f ↔ OwnedBy userSlots dirs s role d' f := by
  -- what is free or belongs to `d` is not of `d'`
  have apart : ∀ {s role}, Counted s userSlots dirs role → Private userSlots dirs s →
      Domain userSlots dirs s role d ∅ f → ¬ OwnedBy userSlots dirs s role d' f := by
    rintro s role counted alone (free | owned' | none) owned
    · exact (owned.used counted known').1 free
    · exact other (owned.unique counted alone known' known owned')
    · exact none
  by_cases inside : Domain userSlots dirs s role d ∅ f
  · exact iff_of_false (apart worked.counted (worked.alone alone) ((worked.domain f).mpr inside))
      (apart counted alone inside)
  · have same := (worked.fixed f inside).1
    exact OwnedBy.congr (fun n key => worked.view_eq key fun inside => other inside.1)
      fun i => by rw [same]

/-- Frames that work for an address space uses are neither held by others nor
outside of the pool. -/
theorem Domain.used (counted : Counted s userSlots dirs role) (known : d ∈ dirs)
    (inside : Domain userSlots dirs s role d ∅ f) : role f ≠ .held ∧ role f ≠ .other := by
  rcases inside with free | owned | none
  · simp [free]
  · exact (owned.used counted known).2
  · exact absurd none (Set.notMem_empty f)

section

variable (worked : Worked userSlots dirs d area s role ∅ s' role' ∅)
  (counted : Counted s userSlots dirs role) (known : d ∈ dirs)
include worked counted known

theorem Worked.role_iff {r : Role} (kind : r = .held ∨ r = .other) : role' f = r ↔ role f = r := by
  by_cases inside : Domain userSlots dirs s role d ∅ f
  · have before := inside.used counted known
    have after := ((worked.domain f).mpr inside).used worked.counted known
    rcases kind with rfl | rfl
    · exact iff_of_false after.1 before.1
    · exact iff_of_false after.2 before.2
  · rw [(worked.fixed f inside).1]

/-- Work for one directory leaves the others alone. -/
theorem Worked.other_dir (alone : Private userSlots dirs s)
    (known' : d' ∈ dirs) (other : d' ≠ d) : s'.mem d' = s.mem d' := by
  refine (worked.fixed d' ?_).2
  have self : OwnedBy userSlots dirs s role d' d' := .inl rfl
  rintro (free | owned | none)
  · exact (self.used counted known').1 free
  · exact other (self.unique counted alone known' known owned)
  · exact none

end

theorem Built.fits (built : Built dirs mm s role s' role') (fits : Fits dirs s (s.mms mm)) :
    Fits dirs s' (s'.mms mm) := by
  have wider := regionPages_mono built.more
  refine ⟨built.ok, fun n key there => ?_, fun i slot there => ?_⟩
  · rw [built.pgdir] at key there
    by_cases inside : n ∈ regionPages (s'.mms mm).mmap
    · exact inside
    · have entry := built.worked.entries _ key fun both => inside both.2
      exact wider (fits.pages n key (entry ▸ there))
  · rw [built.pgdir] at there
    rcases built.worked.slot i with same | inside
    · obtain ⟨n, page, slot⟩ := fits.tables i slot (same ▸ there)
      exact ⟨n, wider page, slot⟩
    · exact inside

section

variable (tended : Tended pool r dirs role)

include tended

/-- A call for one address space keeps the invariant. -/
theorem Tended.built (live : mm ∈ r.live) (built : Built dirs mm r.kernel role s' role') :
    Tended pool (r.after (.space mm) s') dirs role' := by
  have known := tended.pgdir_mem live
  have worked := built.worked
  have pgdirs : ∀ m, (s'.mms m).pgdir = (r.kernel.mms m).pgdir := by
    intro m
    by_cases same : m = mm
    · rw [same, built.pgdir]
    · rw [built.others m same]
  have bootPgdir : s'.bootPgdir = r.kernel.bootPgdir := by
    have rest := congrArg Kernel.bootPgdir worked.rest
    exact rest
  have apart : ∀ m ∈ r.live, m ≠ mm → (r.kernel.mms m).pgdir ≠ (r.kernel.mms mm).pgdir :=
    fun m live' other same => other (tended.distinct m live' mm live same)
  refine tended.next built.counted built.checkMm (worked.alone tended.alone)
    (worked.clean tended.clean) ?_ ?_ bootPgdir ?_ ?_ ?_ ?_ ?_
  · simp only [pgdirs]
    exact tended.directory
  · simp only [pgdirs]
    exact tended.distinct
  · exact (worked.fixed _ fun inside => (inside.used tended.counted known).2 tended.boot.1).2
  · intro m live'
    by_cases same : m = mm
    · subst same
      exact built.fits (tended.fits m live)
    · have mem := worked.other_dir tended.counted known tended.alone (tended.pgdir_mem live')
        (apart m live' same)
      rw [built.others m same]
      exact (tended.fits m live').congr (fun n key =>
        ⟨key, worked.entries _ key fun inside => apart m live' same inside.1⟩) mem
  · exact fun f => worked.role_iff tended.counted known (.inr rfl)
  · intro f before after
    rcases (worked.domain f).mpr (.inl before) with free | owned | none
    · exact absurd free after
    · exact ⟨live, by rwa [pgdirs]⟩
    · exact absurd none (Set.notMem_empty f)
  · intro f o before after
    cases o with
    | kernel => exact worked.role_iff tended.counted known (.inl rfl)
    | space m =>
      rw [Holds, Holds, pgdirs]
      refine and_congr_right fun live' => ?_
      by_cases same : m = mm
      · have domain := worked.domain f
        simp only [Domain, before, after, false_or, Set.mem_empty_iff_false, or_false] at domain
        rw [same]
        exact domain
      · exact worked.owners tended.counted tended.alone known (tended.pgdir_mem live')
          (apart m live' same)

/-! ## The other calls -/

theorem Tended.owner_free (free : role f = .free) :
    r.owner f = none := by
  cases owner : r.owner f with
  | none => rfl
  | some o =>
    cases o with
    | kernel =>
      rw [(tended.kernel f).mp owner] at free
      cases free
    | space m =>
      obtain ⟨live, owned⟩ := (tended.space f m).mp owner
      exact absurd free (owned.used tended.counted (tended.pgdir_mem live)).1

/-- A call that neither takes nor frees a frame leaves the ledger as it is. -/
theorem Tended.after_eq {who : Owner}
    (free : s'.free = r.kernel.free) : r.after who s' = { r with kernel := s' } := by
  have same : charge who r.kernel s' r.owner = r.owner := by
    funext f
    unfold charge
    rw [free]
    by_cases member : f ∈ r.kernel.free
    · rw [if_pos member, tended.owner_free ((tended.counted.tables.free f).mp member)]
    · rw [if_neg member, if_neg member]
  rw [Spaces.after, same]

/-- The kernel changes outside of all address spaces; frames may pass between the
pool and the rest of the kernel. -/
theorem Tended.outside (counted : Counted s' userSlots dirs role')
    (mem : s'.mem = r.kernel.mem) (boot : s'.bootPgdir = r.kernel.bootPgdir)
    (check : s'.checkMm = r.kernel.checkMm) (mms : ∀ m ∈ r.live, s'.mms m = r.kernel.mms m)
    (roles : ∀ f, role' f = role f ∨
      (role f = .free ∨ role f = .held) ∧ (role' f = .free ∨ role' f = .held)) :
    Tended pool (r.after .kernel s') dirs role' := by
  have entries : ∀ d n, pteOf s' d n = pteOf r.kernel d n := fun d n => by simp only [pteOf, mem]
  have views : ∀ x, view s' x = view r.kernel x := fun x => view_congr (entries x.1 x.2)
  refine tended.next counted check (tended.alone.congr fun x _ => views x)
    (tended.clean.congr fun x _ => entries x.1 x.2) ?_ ?_ boot (by rw [mem]) ?_ ?_ ?_ ?_
  · intro d
    rw [tended.directory d]
    exact exists_congr fun m => and_congr_right fun live => by rw [mms m live]
  · intro m live m' live' same
    exact tended.distinct m live m' live' (by rwa [← mms m live, ← mms m' live'])
  · intro m live
    rw [mms m live]
    exact (tended.fits m live).congr (fun n key => ⟨key, entries _ n⟩) (by rw [mem])
  · intro f
    obtain same | ⟨was | was, is | is⟩ := roles f <;> simp [*]
  · intro f before after
    rcases roles f with same | ⟨-, free | held⟩
    · exact absurd (same.trans before) after
    · exact absurd free after
    · exact held
  · intro f o before after
    have same : role' f = role f := by
      rcases roles f with same | ⟨was, is⟩
      · exact same
      · rw [was.resolve_left before, is.resolve_left after]
    cases o with
    | kernel => rw [Holds, Holds, same]
    | space m =>
      refine and_congr_right fun live => ?_
      rw [mms m live]
      exact OwnedBy.congr (fun n _ => views _) fun i => by rw [same]

end

/-- A frame passes between the pool and the rest of the kernel. -/
theorem pass_role {was is : Role} (before : role f = was)
    (kinds : (was = .free ∨ was = .held) ∧ (is = .free ∨ is = .held)) (g : ℕ) :
    update role f is g = role g ∨ (role g = .free ∨ role g = .held) ∧
      (update role f is g = .free ∨ update role f is g = .held) := by
  by_cases same : g = f
  · subst same before
    exact .inr (by rwa [update_self])
  · exact .inl (update_of_ne same _ _)

/-- The rest of the kernel takes a frame. -/
theorem Tended.allocPage {page : Option ℕ} (tended : Tended pool r dirs role)
    (ran : Paging.allocPage policy r.kernel = some (s', page)) :
    ∃ role', Tended pool (r.after .kernel s') dirs role' := by
  rcases allocPage_cases policy tended.normal with ⟨f, member, took⟩ | ⟨-, nothing⟩
  · rw [took] at ran
    cases ran
    exact ⟨update role f .held, tended.outside (tended.counted.take member) rfl rfl rfl
      (fun _ _ => rfl) (pass_role ((tended.counted.tables.free f).mp member) (by simp))⟩
  · rw [nothing] at ran
    split_ifs at ran
    cases ran
    exact ⟨role, tended.outside tended.counted rfl rfl rfl (fun _ _ => rfl) fun _ => .inl rfl⟩

/-- The rest of the kernel gives a frame back. -/
theorem Tended.freePage (tended : Tended pool r dirs role) (mine : r.owner f = some .kernel)
    (ran : Paging.freePage r.kernel f = some s') :
    ∃ role', Tended pool (r.after .kernel s') dirs role' := by
  have held := (tended.kernel f).mp mine
  obtain ⟨s₁, gave, counted, rest⟩ := tended.counted.give_back held
  rw [gave] at ran
  cases ran
  refine ⟨update role f .free, tended.outside counted ?_ ?_ ?_ ?_ (pass_role held (by simp))⟩
  all_goals rw [rest]
  exact fun _ _ => rfl

/-! ## Teardown -/

theorem OwnedBy.dirs_congr (known : d ∈ dirs ↔ d ∈ dirs') :
    OwnedBy userSlots dirs s role d f ↔ OwnedBy userSlots dirs' s role d f := by
  simp only [OwnedBy, mem_keys, known]

/-- The frames of the address space are free, and the others are as they were. -/
structure TornDown (dirs : Finset ℕ) (mm : ℕ) (s : Kernel) (role : ℕ → Role) (s' : Kernel)
    (role' : ℕ → Role) : Prop where
  counted : Counted s' userSlots (dirs.erase (s.mms mm).pgdir) role'
  freed : ∀ f, role' f = .free ↔ role f = .free ∨ OwnedBy userSlots dirs s role (s.mms mm).pgdir f
  kept : ∀ f, role' f ≠ .free → role' f = role f ∧ s'.mem f = s.mem f
  entries : ∀ x ∈ keys userSlots dirs, x.1 ≠ (s.mms mm).pgdir → pteOf s' x.1 x.2 = pteOf s x.1 x.2
  rest : s' = { s with mem := s'.mem, ref := s'.ref, free := s'.free }

/-- Without entries a directory owns nothing but itself. -/
theorem OwnedBy.of_bare (counted : Counted s userSlots dirs role)
    (bare : ∀ i ∈ userSlots, ¬ Present (s.mem d i)) :
    OwnedBy userSlots dirs s role d f ↔ f = d := by
  constructor
  · rintro (same | ⟨i, table⟩ | ⟨n, key, mapped⟩)
    · exact same
    · obtain ⟨-, slot, word⟩ := counted.tables.table f d i table
      refine absurd ?_ (bare i slot)
      rw [word]
      exact present_pdeWord
    · exact absurd (present_of_view mapped) (bare_vacant bare n key)
  · exact .inl

/-- Tearing an address space down comes back and frees what belongs to it. -/
theorem teardown_spec (counted : Counted s userSlots dirs role) (known : (s.mms mm).pgdir ∈ dirs)
    (alone : Private userSlots dirs s) (fits : Fits dirs s (s.mms mm))
    (unused : (s.mms mm).mmCount = 0) :
    ∃ s' role', teardown s mm = some s' ∧ TornDown dirs mm s role s' role' := by
  obtain ⟨s₁, role₁, ran₁, worked, bare⟩ := exitMmap_spec counted known alone fits unused
  obtain ⟨s', ran, is, counted'⟩ := worked.counted.dismiss bare known
  have mms : s₁.mms = s.mms := by rw [worked.rest]
  have domain : ∀ f, update role₁ (s.mms mm).pgdir .free f = .free ↔
      Domain userSlots dirs s role (s.mms mm).pgdir ∅ f := by
    intro f
    rw [← worked.domain f, Domain, OwnedBy.of_bare worked.counted bare]
    by_cases same : f = (s.mms mm).pgdir
    · simp [same]
    · simp [same]
  refine ⟨s', update role₁ (s.mms mm).pgdir .free, ?_, counted', ?_, ?_, ?_, ?_⟩
  · rw [teardown, ran₁, bind_eq_bind, bind_some, putPgdir, mms, ran]
  · intro f
    rw [domain f, Domain]
    simp
  · intro f used
    obtain ⟨same, mem⟩ := worked.fixed f (mt (domain f).mpr used)
    have apart : f ≠ (s.mms mm).pgdir := by
      rintro rfl
      exact used (by simp)
    rw [update_of_ne apart, is]
    exact ⟨same, mem⟩
  · intro x key other
    rw [is]
    exact worked.entries x key fun inside => other inside.1
  · rw [is, worked.rest]

theorem TornDown.tended (torn : TornDown dirs mm r.kernel role s' role')
    (tended : Tended pool r dirs role) (live : mm ∈ r.live) :
    Tended pool { r.after (.space mm) s' with live := r.live.erase mm }
      (dirs.erase (r.kernel.mms mm).pgdir) role' := by
  have mms : s'.mms = r.kernel.mms := by rw [torn.rest]
  have boot : s'.bootPgdir = r.kernel.bootPgdir := by rw [torn.rest]
  have subset : keys userSlots (dirs.erase (r.kernel.mms mm).pgdir) ⊆ keys userSlots dirs :=
    keys_mono (Finset.erase_subset _ dirs)
  have entries : ∀ x ∈ keys userSlots (dirs.erase (r.kernel.mms mm).pgdir),
      pteOf s' x.1 x.2 = pteOf r.kernel x.1 x.2 := fun x key =>
    torn.entries x (subset key) (Finset.ne_of_mem_erase (mem_keys.mp key).1)
  have views : ∀ x ∈ keys userSlots (dirs.erase (r.kernel.mms mm).pgdir),
      view s' x = view r.kernel x := fun x key => view_congr (entries x key)
  have apart : ∀ m ∈ r.live, m ≠ mm → (r.kernel.mms m).pgdir ≠ (r.kernel.mms mm).pgdir :=
    fun m live' other same => other (tended.distinct m live' mm live same)
  have member : ∀ m ∈ r.live, m ≠ mm → (r.kernel.mms m).pgdir ∈ dirs.erase (r.kernel.mms mm).pgdir :=
    fun m live' other => Finset.mem_erase.mpr ⟨apart m live' other, tended.pgdir_mem live'⟩
  -- another address space has what it had
  have owners : ∀ m ∈ r.live, m ≠ mm → ∀ f,
      (OwnedBy userSlots (dirs.erase (r.kernel.mms mm).pgdir) s' role' (r.kernel.mms m).pgdir f ↔
        OwnedBy userSlots dirs r.kernel role (r.kernel.mms m).pgdir f) := by
    intro m live' other f
    have known := member m live' other
    by_cases free : role' f = .free
    · refine iff_of_false (fun owned => (owned.used torn.counted known).1 free) fun owned => ?_
      rcases (torn.freed f).mp free with was | mine
      · exact (owned.used tended.counted (tended.pgdir_mem live')).1 was
      · exact apart m live' other (owned.unique tended.counted tended.alone
          (tended.pgdir_mem live') (tended.pgdir_mem live) mine)
    · rw [OwnedBy.dirs_congr (iff_of_true (tended.pgdir_mem live') known)]
      exact OwnedBy.congr (fun n key => views _ key) fun i => by rw [(torn.kept f free).1]
  have stays : ∀ f, role f = .other → role' f ≠ .free := by
    intro f is free
    rcases (torn.freed f).mp free with was | owned
    · rw [is] at was
      cases was
    · exact (owned.used tended.counted (tended.pgdir_mem live)).2.2 is
  refine tended.next torn.counted (by rw [torn.rest]) ?_ ?_ ?_ ?_ boot
    (torn.kept _ (stays _ tended.boot.1)).2 ?_ ?_ ?_ ?_
  · exact Private.congr (fun x key y key' => tended.alone x (subset key) y (subset key')) views
  · exact Clean.congr (fun x key => tended.clean x (subset key)) entries
  · intro d
    simp only [mms, Finset.mem_erase, tended.directory d]
    constructor
    · rintro ⟨other, m, live', rfl⟩
      exact ⟨m, ⟨fun same => other (same ▸ rfl), live'⟩, rfl⟩
    · rintro ⟨m, ⟨other, live'⟩, rfl⟩
      exact ⟨apart m live' other, m, live', rfl⟩
  · intro m live' m'' live''
    simp only [mms]
    exact tended.distinct m (Finset.mem_of_mem_erase live') m'' (Finset.mem_of_mem_erase live'')
  · intro m live'
    obtain ⟨other, live'⟩ := Finset.mem_erase.mp live'
    have is := (torn.counted.tables.directory _).mp (member m live' other)
    rw [mms]
    exact (tended.fits m live').congr (fun n key => ⟨subset key, entries _ key⟩)
      (torn.kept _ (by simp [is])).2
  · intro f
    by_cases free : role' f = .free
    · exact iff_of_false (by simp [free]) fun is => stays f is free
    · rw [(torn.kept f free).1]
  · exact fun f before after => absurd ((torn.freed f).mpr (.inl before)) after
  · intro f o before after
    cases o with
    | kernel => rw [Holds, Holds, (torn.kept f after).1]
    | space m =>
      simp only [Holds, mms, Finset.mem_erase]
      constructor
      · rintro ⟨⟨other, live'⟩, owned⟩
        exact ⟨live', (owners m live' other f).mp owned⟩
      · rintro ⟨live', owned⟩
        have other : m ≠ mm := by
          rintro rfl
          exact after ((torn.freed f).mpr (.inr owned))
        exact ⟨⟨other, live'⟩, (owners m live' other f).mpr owned⟩

/-! ## Creation -/

theorem fill_poke {i w : ℕ} :
    (s.fill f words).poke f i w = s.fill f (update words i w) := by
  simp [Kernel.fill, Kernel.poke]

/-- The self mapping of a directory is not among the user slots. -/
theorem vpt_kernel : pdx vpt ∉ userSlots := by decide +kernel

section

variable (tended : Tended pool r dirs role)

include tended

/-- A free frame becomes the directory of a new address space. -/
theorem Tended.enroll
    (new : mm ∉ r.live) (member : f ∈ r.kernel.free) (bare : ∀ i ∈ userSlots, ¬ Present (words i))
    (mmap : m.mmap = []) (cache : m.mmapCache = none) (pgdir : m.pgdir = f) :
    let s' := (({ r.kernel with free := r.kernel.free.erase f } : Kernel).fill f words).setMm mm m
    Tended pool { r.after (.space mm) s' with live := insert mm r.live } (insert f dirs)
      (update role f .directory) := by
  intro s'
  have was := (tended.counted.tables.free f).mp member
  have unknown : f ∉ dirs := by
    rw [tended.counted.tables.directory f, was]
    simp
  obtain ⟨counted, entries⟩ := (tended.counted.take member).enroll (update_self ..) bare
  rw [update_idem] at counted
  have self : s'.mms mm = m := update_self _ _ _
  have others : ∀ m' ∈ r.live, s'.mms m' = r.kernel.mms m' := by
    intro m' live
    refine update_of_ne ?_ _ _
    rintro rfl
    exact new live
  have apart : ∀ m' ∈ r.live, (r.kernel.mms m').pgdir ≠ f :=
    fun m' live same => unknown (same ▸ tended.pgdir_mem live)
  have subset : keys userSlots dirs ⊆ keys userSlots (insert f dirs) :=
    keys_mono (Finset.subset_insert f dirs)
  have mem : ∀ g, g ≠ f → s'.mem g = r.kernel.mem g := fun g other => Kernel.fill_mem_other other
  have old : ∀ x ∈ keys userSlots dirs, pteOf s' x.1 x.2 = pteOf r.kernel x.1 x.2 := by
    intro x key
    rcases entries x (subset key) with ⟨-, same⟩ | ⟨self, -⟩
    · exact same
    · exact absurd (self ▸ (mem_keys.mp key).1) unknown
  have present : ∀ x ∈ keys userSlots (insert f dirs), pteOf s' x.1 x.2 = 0 ∨ x ∈ keys userSlots dirs :=
    fun x key => (entries x key).elim (fun there => .inr there.1) fun new => .inl new.2
  have views : ∀ x ∈ keys userSlots (insert f dirs), ∀ g, view s' x = some g →
      x ∈ keys userSlots dirs ∧ view r.kernel x = some g := by
    intro x key g mapped
    rcases present x key with zero | there
    · rw [view, zero, if_neg (by decide)] at mapped
      cases mapped
    · exact ⟨there, view_congr (old x there) ▸ mapped⟩
  have owners : ∀ m' ∈ r.live, ∀ g,
      (OwnedBy userSlots (insert f dirs) s' (update role f .directory)
        (r.kernel.mms m').pgdir g ↔ OwnedBy userSlots dirs r.kernel role (r.kernel.mms m').pgdir g) :=
          by
    intro m' live g
    rw [← OwnedBy.dirs_congr (iff_of_true (tended.pgdir_mem live)
      (Finset.mem_insert_of_mem (tended.pgdir_mem live)))]
    refine OwnedBy.congr (fun n key => view_congr (old _ key)) fun i => ?_
    by_cases same : g = f
    · rw [same, was, update_self]
      simp
    · rw [update_of_ne same]
  have bare' : ∀ i ∈ userSlots, ¬ Present (s'.mem f i) := by
    rw [show s'.mem f = words from Kernel.fill_mem_self]
    exact bare
  have counted' : Counted s' userSlots (insert f dirs) (update role f .directory) :=
    counted.congr rfl rfl rfl fun _ _ => rfl
  have mine : ∀ g, OwnedBy userSlots (insert f dirs) s' (update role f .directory) f g ↔ g = f :=
    fun g => OwnedBy.of_bare counted' bare'
  refine tended.next counted' rfl ?_ ?_ ?_ ?_ rfl (mem _ ?_) ?_ ?_ ?_ ?_
  · intro x key y key' g here there
    obtain ⟨left, here⟩ := views x key g here
    obtain ⟨right, there⟩ := views y key' g there
    exact tended.alone x left y right g here there
  · intro x key
    rcases present x key with zero | there
    · exact .inl zero
    · rw [old x there]
      exact tended.clean x there
  · intro d
    simp only [Finset.mem_insert, exists_eq_or_imp, self, pgdir, tended.directory d]
    refine or_congr eq_comm (exists_congr fun m' => and_congr_right fun live => ?_)
    rw [others m' live]
  · intro m' live m'' live' same
    rcases Finset.mem_insert.mp live with rfl | had
    · rcases Finset.mem_insert.mp live' with rfl | had'
      · rfl
      · rw [self, pgdir, others m'' had'] at same
        exact absurd same.symm (apart m'' had')
    · rw [others m' had] at same
      rcases Finset.mem_insert.mp live' with rfl | had'
      · rw [self, pgdir] at same
        exact absurd same (apart m' had)
      · rw [others m'' had'] at same
        exact tended.distinct m' had m'' had' same
  · intro same
    have isOther := tended.boot.1
    rw [same, was] at isOther
    cases isOther
  · intro m' live
    rcases Finset.mem_insert.mp live with rfl | live
    · rw [self]
      refine ⟨⟨by simp [mmap], by simp [mmap, Sorted], by simp [cache]⟩, ?_, ?_⟩
      · intro n key there
        rw [pgdir] at key there
        exact absurd there (bare_vacant bare' n key)
      · intro i slot there
        rw [pgdir] at there
        exact absurd there (bare' i slot)
    · rw [others m' live]
      refine (tended.fits m' live).congr (fun n key => ?_) (mem _ (apart m' live))
      have key' : ((r.kernel.mms m').pgdir, n) ∈ keys userSlots dirs :=
        mem_keys.mpr ⟨tended.pgdir_mem live, (mem_keys.mp key).2⟩
      exact ⟨key', old _ key'⟩
  · intro g
    by_cases same : g = f
    · simp [same, was]
    · rw [update_of_ne same]
  · intro g before after
    obtain rfl : g = f := by
      by_contra other
      exact after ((update_of_ne other _ _).trans before)
    exact ⟨Finset.mem_insert_self mm r.live, by rw [self, pgdir]; exact (mine g).mpr rfl⟩
  · intro g o before after
    have other : g ≠ f := fun same => before (same ▸ was)
    cases o with
    | kernel => rw [Holds, Holds, update_of_ne other]
    | space m' =>
      simp only [Holds, Finset.mem_insert]
      constructor
      · rintro ⟨rfl | live, owned⟩
        · rw [self, pgdir] at owned
          exact absurd ((mine g).mp owned) other
        · rw [others m' live, owners m' live g] at owned
          exact ⟨live, owned⟩
      · rintro ⟨live, owned⟩
        rw [others m' live, owners m' live g]
        exact ⟨.inr live, owned⟩

theorem Tended.create (new : mm ∉ r.live) {ret : ℤ}
    (ran : setupPgdir policy (mmCreate r.kernel mm) mm = some (s', ret)) :
    ∃ dirs' role', Tended pool
      (if ret = 0 then { r.after (.space mm) s' with live := insert mm r.live }
        else r.after (.space mm) s') dirs' role' := by
  set s₀ := mmCreate r.kernel mm with created
  have fields : s₀.mem = r.kernel.mem ∧ s₀.free = r.kernel.free ∧ s₀.ref = r.kernel.ref ∧
      s₀.npage = r.kernel.npage ∧ s₀.bootPgdir = r.kernel.bootPgdir ∧
      s₀.checkMm = r.kernel.checkMm := by
    simp only [created, mmCreate, swapInitMm]
    split_ifs <;> exact ⟨rfl, rfl, rfl, rfl, rfl, rfl⟩
  obtain ⟨mem, free, ref, npage, boot, check⟩ := fields
  have others : ∀ m ∈ r.live, s₀.mms m = r.kernel.mms m := by
    intro m live
    have other : m ≠ mm := by
      rintro rfl
      exact new live
    simp only [created, mmCreate, swapInitMm]
    split_ifs <;> exact update_of_ne other _ _
  have empty : (s₀.mms mm).mmap = [] ∧ (s₀.mms mm).mmapCache = none := by
    simp [created, mmCreate, Kernel.setMm]
  have tended₀ : Tended pool (r.after .kernel s₀) dirs role :=
    tended.outside (tended.counted.congr npage free ref fun _ _ => by rw [mem]) mem boot check others
      fun _ => .inl rfl
  rw [tended.after_eq free] at tended₀
  have ledger : ∀ t : Kernel, charge (.space mm) s₀ t r.owner = charge
    (.space mm) r.kernel t r.owner := by
    intro t
    funext f
    rw [charge, charge, free]
  rcases allocPage_cases policy tended₀.normal with ⟨f, member, took⟩ | ⟨-, nothing⟩
  · simp only [setupPgdir, took, bind_eq_bind, bind_some] at ran
    cases ran
    refine ⟨insert f dirs, update role f .directory, ?_⟩
    rw [fill_poke]
    have bare : ∀ i ∈ userSlots, ¬ Present (update (s₀.mem s₀.bootPgdir) (pdx vpt)
        (page2pa f ||| pteP ||| pteW) i) := by
      intro i slot
      have other : i ≠ pdx vpt := by
        rintro rfl
        exact vpt_kernel slot
      rw [update_of_ne other]
      exact tended₀.boot.2 i slot
    have done := tended₀.enroll (m := { s₀.mms mm with pgdir := f }) new member bare empty.1 empty.2 rfl
    simp only [Spaces.after, ledger] at done
    exact done
  · rw [setupPgdir, nothing] at ran
    split_ifs at ran
    · cases ran
    · cases ran
      rw [if_neg (by decide), tended.after_eq free]
      exact ⟨dirs, role, tended₀⟩

/-! ## Runs -/

theorem Tended.store {la w : ℕ} (live : mm ∈ r.live)
    (user : la < userTop) (ran : Paging.store r.kernel mm la w = some s') :
    ∃ role', Tended pool (r.after (.space mm) s') dirs role' := by
  have known := tended.pgdir_mem live
  have address : la < 2 ^ 32 := user.trans (by decide)
  have slot : pdx la ∈ userSlots := userSlots_user.pdx_mem user
  have key := page_key known address slot
  have fits := tended.fits mm live
  have nothing : Built dirs mm r.kernel role r.kernel role :=
    Built.work fits.ok (Worked.refl tended.counted (by simp))
  rw [Paging.store, tended.counted.tables.getPage_eq known address slot, bind_eq_bind,
    bind_some] at ran
  cases mapped : view r.kernel ((r.kernel.mms mm).pgdir, la / pgSize) with
  | none =>
    rw [mapped] at ran
    cases ran
    exact ⟨role, tended.built live nothing⟩
  | some f =>
    rw [mapped] at ran
    cases ran
    refine ⟨role, tended.built live (Built.work fits.ok (Worked.store tended.counted known key mapped
      (fun y key' there => tended.alone _ key' _ key f there mapped) ?_ (by simp)))⟩
    exact fits.pages _ key (present_of_view mapped)

/-- Every call keeps the invariant. -/
theorem Tended.call {call : SpaceCall} {r' : Spaces}
    (allowed : call.Allowed r) (ran : call.run policy r = some r') :
    ∃ dirs' role', Tended pool r' dirs' role' := by
  cases call
  all_goals simp only [SpaceCall.run, bind_eq_bind, bind_eq_some_iff] at ran
  case create mm =>
    obtain ⟨⟨s', ret⟩, created, ran⟩ := ran
    have done := tended.create allowed created
    split_ifs at ran done <;> (cases ran; exact done)
  case mmMap mm addr len vmFlags kmalloc =>
    obtain ⟨⟨s', ret⟩, mapped, ran⟩ := ran
    cases ran
    exact ⟨dirs, role, tended.built allowed
      (mmMap_built tended.counted (tended.fits mm allowed).ok mapped)⟩
  case pgdirAllocPage mm la perm =>
    obtain ⟨live, flags, vma, member, inside⟩ := allowed
    obtain ⟨⟨s', page⟩, allocated, ran⟩ := ran
    cases ran
    have ok := (tended.fits mm live).ok
    obtain ⟨below, page⟩ := ok.page member inside
    obtain ⟨role', built⟩ := pgdirAllocPage_built tended.counted tended.normal
      (tended.pgdir_mem live) tended.alone ok below page flags allocated
    exact ⟨dirs, role', tended.built live built⟩
  case doPgfault mm errorCode addr =>
    obtain ⟨⟨s', ret⟩, served, ran⟩ := ran
    cases ran
    obtain ⟨role', built⟩ := doPgfault_built tended.counted tended.normal (tended.pgdir_mem allowed)
      tended.alone tended.clean (tended.fits mm allowed).ok served
    exact ⟨dirs, role', tended.built allowed built⟩
  case dupMmap toMm fromMm kmalloc =>
    obtain ⟨live, live', other⟩ := allowed
    obtain ⟨⟨s', ret⟩, copied, ran⟩ := ran
    cases ran
    have ok := (tended.fits fromMm live').ok
    have ranges : ∀ v ∈ (r.kernel.mms fromMm).mmap.reverse, RangeOk v.vmStart v.vmEnd :=
      fun v member => ok.range v (mem_reverse.mp member)
    have sole : ∀ n ∈ regionPages (r.kernel.mms fromMm).mmap.reverse,
        Sole userSlots dirs r.kernel ((r.kernel.mms toMm).pgdir, n) := by
      rintro n ⟨v, member, inside⟩
      have top := (ranges v member).2.2.2.2
      exact tended.alone.sole (userSlots_user.key (tended.pgdir_mem live)
        (inside.2.trans_le (Nat.div_le_div_right top)))
    obtain ⟨role', built, -⟩ := dupLoop_spec tended.counted ranges tended.normal
      (tended.pgdir_mem live) (tended.pgdir_mem live')
      (fun same => other (tended.distinct _ live _ live' same.symm)) (tended.fits toMm live).ok (pairwise_reverse.mpr ok.sorted) sole copied
    exact ⟨dirs, role', tended.built live built⟩
  case store mm la w =>
    obtain ⟨s', stored, ran⟩ := ran
    cases ran
    exact ⟨dirs, tended.store allowed.1 allowed.2 stored⟩
  case setMmCount mm val =>
    cases ran
    exact ⟨dirs, role, tended.built allowed
      (Built.setMm tended.counted rfl (by simp) { (tended.fits mm allowed).ok with })⟩
  case allocPage =>
    obtain ⟨⟨s', page⟩, allocated, ran⟩ := ran
    cases ran
    exact ⟨dirs, tended.allocPage allocated⟩
  case freePage page =>
    obtain ⟨s', freed, ran⟩ := ran
    cases ran
    exact ⟨dirs, tended.freePage allowed freed⟩
  case teardown mm =>
    obtain ⟨s', torn, ran⟩ := ran
    cases ran
    by_cases unused : (r.kernel.mms mm).mmCount = 0
    · obtain ⟨s₁, role', ran, down⟩ := teardown_spec tended.counted (tended.pgdir_mem allowed)
        tended.alone (tended.fits mm allowed) unused
      rw [ran] at torn
      cases torn
      exact ⟨_, role', down.tended tended allowed⟩
    · rw [Paging.teardown, exitMmap, if_neg unused] at torn
      cases torn

end

/-- The invariant holds in every state a run can reach. -/
theorem Spaces.Reachable.tended (reached : Spaces.Reachable pool r) :
    ∃ dirs role, Tended pool r dirs role := by
  induction reached with
  | boot booted => exact ⟨∅, startRole ∅ pool, booted.tended⟩
  | step before policy call allowed ran ih =>
    obtain ⟨dirs, role, tended⟩ := ih
    exact tended.call allowed ran

/-- Whatever is in use and not held by the kernel belongs to an address space. -/
theorem Tended.owned (tended : Tended pool r dirs role) (used : role f ≠ .free)
    (notHeld : role f ≠ .held) (inPool : role f ≠ .other) : ∃ m, r.owner f = some (.space m) := by
  have belongs : ∃ d ∈ dirs, OwnedBy userSlots dirs r.kernel role d f := by
    cases is : role f with
    | free => exact absurd is used
    | held => exact absurd is notHeld
    | other => exact absurd is inPool
    | directory => exact ⟨f, (tended.counted.tables.directory f).mpr is, .inl rfl⟩
    | table d i => exact ⟨d, (tended.counted.tables.table f d i is).1, .inr (.inl ⟨i, is⟩)⟩
    | data =>
      obtain ⟨⟨d, n⟩, key, mapped⟩ := tended.counted.data_iff.mp is
      exact ⟨d, (mem_keys.mp key).1, .inr (.inr ⟨n, key, mapped⟩)⟩
  obtain ⟨d, known, owned⟩ := belongs
  obtain ⟨m, live, rfl⟩ := (tended.directory d).mp known
  exact ⟨m, (tended.space f m).mpr ⟨live, owned⟩⟩

/-- In every state of every run, tearing an address space down comes back. What
was allocated for it was in use and is free then, other frames are free exactly
if they were; the directory, its tables and whatever is mapped in it are among
what was allocated for it, and no other frame changes its contents. So the free
frames are those of the pool that nobody else has. -/
theorem teardown_exact (reached : Spaces.Reachable pool r) (live : mm ∈ r.live)
    (unused : (r.kernel.mms mm).mmCount = 0) :
    ∃ s', teardown r.kernel mm = some s' ∧
      (∀ f, f ∈ s'.free ↔ f ∈ r.kernel.free ∨ r.owner f = some (.space mm)) ∧
      (∀ f, r.owner f = some (.space mm) → f ∉ r.kernel.free) ∧
      (∀ f, f ∈ s'.free ↔ f ∈ pool ∧ ∀ o, r.owner f = some o → o = .space mm) ∧
      r.owner (r.kernel.mms mm).pgdir = some (.space mm) ∧
      (∀ la < userTop, ∀ f, getPage r.kernel (r.kernel.mms mm).pgdir la = some (some f) →
        r.owner f = some (.space mm)) ∧
      (∀ i ∈ userSlots, Present (r.kernel.mem (r.kernel.mms mm).pgdir i) →
        ∃ t, r.kernel.mem (r.kernel.mms mm).pgdir i = pdeWord t ∧ r.owner t = some (.space mm)) ∧
      ∀ f, f ∉ s'.free → s'.mem f = r.kernel.mem f := by
  obtain ⟨dirs, role, tended⟩ := reached.tended
  have known := tended.pgdir_mem live
  obtain ⟨s', role', ran, torn⟩ := teardown_spec tended.counted known tended.alone
    (tended.fits mm live) unused
  have owner : ∀ f, r.owner f = some (.space mm) ↔
      OwnedBy userSlots dirs r.kernel role (r.kernel.mms mm).pgdir f :=
    fun f => (tended.space f mm).trans (and_iff_right live)
  have free := tended.counted.tables.free
  have freed : ∀ f, f ∈ s'.free ↔ f ∈ r.kernel.free ∨ r.owner f = some (.space mm) := by
    intro f
    rw [torn.counted.tables.free f, torn.freed f, owner f, free f]
  refine ⟨s', ran, freed, ?_, ?_, ?_, ?_, ?_, ?_⟩
  · intro f mine member
    exact (((owner f).mp mine).used tended.counted known).1 ((free f).mp member)
  · intro f
    rw [freed f, tended.pool f, free f]
    constructor
    · rintro (is | mine)
      · rw [tended.owner_free is, is]
        simp
      · refine ⟨(((owner f).mp mine).used tended.counted known).2.2, fun o is => ?_⟩
        rw [mine] at is
        exact (some.inj is).symm
    · rintro ⟨inPool, nobody⟩
      by_cases is : role f = .free
      · exact .inl is
      · have notHeld : role f ≠ .held := by
          intro held
          cases nobody _ ((tended.kernel f).mpr held)
        obtain ⟨m, belongs⟩ := tended.owned is notHeld inPool
        cases nobody _ belongs
        exact .inr belongs
  · exact (owner _).mpr (.inl rfl)
  · intro la user f found
    have address : la < 2 ^ 32 := user_address user
    have slot := userSlots_user.pdx_mem user
    rw [tended.counted.tables.getPage_eq known address slot] at found
    exact (owner f).mpr (.inr (.inr ⟨_, page_key known address slot, some.inj found⟩))
  · intro i slot there
    obtain ⟨t, word, is⟩ := tended.counted.tables.pde _ known i slot there
    exact ⟨t, word, (owner t).mpr (.inr (.inl ⟨i, is⟩))⟩
  · intro f used
    rw [torn.counted.tables.free f] at used
    exact (torn.kept f used).2

theorem booted_smallKernel : Booted {1, 2, 3} smallKernel := by
  refine ⟨⟨by decide, ?_, rfl, by decide, by simp, by simp, by simp [smallKernel], by simp, rfl⟩,
    by decide, fun i _ => (by decide : ¬ Present 0)⟩
  intro i slot
  exact (Finset.mem_range.mp slot).trans (by decide)

/-- An address space with a region of one page, which a write has faulted in, uses
up the three frames; they are free again when it is torn down. -/
theorem teardown_exact_one_page :
    ∃ r s', Spaces.Reachable {1, 2, 3} r ∧ 0 ∈ r.live ∧ r.kernel.free = ∅ ∧
      teardown r.kernel 0 = some s' ∧ s'.free = {1, 2, 3} := by
  have created := Spaces.Reachable.step (.boot booted_smallKernel) lowest (.create 0)
    (Finset.notMem_empty 0) rfl
  have mapped := Spaces.Reachable.step created lowest (.mmMap 0 0x200000 0x1000 vmWrite true)
    (Finset.mem_insert_self 0 ∅) rfl
  have faulted := Spaces.Reachable.step mapped lowest (.doPgfault 0 2 0x200000)
    (Finset.mem_insert_self 0 ∅) rfl
  obtain ⟨s', ran, freed, -, asIf, -⟩ := teardown_exact faulted (Finset.mem_insert_self 0 ∅) rfl
  refine ⟨_, s', faulted, Finset.mem_insert_self 0 ∅, by decide +kernel, ran, ?_⟩
  ext f
  refine ⟨fun member => ((asIf f).mp member).1, fun inPool => ?_⟩
  simp only [Finset.mem_insert, Finset.mem_singleton] at inPool
  rcases inPool with rfl | rfl | rfl
  · exact (freed 1).mpr (.inr rfl)
  · exact (freed 2).mpr (.inr rfl)
  · exact (freed 3).mpr (.inr rfl)

/-! ## Fork -/

section Fork

variable {toMm fromMm : ℕ} {kmalloc : Vma → Bool} {vs : List Vma} {ret : ℤ}

/-- `copy_range` has checked every region by the time `dup_mmap` succeeds. -/
theorem dupLoop_ranges (ran : dupLoop policy kmalloc toMm fromMm vs s = some (s', 0)) :
    ∀ v ∈ vs, RangeOk v.vmStart v.vmEnd := by
  induction vs generalizing s with
  | nil => simp
  | cons vma rest ih =>
    rw [dupLoop] at ran
    split_ifs at ran
    · simp only [bind_eq_bind, bind_eq_some_iff] at ran
      obtain ⟨m, -, ⟨s₂, ret⟩, copied, ran⟩ := ran
      split_ifs at ran
      · intro v member
        rcases mem_cons.mp member with rfl | later
        · rw [copyRange] at copied
          split_ifs at copied
          assumption
        · exact ih ran v later
      · cases ran
    · cases ran

/-- The address space `toMm` is a copy of `fromMm`, page by page in frames of its
own, and `fromMm` is as it was. -/
structure Forked (dirs : Finset ℕ) (s s' : Kernel) (toMm fromMm : ℕ) : Prop where
  pgdir : (s'.mms toMm).pgdir = (s.mms toMm).pgdir
  regions : (s'.mms toMm).mmap = (s.mms fromMm).mmap
  present : ∀ n ∈ regionPages (s.mms fromMm).mmap,
    (Present (pteOf s' (s'.mms toMm).pgdir n) ↔ Present (pteOf s (s.mms fromMm).pgdir n))
  copied : ∀ n ∈ regionPages (s.mms fromMm).mmap, ∀ f, view s ((s.mms fromMm).pgdir, n) = some f →
    pteOf s' (s'.mms toMm).pgdir n &&& pteUser = pteOf s (s.mms fromMm).pgdir n &&& pteUser ∧
      ∃ g, view s' ((s'.mms toMm).pgdir, n) = some g ∧ s'.mem g = s.mem f ∧
        ∀ y ∈ keys userSlots dirs, view s' y = some g → y = ((s'.mms toMm).pgdir, n)
  outside : ∀ n < userTop / pgSize, n ∉ regionPages (s.mms fromMm).mmap →
    ¬ Present (pteOf s' (s'.mms toMm).pgdir n)
  source : s'.mms fromMm = s.mms fromMm
  directory : s'.mem (s.mms fromMm).pgdir = s.mem (s.mms fromMm).pgdir
  tables : ∀ i ∈ userSlots, Present (s.mem (s.mms fromMm).pgdir i) →
    s'.mem (frameOf (s.mem (s.mms fromMm).pgdir i)) = s.mem (frameOf (s.mem (s.mms fromMm).pgdir i))
  contents : ∀ n < userTop / pgSize, ∀ f, view s ((s.mms fromMm).pgdir, n) = some f →
    s'.mem f = s.mem f

theorem fork_copies (counted : Counted s userSlots dirs role) (normal : s.checkMm = none)
    (known : (s.mms toMm).pgdir ∈ dirs) (known' : (s.mms fromMm).pgdir ∈ dirs)
    (other : (s.mms fromMm).pgdir ≠ (s.mms toMm).pgdir)
    (fresh : (s.mms toMm).mmap = [] ∧ (s.mms toMm).mmapCache = none)
    (bare : ∀ i ∈ userSlots, ¬ Present (s.mem (s.mms toMm).pgdir i))
    (sorted : Sorted (s.mms fromMm).mmap)
    (ran : dupMmap policy s toMm fromMm kmalloc = some (s', 0)) : Forked dirs s s' toMm fromMm := by
  have vacant : Vacant userSlots dirs s (s.mms toMm).pgdir := bare_vacant bare
  have ok : (s.mms toMm).Ok := ⟨by simp [fresh.1], by simp [fresh.1, Sorted], by simp [fresh.2]⟩
  have ranges := dupLoop_ranges ran
  have pages : regionPages (s.mms fromMm).mmap.reverse = regionPages (s.mms fromMm).mmap := by
    simp only [regionPages, mem_reverse]
  have user : ∀ n ∈ regionPages (s.mms fromMm).mmap, n < userTop / pgSize := by
    rintro n ⟨v, member, inside⟩
    have top := (ranges v (mem_reverse.mpr member)).2.2.2.2
    exact inside.2.trans_le (Nat.div_le_div_right top)
  have key : ∀ n < userTop / pgSize, ((s.mms toMm).pgdir, n) ∈ keys userSlots dirs :=
    fun n below => userSlots_user.key known below
  have key' : ∀ n < userTop / pgSize, ((s.mms fromMm).pgdir, n) ∈ keys userSlots dirs :=
    fun n below => userSlots_user.key known' below
  have sole : ∀ n ∈ regionPages (s.mms fromMm).mmap.reverse,
      Sole userSlots dirs s ((s.mms toMm).pgdir, n) := by
    intro n inside f mapped
    rw [pages] at inside
    exact absurd (present_of_view mapped) (vacant n (key n (user n inside)))
  obtain ⟨role', built, copied, listed⟩ := dupLoop_spec counted ranges normal known known' other ok
    (pairwise_reverse.mpr sorted) sole ran
  have copied := copied rfl
  rw [pages] at copied
  have worked := copied.worked
  have apart : fromMm ≠ toMm := fun same => other (same ▸ rfl)
  -- frames of the source are neither free nor of the target
  have alien : ∀ f, role f = .directory ∧ f = (s.mms fromMm).pgdir ∨
      (∃ i, role f = .table (s.mms fromMm).pgdir i) → s'.mem f = s.mem f := by
    intro f mine
    refine (worked.fixed f ?_).2
    rintro (free | owned | none)
    · rcases mine with ⟨is, -⟩ | ⟨i, is⟩ <;> simp [is] at free
    · rcases mine with ⟨is, same⟩ | ⟨i, is⟩ <;>
        rcases owned.cases counted known with ⟨is', same'⟩ | ⟨j, is'⟩ | ⟨is', -⟩ <;>
        simp only [is, reduceCtorEq, Role.table.injEq] at is'
      · exact other (same.symm.trans same')
      · exact other is'.1
    · exact none
  have source := (counted.tables.directory _).mp known'
  refine ⟨built.pgdir, ?_, ?_, ?_, ?_, built.others fromMm apart, alien _ (.inl ⟨source, rfl⟩), ?_, ?_⟩
  · rw [listed rfl (by simp [fresh.1]), fresh.1]
    simp
  · intro n inside
    rw [built.pgdir]
    rcases copied.copies n inside (key n (user n inside)) with ⟨absent, same⟩ |
      ⟨there, -, -, f, here, -⟩
    · refine iff_of_false (fun there => ?_) absent
      exact vacant n (key n (user n inside)) (same ▸ there)
    · exact iff_of_true (present_of_view here) there
  · intro n inside f mapped
    rw [built.pgdir]
    rcases copied.copies n inside (key n (user n inside)) with ⟨absent, -⟩ |
      ⟨there, alone, bits, g, here, same⟩
    · exact absurd (present_of_view mapped) absent
    · refine ⟨bits, g, here, ?_, fun y member also => alone g here y member also⟩
      rw [view, if_pos there] at mapped
      exact some.inj mapped ▸ same
  · intro n below outside there
    rw [built.pgdir] at there
    have same : pteOf s' (s.mms toMm).pgdir n = pteOf s (s.mms toMm).pgdir n :=
      worked.entries _ (key n below) fun inside => outside inside.2
    exact vacant n (key n below) (same ▸ there)
  · intro i slot there
    obtain ⟨t, word, is⟩ := counted.tables.pde _ known' i slot there
    rw [word, frameOf_pdeWord (counted.tables.small (by simp [is]))]
    exact alien t (.inr ⟨i, is⟩)
  · intro n below f mapped
    exact worked.content _ (key' n below) (fun inside => other inside.1) f mapped

end Fork

/-- Six free frames. -/
def sixFrames : Kernel := { smallKernel with npage := 7, free := {1, 2, 3, 4, 5, 6} }

theorem booted_sixFrames : Booted {1, 2, 3, 4, 5, 6} sixFrames := by
  refine ⟨⟨by decide, ?_, rfl, by decide, by simp, by simp, by simp [sixFrames, smallKernel], by simp,
    rfl⟩,
    by decide, fun i _ => (by decide : ¬ Present 0)⟩
  intro i slot
  exact (Finset.mem_range.mp slot).trans (by decide)

/-- Two address spaces, of which the first has written to its only page. -/
theorem parent_and_child :
    ∃ r s', Spaces.Reachable {1, 2, 3, 4, 5, 6} r ∧ r.live = {1, 0} ∧
      (r.kernel.mms 0).pgdir = 1 ∧ (r.kernel.mms 1).pgdir = 2 ∧
      (r.kernel.mms 0).mmap = [⟨0x200000, 0x201000, vmWrite⟩] ∧
      (r.kernel.mms 1).mmap = [] ∧ (r.kernel.mms 1).mmapCache = none ∧
      (∀ i ∈ userSlots, ¬ Present (r.kernel.mem 2 i)) ∧
      view r.kernel (1, 0x200) = some 4 ∧ r.kernel.mem 4 0 = 42 ∧
      dupMmap lowest r.kernel 1 0 (fun _ => true) = some (s', 0) ∧ view s' (2, 0x200) = some 6 := by
  have new : 1 ∉ insert 0 (∅ : Finset ℕ) := by simp
  have live : 0 ∈ insert 1 (insert 0 (∅ : Finset ℕ)) := by simp
  have parent := Spaces.Reachable.step (.boot booted_sixFrames) lowest (.create 0)
    (Finset.notMem_empty 0) rfl
  have child := Spaces.Reachable.step parent lowest (.create 1) new rfl
  have mapped := Spaces.Reachable.step child lowest (.mmMap 0 0x200000 0x1000 vmWrite true) live rfl
  have faulted := Spaces.Reachable.step mapped lowest (.doPgfault 0 2 0x200000) live rfl
  have stored := Spaces.Reachable.step faulted lowest (.store 0 0x200000 42) ⟨live, by decide⟩ rfl
  have bare : ∀ i ∈ userSlots, ∀ w,
      ¬ Present (update (fun _ : ℕ => (0 : ℕ)) (pdx vpt) w i) := by
    intro i slot w
    have other : i ≠ pdx vpt := fun same => vpt_kernel (same ▸ slot)
    rw [update_of_ne other]
    decide
  exact ⟨_, _, stored, rfl, rfl, rfl, rfl, rfl, rfl, fun i slot => bare i slot _, rfl, rfl, rfl, rfl⟩

/-- The page is in a frame of its own in the child. -/
theorem fork_copies_one_page :
    ∃ s s' : Kernel, view s (1, 0x200) = some 4 ∧ s.mem 4 0 = 42 ∧
      dupMmap lowest s 1 0 (fun _ => true) = some (s', 0) ∧
      view s' (2, 0x200) = some 6 ∧ s'.mem 6 0 = 42 := by
  obtain ⟨r, s', reached, live, pgdir₀, pgdir₁, mmap, fresh, cache, bare, here, word, ran, there⟩ :=
    parent_and_child
  obtain ⟨dirs, role, tended⟩ := reached.tended
  have forked := fork_copies tended.counted tended.normal (tended.pgdir_mem (by simp [live]))
    (tended.pgdir_mem (by simp [live])) (by simp [pgdir₀, pgdir₁]) ⟨fresh, cache⟩
    (by rwa [pgdir₁]) (by simp [mmap, Sorted]) ran
  have inside : 0x200 ∈ regionPages (r.kernel.mms 0).mmap := by
    rw [mmap]
    exact ⟨_, mem_singleton_self _, by decide, by decide⟩
  obtain ⟨-, g, found, same, -⟩ := forked.copied 0x200 inside 4 (by rwa [pgdir₀])
  rw [forked.pgdir, pgdir₁, there] at found
  cases found
  exact ⟨r.kernel, s', here, word, ran, there, (congrFun same 0).trans word⟩

end LiNos.Paging
