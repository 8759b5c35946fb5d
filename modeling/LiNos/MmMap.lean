import Mathlib.Data.List.TakeWhile
import LiNos.PageRuns
import LiNos.UserMem

/-!
What `mm_map` maps, against the range its arguments stand for.

The code computes the end of the range in 32 bits, looks for a region at its first page only,
and leaves the rest to the assertions of `insert_vma_struct`. So it fails on ranges that wrap
around and on ranges that run into a region behind their first page.
-/

namespace LiNos.Paging

open List

variable {m m' : Mm} {vma : Vma} {addr len : ℕ}

/-- The regions are in order, none of them is empty, and the cached one is among them. -/
structure Mm.Proper (m : Mm) : Prop where
  proper : ∀ v ∈ m.mmap, v.vmStart < v.vmEnd
  sorted : Sorted m.mmap
  cache : ∀ v, m.mmapCache = some v → v ∈ m.mmap

theorem Mm.Proper.findVma (proper : m.Proper) : (Paging.findVma m addr).1.Proper := by
  refine ⟨by rw [findVma_mmap]; exact proper.proper, by rw [findVma_mmap]; exact proper.sorted, ?_⟩
  intro v cached
  rw [findVma_mmap]
  unfold Paging.findVma at cached
  split at cached
  · next w found =>
    cases cached
    exact (lookupVma_spec found).1.elim id (proper.cache v)
  · exact proper.cache v cached

/-- The regions leave the range free. -/
def Spared (mmap : List Vma) (start stop : ℕ) : Prop := ∀ v ∈ mmap, v.vmEnd ≤ start ∨ stop ≤ v.vmStart

/-- `insert_vma_struct` passes its assertions exactly if the new region is not empty and
overlaps none. -/
theorem insertVmaStruct_iff (proper : m.Proper) :
    (∃ m', insertVmaStruct m vma = some m') ↔ vma.vmStart < vma.vmEnd ∧ Spared m.mmap vma.vmStart vma.vmEnd := by
  constructor
  · rintro ⟨m', inserted⟩
    have sorted := insertVmaStruct_sorted proper.sorted proper.proper inserted
    dsimp only [insertVmaStruct] at inserted
    split at inserted
    · next checks =>
      cases inserted
      refine ⟨checks.1, ?_⟩
      intro v member
      rw [← takeWhile_append_dropWhile (l := m.mmap)] at member
      obtain ⟨-, high, cross⟩ := pairwise_append.mp sorted
      rcases mem_append.mp member with before | after
      · exact .inl (cross v before vma mem_cons_self)
      · exact .inr (rel_of_pairwise_cons high after)
    · cases inserted
  · rintro ⟨nonempty, spared⟩
    refine ⟨_, if_pos ⟨nonempty, ?_, ?_⟩⟩
    · intro prev last
      have member := mem_of_getLast? last
      have early : prev.vmStart ≤ vma.vmStart := by simpa using mem_takeWhile_imp member
      have known := (takeWhile_sublist _).subset member
      have gap := spared prev known
      exact ⟨proper.proper prev known, by omega, nonempty⟩
    · intro next first
      have member := mem_of_head? first
      have known := (dropWhile_sublist _).subset member
      have late : ¬ next.vmStart ≤ vma.vmStart := by
        have stops := head?_dropWhile_not (fun v : Vma => decide (v.vmStart ≤ vma.vmStart)) m.mmap
        rw [first] at stops
        simpa using stops
      have gap := spared next known
      have room := proper.proper next known
      exact ⟨nonempty, by omega, room⟩

/-! ## The range -/

/-- The end of the range, rounded up to a page and computed without wrapping around. -/
def pageStop (addr len : ℕ) : ℕ := (addr + len + (pgSize - 1)) / pgSize * pgSize

/-- The range is not empty, lies in user space, and the regions leave it free. -/
def Mappable (mmap : List Vma) (addr len : ℕ) : Prop :=
  UserAccess (roundDown addr pgSize) (pageStop addr len) ∧ Spared mmap (roundDown addr pgSize) (pageStop addr len)

/-- The end that the code computes. -/
theorem roundUp_wrap : roundUp (wrap (addr + len)) pgSize = pageStop addr len % 2 ^ 32 := by
  unfold roundUp roundDown wrap pageStop pgSize
  omega

theorem Mappable.user {mmap : List Vma} (mappable : Mappable mmap addr len) :
    pageStop addr len % 2 ^ 32 = pageStop addr len := by
  have top := mappable.1.2.2
  unfold userTop at top
  omega

/-! ## mm_map -/

/-- What `mm_map` is to do: it returns 0 exactly for a range that can be mapped, when there is
memory for the region, and adds the region in its place; else it returns an error and changes
no region. -/
def MapsExactly (s : Kernel) (mm addr len vmFlags : ℕ) (kmalloc : Bool) : Prop :=
  ∃ s' ret, mmMap s mm addr len vmFlags kmalloc = some (s', ret) ∧
    (ret = 0 ↔ Mappable (s.mms mm).mmap addr len ∧ kmalloc = true) ∧
    (ret = 0 → Sorted (s'.mms mm).mmap ∧
      (s'.mms mm).mmap.Perm (⟨roundDown addr pgSize, pageStop addr len, vmFlags⟩ :: (s.mms mm).mmap)) ∧
    (ret ≠ 0 → ret < 0 ∧ (s'.mms mm).mmap = (s.mms mm).mmap)

/-- A call that comes back with an error. -/
theorem MapsExactly.of_error {s s' : Kernel} {mm vmFlags : ℕ} {kmalloc : Bool} {e : ℤ}
    (ran : mmMap s mm addr len vmFlags kmalloc = some (s', e)) (negative : e < 0)
    (same : (s'.mms mm).mmap = (s.mms mm).mmap) (not : ¬ (Mappable (s.mms mm).mmap addr len ∧ kmalloc = true)) :
    MapsExactly s mm addr len vmFlags kmalloc :=
  ⟨s', e, ran, iff_of_false negative.ne not, fun zero => absurd zero negative.ne, fun _ => ⟨negative, same⟩⟩

section Exact

variable {s : Kernel} {mm vmFlags : ℕ} {kmalloc : Bool}

/-- `mm_map` on a range that the code takes for one of user space. -/
theorem mmMap_access (access : UserAccess (roundDown addr pgSize) (pageStop addr len % 2 ^ 32)) :
    mmMap s mm addr len vmFlags kmalloc =
      if ∃ vma ∈ lookupVma (s.mms mm) (roundDown addr pgSize), vma.vmStart < pageStop addr len % 2 ^ 32 then
        some (s.setMm mm (findVma (s.mms mm) (roundDown addr pgSize)).1, -eInval)
      else mapRegion (s.setMm mm (findVma (s.mms mm) (roundDown addr pgSize)).1) mm
        ⟨roundDown addr pgSize, pageStop addr len % 2 ^ 32, vmFlags⟩ kmalloc := by
  unfold mmMap
  rw [roundUp_wrap, if_pos access]
  dsimp only
  rw [findVma_found]

variable (proper : (s.mms mm).Proper)
include proper

/-- The range begins in a region. -/
theorem MapsExactly.of_found (access : UserAccess (roundDown addr pgSize) (pageStop addr len % 2 ^ 32))
    (found : lookupVma (s.mms mm) (roundDown addr pgSize) = some vma) :
    MapsExactly s mm addr len vmFlags kmalloc := by
  obtain ⟨known, below, above⟩ := lookupVma_spec found
  have before : vma.vmStart < pageStop addr len % 2 ^ 32 := below.trans_lt access.2.1
  refine .of_error (by rw [mmMap_access access, if_pos ⟨vma, found, before⟩]) (by decide) (by simp) ?_
  rintro ⟨mappable, -⟩
  have gap := mappable.2 vma (known.elim id (proper.cache vma))
  rw [mappable.user] at before
  omega

/-- The range begins outside of the regions, and there is memory for a new one. -/
theorem mapsExactly_insert_iff (access : UserAccess (roundDown addr pgSize) (pageStop addr len % 2 ^ 32))
    (none : lookupVma (s.mms mm) (roundDown addr pgSize) = none) :
    MapsExactly s mm addr len vmFlags true ↔
      pageStop addr len < 2 ^ 32 ∧ Spared (s.mms mm).mmap (roundDown addr pgSize) (pageStop addr len) := by
  have found := @Mm.Proper.findVma _ (roundDown addr pgSize) proper
  have iff := @insertVmaStruct_iff _ ⟨roundDown addr pgSize, pageStop addr len % 2 ^ 32, vmFlags⟩ found
  have run := @mmMap_access addr len s mm vmFlags true access
  rw [findVma_mmap] at iff
  rw [none, if_neg (by simp), mapRegion, if_pos rfl, Kernel.setMm_mms_self] at run
  constructor
  · rintro ⟨s', ret, ran, zero, -, -⟩
    rw [run] at ran
    obtain ⟨m', -, done⟩ := Option.bind_eq_some_iff.mp ran
    cases done
    have mappable := (zero.mp rfl).1
    refine ⟨?_, mappable.2⟩
    rw [← mappable.user]
    exact Nat.mod_lt _ (by decide)
  · rintro ⟨small, spared⟩
    rw [Nat.mod_eq_of_lt small] at access iff run
    obtain ⟨m', inserted⟩ := iff.mpr ⟨access.2.1, spared⟩
    rw [inserted] at run
    refine ⟨_, 0, run, iff_of_true rfl ⟨⟨access, spared⟩, rfl⟩, fun _ => ?_, fun other => absurd rfl other⟩
    have sorted := insertVmaStruct_sorted found.sorted found.proper inserted
    have perm := insertVmaStruct_perm inserted
    rw [findVma_mmap] at perm
    rw [Kernel.setMm_mms_self]
    exact ⟨sorted, perm⟩

/-- `mm_map` does what it is to do exactly if the range that it computes in 32 bits is not one
of user space, or begins in a region, or there is no memory, or the range does not wrap around
and the regions leave it free. -/
theorem mm_map_exact_iff :
    MapsExactly s mm addr len vmFlags kmalloc ↔
      ¬ UserAccess (roundDown addr pgSize) (pageStop addr len % 2 ^ 32) ∨
      (∃ v ∈ (s.mms mm).mmap, v.Contains (roundDown addr pgSize)) ∨ kmalloc = false ∨
      pageStop addr len < 2 ^ 32 ∧ Spared (s.mms mm).mmap (roundDown addr pgSize) (pageStop addr len) := by
  by_cases access : UserAccess (roundDown addr pgSize) (pageStop addr len % 2 ^ 32)
  · cases found : lookupVma (s.mms mm) (roundDown addr pgSize) with
    | some vma =>
      have known := (lookupVma_spec found).imp (fun known => known.elim id (proper.cache vma)) id
      exact iff_of_true (.of_found proper access found) (.inr (.inl ⟨vma, known⟩))
    | none =>
      have outside : ¬ ∃ v ∈ (s.mms mm).mmap, v.Contains (roundDown addr pgSize) := by
        rintro ⟨v, member, inside⟩
        exact lookupVma_none found v member inside
      cases kmalloc with
      | false =>
        refine iff_of_true ?_ (.inr (.inr (.inl rfl)))
        refine .of_error (by rw [mmMap_access access, found, if_neg (by simp)]; rfl) (by decide) (by simp) ?_
        exact fun both => Bool.noConfusion both.2
      | true =>
        rw [mapsExactly_insert_iff proper access found, or_iff_right (not_not.mpr access), or_iff_right outside,
          or_iff_right (by decide : ¬ true = false)]
  · refine iff_of_true (.of_error ?_ (by decide : -eInval < 0) rfl ?_) (.inl access)
    · unfold mmMap
      rw [roundUp_wrap, if_neg access]
    · rintro ⟨mappable, -⟩
      rw [mappable.user] at access
      exact access mappable.1

end Exact

/-- An address space with one region. -/
def oneRegion : Kernel := smallKernel.setMm 0 ⟨[⟨0x801000, 0x802000, vmRead⟩], none, 1, 1, none, 1⟩

theorem oneRegion_proper : (oneRegion.mms 0).Proper := by
  refine ⟨by decide, pairwise_singleton _ _, ?_⟩
  intro v cached
  cases cached

/-- A range that runs into the region fails an assertion, and one that wraps around is mapped. -/
theorem mm_map_inexact :
    mmMap oneRegion 0 0x800000 0x2000 vmRead true = none ∧ ¬ MapsExactly oneRegion 0 0x800000 0x2000 vmRead true ∧
      ¬ MapsExactly oneRegion 0 0x800002 0xFFFFFFFF vmRead true := by
  have stops : mmMap oneRegion 0 0x800000 0x2000 vmRead true = none := by decide
  have maps : (mmMap oneRegion 0 0x800002 0xFFFFFFFF vmRead true).map Prod.snd = some 0 := by decide
  refine ⟨stops, ?_, ?_⟩
  · rintro ⟨s', ret, ran, -⟩
    rw [stops] at ran
    cases ran
  · rintro ⟨s', ret, ran, zero, -⟩
    rw [ran] at maps
    have top := (zero.mp (Option.some.inj maps)).1.1.2.2
    exact absurd top (by decide)

/-- Behind the region there is room, and the range is mapped. -/
theorem mm_map_exact_iff_room :
    MapsExactly oneRegion 0 0x900000 0x1000 vmRead true ∧
      (mmMap oneRegion 0 0x900000 0x1000 vmRead true).map Prod.snd = some 0 := by
  refine ⟨(mm_map_exact_iff oneRegion_proper).mpr (.inr (.inr (.inr ⟨by decide, ?_⟩))), by decide⟩
  exact (by decide : ∀ v ∈ [(⟨0x801000, 0x802000, vmRead⟩ : Vma)], v.vmEnd ≤ 0x900000 ∨ 0x901000 ≤ v.vmStart)

/-! ## The cache of `find_vma` -/

/-- The address spaces that insertions and lookups lead to from a new one. -/
inductive VmaRun : Mm → Prop
  | create (s : Kernel) (mm : ℕ) : VmaRun ((mmCreate s mm).mms mm)
  | insert {m m' : Mm} {vma : Vma} : VmaRun m → insertVmaStruct m vma = some m' → VmaRun m'
  | find {m : Mm} (addr : ℕ) : VmaRun m → VmaRun (findVma m addr).1

theorem Mm.Proper.insert (proper : m.Proper) (inserted : insertVmaStruct m vma = some m') :
    m'.Proper ∧ m'.mapCount = m.mapCount + 1 := by
  have perm := insertVmaStruct_perm inserted
  have sorted := insertVmaStruct_sorted proper.sorted proper.proper inserted
  dsimp only [insertVmaStruct] at inserted
  split_ifs at inserted with checks
  cases inserted
  refine ⟨⟨fun v member => ?_, sorted,
    fun v cached => perm.mem_iff.mpr (mem_cons_of_mem _ (proper.cache v cached))⟩, rfl⟩
  rcases mem_cons.mp (perm.mem_iff.mp member) with rfl | old
  · exact checks.1
  · exact proper.proper v old

theorem VmaRun.proper (run : VmaRun m) : m.Proper ∧ m.mapCount = m.mmap.length := by
  induction run with
  | create s mm =>
    rw [mmCreate, Kernel.setMm_mms_self]
    exact ⟨⟨by simp, .nil, by simp⟩, rfl⟩
  | insert _ inserted ih =>
    obtain ⟨proper, count⟩ := ih
    obtain ⟨proper', count'⟩ := proper.insert inserted
    rw [count', count, (insertVmaStruct_perm inserted).length_eq]
    exact ⟨proper', rfl⟩
  | find addr _ ih =>
    refine ⟨ih.1.findVma, ?_⟩
    rw [findVma_mmap, ← ih.2]
    unfold findVma
    split <;> rfl

theorem Mm.Proper.disjoint (proper : m.Proper) : m.Disjoint := by
  refine ⟨proper.sorted.imp_of_mem fun one _ below => ?_, proper.sorted.imp fun below a inV inW => ?_, proper.cache⟩
  · exact (proper.proper _ one).le.trans below
  · exact absurd (inV.2.trans_le (below.trans inW.1)) (lt_irrefl a)

/-- After any insertions and lookups the regions are in order and disjoint, `map_count` is their
number, and a lookup finds what a search through the list finds. -/
theorem find_vma_cache_invisible (run : VmaRun m) :
    (m.mmap.Pairwise fun v w => v.vmStart ≤ w.vmStart) ∧ (m.mmap.Pairwise fun v w => v.vmEnd ≤ w.vmStart) ∧
      m.mapCount = m.mmap.length ∧ ∀ a, (findVma m a).2 = m.mmap.find? fun v => v.Contains a := by
  obtain ⟨proper, count⟩ := run.proper
  have disjoint := proper.disjoint
  refine ⟨disjoint.sorted, proper.sorted, count, fun a => ?_⟩
  -- without its cache the address space is looked up by a search through the list
  have plain : ({ m with mmapCache := none } : Mm).Disjoint :=
    { disjoint with cache := fun _ none => by cases none }
  rw [findVma_found]
  ext v
  rw [disjoint.lookup_iff]
  exact plain.lookup_iff.symm

/-- A region is added and looked up, and another one is added in front of it. -/
theorem find_vma_cache_invisible_two : ∃ m, VmaRun m ∧ m.mapCount = 2 ∧
    (findVma m 0x800000).2 = some ⟨0x800000, 0x801000, vmRead⟩ := by
  have first : VmaRun _ := .insert (.create smallKernel 0) (show insertVmaStruct _ ⟨0x801000, 0x802000, vmRead⟩ = _ from rfl)
  have second : VmaRun _ := .insert (.find 0x801000 first) (show insertVmaStruct _ ⟨0x800000, 0x801000, vmRead⟩ = _ from rfl)
  exact ⟨_, second, rfl, (find_vma_cache_invisible second).2.2.2 _⟩

/-! ## do_malloc -/

/-- The end of the region that `do_malloc(n)` adds behind `last`, computed in 32 bits:
`!n%(PGSIZE)` is 1 for 0 only. -/
def mallocStop (last : Vma) (n : ℤ) : ℕ :=
  let allocSize := n.tdiv pgSize + if n = 0 then 1 else 0
  roundUp (((wrap (last.vmEnd + 1) : ℤ) + allocSize * pgSize) % 2 ^ 32).toNat pgSize

/-- `do_malloc`, on a list of at least two regions. -/
def doMalloc (m : Mm) (n : ℤ) (kmalloc : Bool) : Option (Mm × ℤ) :=
  match m.mmap.reverse with
  | nextVma :: lastVma :: _ =>
    let start := roundDown (wrap (lastVma.vmEnd + 1)) pgSize
    let stop := mallocStop lastVma n
    if lastVma.vmEnd < start ∧ stop < nextVma.vmStart then some (m, -eNoMem)
    else if UserAccess start stop then
      if kmalloc then do
        let m ← insertVmaStruct m ⟨start, stop, lastVma.vmFlags⟩
        some (m, 0)
      else some (m, -eNoMem)
    else some (m, -eInval)
  | _ => none

/-- The regions of a user process: whole pages of user space, the stack last. -/
structure UserSpace (m : Mm) (lows : List Vma) (last stack : Vma) : Prop extends m.Proper where
  mmap : m.mmap = lows ++ [last, stack]
  pages : ∀ v ∈ m.mmap, v.vmStart % pgSize = 0 ∧ v.vmEnd % pgSize = 0
  top : ∀ v ∈ m.mmap, v.vmEnd ≤ userTop

/-- A call of `do_malloc` either adds one region of whole pages, of at least `n` bytes, between
the last two and returns 0, or returns an error and changes nothing. -/
def MallocOk (m : Mm) (lows : List Vma) (last stack : Vma) (n : ℤ) (kmalloc : Bool) : Prop :=
  ∃ m' ret, doMalloc m n kmalloc = some (m', ret) ∧
    (ret = 0 ∧ (∃ new : Vma, UserSpace m' (lows ++ [last]) new stack ∧ n ≤ (new.vmEnd : ℤ) - new.vmStart) ∨
      ret < 0 ∧ m' = m)

/-- There is no memory for the region, or what is asked for is not a range of user space, or the
range ends below the stack. -/
def MallocFits (m : Mm) (n : ℤ) (kmalloc : Bool) : Prop :=
  ∀ lows last stack, m.mmap = lows ++ [last, stack] →
    kmalloc = false ∨ ¬ UserAccess last.vmEnd (mallocStop last n) ∨ mallocStop last n ≤ stack.vmStart

variable {lows : List Vma} {last stack : Vma} {n : ℤ} {kmalloc : Bool}

theorem UserSpace.last_bounds (space : UserSpace m lows last stack) :
    last.vmEnd % pgSize = 0 ∧ last.vmEnd ≤ stack.vmStart ∧ stack.vmStart < stack.vmEnd ∧
      stack.vmEnd ≤ userTop ∧ ∀ v ∈ lows ++ [last], v.vmEnd ≤ last.vmEnd := by
  have sorted := space.sorted
  have proper := space.proper
  have pages := space.pages
  have top := space.top
  rw [space.mmap] at sorted proper pages top
  obtain ⟨-, high, cross⟩ := pairwise_append.mp sorted
  have below : last.vmEnd ≤ stack.vmStart := rel_of_pairwise_cons high (mem_singleton_self _)
  refine ⟨(pages last (by simp)).2, below, proper stack (by simp), top stack (by simp), ?_⟩
  refine forall_mem_append.mpr ⟨fun v member => ?_, by simp⟩
  have before := cross v member last mem_cons_self
  have nonempty := proper last (by simp)
  omega

theorem mallocStop_spec (aligned : last.vmEnd % pgSize = 0) (top : last.vmEnd < userTop) :
    roundDown (wrap (last.vmEnd + 1)) pgSize = last.vmEnd ∧ mallocStop last n % pgSize = 0 ∧
      (-2 ^ 31 ≤ n → n < 2 ^ 31 → last.vmEnd < mallocStop last n →
        n ≤ (mallocStop last n : ℤ) - last.vmEnd) := by
  refine ⟨?_, ?_, fun _ upper beyond => ?_⟩
  · unfold roundDown wrap pgSize userTop at *
    omega
  · unfold mallocStop roundUp roundDown pgSize
    dsimp only
    omega
  · by_cases positive : 0 < n
    · unfold mallocStop roundUp roundDown wrap pgSize userTop at *
      dsimp only at *
      rw [if_neg positive.ne', Int.tdiv_eq_ediv_of_nonneg positive.le] at *
      omega
    · omega

/-- The region that `do_malloc` adds. -/
abbrev mallocVma (last : Vma) (n : ℤ) : Vma := ⟨last.vmEnd, mallocStop last n, last.vmFlags⟩

theorem doMalloc_eq (space : UserSpace m lows last stack) :
    doMalloc m n kmalloc =
      if UserAccess last.vmEnd (mallocStop last n) then
        if kmalloc then do
          let m ← insertVmaStruct m (mallocVma last n)
          some (m, 0)
        else some (m, -eNoMem)
      else some (m, -eInval) := by
  obtain ⟨aligned, below, nonempty, top, -⟩ := space.last_bounds
  have shape : m.mmap.reverse = stack :: last :: lows.reverse := by simp [space.mmap]
  have start := (mallocStop_spec (n := n) aligned (below.trans_lt (nonempty.trans_le top))).1
  rw [doMalloc, shape]
  dsimp only
  rw [start, if_neg (fun both => lt_irrefl _ both.1)]

/-- The new region goes between the last two. -/
theorem UserSpace.grow (space : UserSpace m lows last stack)
    (access : UserAccess last.vmEnd (mallocStop last n)) (fits : mallocStop last n ≤ stack.vmStart) :
    ∃ m', insertVmaStruct m (mallocVma last n) = some m' ∧
      UserSpace m' (lows ++ [last]) (mallocVma last n) stack := by
  obtain ⟨aligned, below, nonempty, top, early⟩ := space.last_bounds
  have aligned' := (mallocStop_spec (n := n) aligned (below.trans_lt (nonempty.trans_le top))).2.1
  have shape : m.mmap = (lows ++ [last]) ++ [stack] := by simp [space.mmap]
  have spared : Spared m.mmap last.vmEnd (mallocStop last n) := by
    rw [shape]
    exact forall_mem_append.mpr ⟨fun v member => .inl (early v member), forall_mem_singleton.mpr (.inr fits)⟩
  have checks := @insertVmaStruct_iff m (mallocVma last n) space.toProper
  obtain ⟨m', inserted⟩ := checks.mpr ⟨access.2.1, spared⟩
  have proper := (space.toProper.insert inserted).1
  have perm := insertVmaStruct_perm inserted
  have old : ∀ {P : Vma → Prop}, P (mallocVma last n) → (∀ v ∈ m.mmap, P v) → ∀ v ∈ m'.mmap, P v :=
    fun new rest v member => forall_mem_cons.mpr ⟨new, rest⟩ v (perm.mem_iff.mp member)
  refine ⟨m', inserted, proper, ?_, old ⟨aligned, aligned'⟩ space.pages, old access.2.2 space.top⟩
  -- there is one way to put the regions in order
  have sorted : Sorted ((lows ++ [last]) ++ [mallocVma last n, stack]) := by
    have before := space.sorted
    rw [shape] at before
    obtain ⟨low, -, cross⟩ := pairwise_append.mp before
    refine pairwise_append.mpr ⟨low, pairwise_pair.mpr fits, fun v member => ?_⟩
    exact forall_mem_cons.mpr ⟨early v member, cross v member⟩
  have same : m'.mmap.Perm ((lows ++ [last]) ++ [mallocVma last n, stack]) :=
    (shape ▸ perm).trans perm_middle.symm
  refine same.eq_of_pairwise (fun v w left right one two => ?_) proper.sorted sorted
  have nonempty := proper.proper v left
  have nonempty' := proper.proper w (same.mem_iff.mpr right)
  omega

/-- A call keeps its promise exactly if it does not reach into the stack. -/
theorem UserSpace.mallocOk_iff (space : UserSpace m lows last stack) (lower : -2 ^ 31 ≤ n)
    (upper : n < 2 ^ 31) : MallocOk m lows last stack n kmalloc ↔ MallocFits m n kmalloc := by
  obtain ⟨aligned, below, nonempty, top, early⟩ := space.last_bounds
  have long := (mallocStop_spec aligned (below.trans_lt (nonempty.trans_le top))).2.2 lower upper
  constructor
  · rintro ⟨m', ret, ran, -⟩ lows' last' stack' same
    obtain ⟨-, same⟩ := append_inj' (space.mmap.symm.trans same) rfl
    obtain ⟨rfl, rfl⟩ : last = last' ∧ stack = stack' := by simpa using same
    rw [doMalloc_eq space] at ran
    split_ifs at ran with access memory
    · obtain ⟨m₁, inserted, -⟩ := Option.bind_eq_some_iff.mp ran
      have gap := ((insertVmaStruct_iff space.toProper).mp ⟨m₁, inserted⟩).2 stack (by simp [space.mmap])
      dsimp only at gap
      exact .inr (.inr (by omega))
    · exact .inl (Bool.eq_false_of_not_eq_true memory)
    · exact .inr (.inl access)
  · intro fits
    have fits := fits lows last stack space.mmap
    unfold MallocOk
    rw [doMalloc_eq space]
    split_ifs with access memory
    · obtain ⟨m', inserted, space'⟩ := space.grow access (by simpa [memory, access] using fits)
      exact ⟨m', 0, by rw [inserted]; rfl, .inl ⟨rfl, _, space', long access.2.1⟩⟩
    · exact ⟨m, -eNoMem, rfl, .inr ⟨by decide, rfl⟩⟩
    · exact ⟨m, -eInval, rfl, .inr ⟨by decide, rfl⟩⟩

/-- Calls of `do_malloc` one after the other, none of which reaches into the stack. -/
inductive MallocRun : Mm → Prop
  | start {m : Mm} {lows : List Vma} {last stack : Vma} : UserSpace m lows last stack → MallocRun m
  | call {m m' : Mm} {n ret : ℤ} {kmalloc : Bool} : MallocRun m → -2 ^ 31 ≤ n → n < 2 ^ 31 →
    MallocFits m n kmalloc → doMalloc m n kmalloc = some (m', ret) → MallocRun m'

/-- In every run whose calls do not reach into the stack the address space stays in order, and
the next call keeps its promise exactly if it does not reach into the stack either. -/
theorem do_malloc_repeatable (run : MallocRun m) :
    ∃ lows last stack, UserSpace m lows last stack ∧ ∀ n kmalloc, -2 ^ 31 ≤ n → n < 2 ^ 31 →
      (MallocOk m lows last stack n kmalloc ↔ MallocFits m n kmalloc) := by
  have space : ∃ lows last stack, UserSpace m lows last stack := by
    induction run with
    | start space => exact ⟨_, _, _, space⟩
    | call run lower upper fits ran ih =>
      obtain ⟨lows, last, stack, space⟩ := ih
      obtain ⟨m₁, ret₁, ran₁, ⟨-, new, space', -⟩ | ⟨-, rfl⟩⟩ := (space.mallocOk_iff lower upper).mpr fits
      · cases ran₁.symm.trans ran
        exact ⟨_, _, _, space'⟩
      · cases ran₁.symm.trans ran
        exact ⟨_, _, _, space⟩
  obtain ⟨lows, last, stack, space⟩ := space
  exact ⟨lows, last, stack, space, fun n kmalloc lower upper => space.mallocOk_iff lower upper⟩

/-- A page of code, a gap of a page, and the stack. -/
def smallSpace : Mm := ⟨[⟨0x800000, 0x801000, vmRead⟩, ⟨0x802000, 0x803000, vmWrite⟩], none, 1, 2, none, 1⟩

theorem smallSpace_run : MallocRun smallSpace := by
  refine @MallocRun.start _ [] _ _ ⟨⟨?_, ?_, by simp [smallSpace]⟩, rfl, ?_, ?_⟩
  · decide
  · exact pairwise_pair.mpr (by decide : 0x801000 ≤ 0x802000)
  · decide
  · decide

/-- A byte fits into the gap. -/
theorem do_malloc_repeatable_byte : ∃ m, doMalloc smallSpace 1 true = some (m, 0) ∧ MallocRun m ∧
    ∃ lows last stack, UserSpace m lows last stack := by
  have fits : MallocFits smallSpace 1 true := by
    intro lows last stack shape
    have shape : [] ++ smallSpace.mmap = lows ++ [last, stack] := shape
    obtain ⟨-, same⟩ := append_inj' shape rfl
    cases same
    exact .inr (.inr (by decide))
  have run : MallocRun _ := .call smallSpace_run (by decide) (by decide) fits rfl
  obtain ⟨lows, last, stack, space, -⟩ := do_malloc_repeatable run
  exact ⟨_, rfl, run, lows, last, stack, space⟩

/-- A page does not: `do_malloc(4096)` wants two pages and fails an assertion. -/
theorem do_malloc_into_stack : MallocRun smallSpace ∧ doMalloc smallSpace 4096 true = none :=
  ⟨smallSpace_run, rfl⟩

end LiNos.Paging
