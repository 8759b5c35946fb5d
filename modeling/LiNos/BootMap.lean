import LiNos.FramePool
import LiNos.PageRuns

/-!
Linear mapping of a segment at boot (`boot_map_segment`).

The loop enters one page after the other, with a page table for every slot that has none
yet. The frames that are mapped have no reference counts, and some are no frames of memory,
so nothing is said of them; what counts is that the slots have tables of their own
(`OwnTables`). The entry for `VPT`, which names the directory itself, has none: the pages
behind it show the page tables that are set up on the way.
-/

namespace LiNos.Paging

open Bits Option
open Function (update update_of_ne update_self)

variable {s s' : Kernel} {slots range : Finset ℕ} {d f i j la pa size perm n p q w count : ℕ}

section

variable (policy : Policy)

/-- The loop of `boot_map_segment`. -/
def bootMapLoop (pgdir perm : ℕ) : ℕ → Kernel → ℕ → ℕ → Option Kernel
  | 0, s, _, _ => some s
  | n + 1, s, la, pa => do
    match ← getPte policy s pgdir la with
    | (_, none) => none
    | (s, some ptep) =>
      bootMapLoop pgdir perm n (s.poke ptep.1 ptep.2 (pa ||| pteP ||| perm)) (wrap (la + pgSize)) (wrap (pa + pgSize))

def bootMapSegment (s : Kernel) (pgdir la size pa perm : ℕ) : Option Kernel :=
  if la % pgSize = pa % pgSize then
    let n := roundUp (wrap (size + la % pgSize)) pgSize / pgSize
    bootMapLoop policy pgdir perm n s (roundDown la pgSize) (roundDown pa pgSize)
  else none

end

/-- Address `x` is mapped to the physical address `y` with the permissions `perm`. -/
def MapsTo (s : Kernel) (d x y perm : ℕ) : Prop :=
  let pte := pteOf s d (x / pgSize)
  Present pte ∧ frameOf pte * pgSize + x % pgSize = y ∧ pte &&& 0xFFF = pteP ||| perm

/-- The pages between `ROUNDDOWN(la)` and `ROUNDUP(la + size)`. -/
def InSegment (la size n : ℕ) : Prop := la / pgSize ≤ n ∧ n * pgSize < la + size

/-- A slot that is in use has a table that is neither the directory nor the table of another slot. -/
structure OwnTables (s : Kernel) (d : ℕ) (slots : Finset ℕ) : Prop where
  npage_le : s.npage ≤ 2 ^ 20
  free_lt : ∀ f ∈ s.free, f < s.npage
  directory : d ∉ s.free
  table : ∀ i ∈ slots, Present (s.mem d i) →
    frameOf (s.mem d i) < s.npage ∧ frameOf (s.mem d i) ∉ s.free ∧ frameOf (s.mem d i) ≠ d
  apart : ∀ i ∈ slots, ∀ j ∈ slots, Present (s.mem d i) → Present (s.mem d j) →
    frameOf (s.mem d i) = frameOf (s.mem d j) → i = j

/-- There are frames for the tables that the slots of the range lack. -/
def Room (range : Finset ℕ) (s : Kernel) (d : ℕ) : Prop :=
  (range.filter fun i => ¬ Present (s.mem d i)).card ≤ s.free.card

section Entries

variable (own : OwnTables s d slots)
include own

/-- An entry is written in the table of a slot. -/
theorem OwnTables.poke (slot : i ∈ slots) (there : Present (s.mem d i)) :
    OwnTables (s.poke (frameOf (s.mem d i)) j w) d slots ∧
      (s.poke (frameOf (s.mem d i)) j w).mem d = s.mem d := by
  have same : (s.poke (frameOf (s.mem d i)) j w).mem d = s.mem d :=
    Kernel.poke_mem_other (own.table i slot there).2.2.symm
  refine ⟨⟨own.npage_le, own.free_lt, own.directory, ?_, ?_⟩, same⟩
  · rw [same]
    exact own.table
  · rw [same]
    exact own.apart

theorem OwnTables.pteOf_poke (slot : i ∈ slots) (there : Present (s.mem d i)) (inside : j < 1024)
    (known : n / 1024 ∈ slots) :
    pteOf (s.poke (frameOf (s.mem d i)) j w) d n = if n = i * 1024 + j then w else pteOf s d n := by
  rw [pteOf, (own.poke slot there).2, pteOf]
  by_cases present : Present (s.mem d (n / 1024))
  · have place : frameOf (s.mem d (n / 1024)) = frameOf (s.mem d i) ∧ n % 1024 = j ↔ n = i * 1024 + j := by
      constructor
      · rintro ⟨table, index⟩
        have := own.apart _ known _ slot present there table
        omega
      · rintro rfl
        rw [show (i * 1024 + j) / 1024 = i by omega]
        exact ⟨rfl, by omega⟩
    rw [if_pos present, if_pos present, Kernel.poke_mem, if_congr place rfl rfl]
  · have other : n ≠ i * 1024 + j := by
      rintro rfl
      rw [show (i * 1024 + j) / 1024 = i by omega] at present
      exact present there
    rw [if_neg present, if_neg present, if_neg other]

end Entries

/-! ## A new table -/

/-- The free frame `f` has become the table of slot `i`, which had none. -/
structure NewTable (s s' : Kernel) (d i f : ℕ) : Prop where
  absent : ¬ Present (s.mem d i)
  free : f ∈ s.free
  pde : s'.mem d i = pdeWord f
  others : ∀ j ≠ i, s'.mem d j = s.mem d j
  zeroed : s'.mem f = fun _ => 0
  elsewhere : ∀ t, t ≠ d → t ≠ f → s'.mem t = s.mem t
  frames : s'.free = s.free.erase f
  npage : s'.npage = s.npage

theorem NewTable.present (made : NewTable s s' d i f) : Present (s'.mem d i) := by
  rw [made.pde]
  exact present_pdeWord

theorem NewTable.room (made : NewTable s s' d i f) (member : i ∈ range) (room : Room range s d) :
    Room range s' d := by
  have fewer : (range.filter fun j => ¬ Present (s'.mem d j)) =
      (range.filter fun j => ¬ Present (s.mem d j)).erase i := by
    ext j
    by_cases same : j = i
    · simp [same, made.present]
    · simp [same, made.others j same]
  rw [Room, fewer, made.frames, Finset.card_erase_of_mem (Finset.mem_filter.mpr ⟨member, made.absent⟩),
    Finset.card_erase_of_mem made.free]
  exact Nat.sub_le_sub_right room 1

section Entries

variable (own : OwnTables s d slots)
include own

theorem NewTable.installed (absent : ¬ Present (s.mem d i)) (free : f ∈ s.free) :
    NewTable s ((({ s with free := s.free.erase f }.setPageRef f 1).fill f fun _ => 0).poke d i (pdeWord f)) d i f := by
  have notDir : d ≠ f := fun same => own.directory (same ▸ free)
  refine ⟨absent, free, ?_, ?_, ?_, ?_, rfl, rfl⟩
  · rw [Kernel.poke_mem_self, update_self]
  · intro j other
    rw [Kernel.poke_mem_self, update_of_ne other, Kernel.fill_mem_other notDir]
    rfl
  · rw [Kernel.poke_mem_other notDir.symm, Kernel.fill_mem_self]
  · intro t notDir notNew
    rw [Kernel.poke_mem_other notDir, Kernel.fill_mem_other notNew]
    rfl

section Made

variable (made : NewTable s s' d i f)
include made

theorem NewTable.frame : frameOf (s'.mem d i) = f := by
  rw [made.pde]
  exact frameOf_pdeWord ((own.free_lt f made.free).trans_le own.npage_le)

theorem NewTable.table (slot : j ∈ slots) (there : Present (s'.mem d j)) :
    frameOf (s'.mem d j) < s'.npage ∧ frameOf (s'.mem d j) ∉ s'.free ∧ frameOf (s'.mem d j) ≠ d := by
  rw [made.frames, made.npage]
  by_cases same : j = i
  · rw [same, made.frame own]
    exact ⟨own.free_lt f made.free, Finset.notMem_erase f _, fun dir => own.directory (dir ▸ made.free)⟩
  · rw [made.others j same] at there ⊢
    obtain ⟨inside, taken, other⟩ := own.table j slot there
    exact ⟨inside, fun member => taken (Finset.mem_of_mem_erase member), other⟩

/-- The table of another slot is not the new one. -/
theorem NewTable.kept (slot : j ∈ slots) (there : Present (s.mem d j)) : frameOf (s.mem d j) ≠ f := by
  intro same
  have taken := (own.table j slot there).2.1
  rw [same] at taken
  exact taken made.free

theorem NewTable.ownTables : OwnTables s' d slots := by
  refine ⟨made.npage ▸ own.npage_le, ?_, ?_, fun j slot there => made.table own slot there, ?_⟩
  · intro g member
    rw [made.frames] at member
    rw [made.npage]
    exact own.free_lt g (Finset.mem_of_mem_erase member)
  · rw [made.frames]
    exact fun member => own.directory (Finset.mem_of_mem_erase member)
  · intro j known k known' present present' table
    by_cases first : j = i <;> by_cases second : k = i
    · rw [first, second]
    · rw [first, made.frame own, made.others k second] at table
      rw [made.others k second] at present'
      exact absurd table.symm (made.kept own known' present')
    · rw [second, made.frame own, made.others j first] at table
      rw [made.others j first] at present
      exact absurd table (made.kept own known present)
    · rw [made.others j first] at present table
      rw [made.others k second] at present' table
      exact own.apart j known k known' present present' table

theorem NewTable.pteOf (known : n / 1024 ∈ slots) : pteOf s' d n = pteOf s d n := by
  by_cases same : n / 1024 = i
  · rw [Paging.pteOf, Paging.pteOf, same, if_pos made.present, if_neg made.absent, made.frame own, made.zeroed]
  · rw [Paging.pteOf, Paging.pteOf, made.others _ same]
    split_ifs with present
    · rw [made.elsewhere _ (own.table _ known present).2.2 (made.kept own known present)]
    · rfl

end Made

/-- `get_pte(pgdir, la, 1)` with room for a table: the entry is in the table of the slot, and no
entry changes. -/
theorem OwnTables.getPte (policy : Policy) (slot : pdx la ∈ slots) (member : pdx la ∈ range)
    (room : Room range s d) :
    ∃ s₁, getPte policy s d la = some (s₁, some (frameOf (s₁.mem d (pdx la)), ptx la)) ∧ OwnTables s₁ d slots ∧
      Present (s₁.mem d (pdx la)) ∧ Room range s₁ d ∧ ∀ n, n / 1024 ∈ slots → pteOf s₁ d n = pteOf s d n := by
  by_cases there : Present (s.mem d (pdx la))
  · have page : pa2page s (pteAddr (s.mem d (pdx la))) = some (frameOf (s.mem d (pdx la))) :=
      if_neg (Nat.not_le.mpr (own.table _ slot there).1)
    have on : ¬ s.mem d (pdx la) &&& pteP = 0 := there
    exact ⟨s, by simp [Paging.getPte, on, page], own, there, room, fun _ _ => rfl⟩
  · have off : s.mem d (pdx la) &&& pteP = 0 := not_not.mp there
    cases picked : policy.pick s.free with
    | none =>
      rw [Room, policy.pick_none _ picked, Finset.card_empty, Nat.le_zero, Finset.card_eq_zero,
        Finset.filter_eq_empty_iff] at room
      exact absurd there (room member)
    | some f =>
      have free := policy.pick_mem _ _ picked
      have ran := @installTable_run { s with free := s.free.erase f } d f la (own.free_lt f free) own.npage_le
      have made := NewTable.installed own there free
      refine ⟨_, ?_, made.ownTables own, made.present, made.room member room, fun n known => made.pteOf own known⟩
      rw [made.frame own]
      simp only [Paging.getPte, off, if_true, allocPage, allocPagesLoop, picked, bind_eq_bind, bind_some, ran]

end Entries

/-! ## The loop -/

/-- One round enters one page and changes no other entry. -/
theorem OwnTables.mapPage (policy : Policy) (w : ℕ) (own : OwnTables s d slots) (room : Room range s d)
    (part : range ⊆ slots) (covered : p / 1024 ∈ range) (fits : p < 2 ^ 20) :
    ∃ s₁ ptep, Paging.getPte policy s d (wrap (p * pgSize)) = some (s₁, some ptep) ∧
      OwnTables (s₁.poke ptep.1 ptep.2 w) d slots ∧ Room range (s₁.poke ptep.1 ptep.2 w) d ∧
      ∀ n, n / 1024 ∈ slots → pteOf (s₁.poke ptep.1 ptep.2 w) d n = if n = p then w else pteOf s d n := by
  have dirIndex : pdx (wrap (p * pgSize)) = p / 1024 := by
    rw [wrap, pdx_eq (Nat.mod_lt _ (by decide)), pgSize]
    omega
  have tableIndex : ptx (wrap (p * pgSize)) = p % 1024 := by
    rw [ptx_eq, wrap, pgSize]
    omega
  have member : pdx (wrap (p * pgSize)) ∈ range := dirIndex.symm ▸ covered
  obtain ⟨s₁, got, own₁, there, room₁, same⟩ := own.getPte policy (part member) member room
  obtain ⟨own₂, dir⟩ := own₁.poke (j := ptx (wrap (p * pgSize))) (w := w) (part member) there
  refine ⟨s₁, _, got, own₂, ?_, ?_⟩
  · rw [Room, dir]
    exact room₁
  · intro n known
    rw [own₁.pteOf_poke (part member) there (by omega) known, dirIndex, tableIndex, Nat.div_add_mod' p 1024,
      same n known]

theorem OwnTables.bootMapLoop (policy : Policy) (perm p q : ℕ) (own : OwnTables s d slots)
    (room : Room range s d) (part : range ⊆ slots)
    (covers : ∀ n, p ≤ n → n < p + count → n / 1024 ∈ range) (fits : p + count ≤ 2 ^ 20) :
    ∃ s', bootMapLoop policy d perm count s (wrap (p * pgSize)) (page2pa (q % 2 ^ 20)) = some s' ∧
      ∀ n, n / 1024 ∈ slots → pteOf s' d n =
        if p ≤ n ∧ n < p + count then page2pa ((q + (n - p)) % 2 ^ 20) ||| pteP ||| perm else pteOf s d n := by
  induction count generalizing s p q with
  | zero => exact ⟨s, rfl, fun n _ => (if_neg (by omega)).symm⟩
  | succ count ih =>
    obtain ⟨s₁, ptep, got, own₁, room₁, entered⟩ := own.mapPage policy (page2pa (q % 2 ^ 20) ||| pteP ||| perm)
      room part (covers p le_rfl (by omega)) (by omega)
    obtain ⟨s', ran, entries⟩ := ih (p + 1) (q + 1) own₁ room₁
      (fun n low high => covers n (by omega) (by omega)) (by omega)
    have nextLa : wrap (wrap (p * pgSize) + pgSize) = wrap ((p + 1) * pgSize) := by
      simp only [wrap, pgSize]
      omega
    have nextPa : wrap (page2pa (q % 2 ^ 20) + pgSize) = page2pa ((q + 1) % 2 ^ 20) := by
      simp only [wrap, page2pa, pgSize, Nat.shiftLeft_eq]
      omega
    refine ⟨s', ?_, ?_⟩
    · simp only [Paging.bootMapLoop, got, bind_eq_bind, bind_some, nextLa, nextPa, ran]
    · intro n known
      rw [entries n known, entered n known]
      by_cases first : n = p
      · rw [if_neg (by omega), if_pos first, if_pos (by omega), first, Nat.sub_self, Nat.add_zero]
      · by_cases later : p + 1 ≤ n ∧ n < p + 1 + count
        · rw [if_pos later, if_pos (by omega), show q + 1 + (n - (p + 1)) = q + (n - p) by omega]
        · rw [if_neg later, if_neg first, if_neg (by omega)]

/-! ## The segment -/

/-- Every address of the segment is mapped to its physical address; a page outside, whose slot has
a table of its own, is mapped as before. -/
theorem boot_map_segment_linear (policy : Policy) (own : OwnTables s d slots) (word : la < 2 ^ 32)
    (word' : pa < 2 ^ 32) (flags : perm < 2 ^ 12) (offsets : la % pgSize = pa % pgSize)
    (fits : la + size ≤ 2 ^ 32) (rounds : size + la % pgSize + pgSize ≤ 2 ^ 32)
    (covers : ∀ n, InSegment la size n → n / 1024 ∈ range) (part : range ⊆ slots) (room : Room range s d) :
    ∃ s', bootMapSegment policy s d la size pa perm = some s' ∧
      (∀ x, la ≤ x → x < la + size → MapsTo s' d x (wrap (pa + (x - la))) perm) ∧
      ∀ n, n / 1024 ∈ slots → ¬ InSegment la size n → pteOf s' d n = pteOf s d n := by
  have pages : ∀ n, InSegment la size n ↔
      la / pgSize ≤ n ∧ n < la / pgSize + roundUp (wrap (size + la % pgSize)) pgSize / pgSize := by
    intro n
    simp only [InSegment, roundUp, roundDown, wrap, pgSize] at rounds ⊢
    omega
  have start : roundDown la pgSize = wrap (la / pgSize * pgSize) := by
    simp only [roundDown, wrap, pgSize]
    omega
  have start' : roundDown pa pgSize = page2pa (pa / pgSize % 2 ^ 20) := by
    simp only [roundDown, page2pa, pgSize, Nat.shiftLeft_eq]
    omega
  obtain ⟨s', ran, entries⟩ := own.bootMapLoop policy perm (la / pgSize) (pa / pgSize) room part
    (fun n low high => covers n ((pages n).mpr ⟨low, high⟩))
    (by simp only [roundUp, roundDown, wrap, pgSize] at rounds ⊢; omega)
  refine ⟨s', ?_, ?_, ?_⟩
  · rw [bootMapSegment, if_pos offsets, start, start']
    exact ran
  · intro x low high
    have inside : InSegment la size (x / pgSize) := by
      simp only [InSegment, pgSize]
      omega
    rw [MapsTo, entries _ (part (covers _ inside)), if_pos ((pages _).mp inside)]
    refine ⟨present_pteWord, ?_, ?_⟩
    · rw [frameOf_pteWord (Nat.mod_lt _ (by decide)) flags]
      simp only [wrap, pgSize] at offsets ⊢
      omega
    · rw [Nat.or_assoc, page2pa, packed_and_low (by decide), Nat.and_two_pow_sub_one_eq_mod _ 12]
      exact Nat.mod_eq_of_lt (Nat.or_lt_two_pow (by decide) flags)
  · intro n known outside
    rw [entries n known, if_neg (mt (pages n).mpr outside)]

/-- The directory in frame 0 names itself in the entry for `VPT`, as `pmm_init` sets it up. -/
def selfMapped : Kernel :=
  { smallKernel with mem := fun f i => if f = 0 ∧ i = 1003 then page2pa 0 ||| pteP ||| pteW else 0 }

theorem selfMapped_own : OwnTables selfMapped 0 {768} := by
  have absent : ∀ i ∈ ({768} : Finset ℕ), ¬ Present (selfMapped.mem 0 i) := by decide
  exact ⟨by decide, by decide, by decide, fun i slot there => absurd there (absent i slot),
    fun i slot _ _ there => absurd there (absent i slot)⟩

theorem boot_map_segment_linear_page :
    ∃ s', bootMapSegment lowest selfMapped 0 0xC0000000 0x1000 0 pteW = some s' ∧
      MapsTo s' 0 0xC0000123 0x123 pteW := by
  have covers : ∀ n, InSegment 0xC0000000 0x1000 n → n / 1024 ∈ ({768} : Finset ℕ) := by
    rintro n ⟨low, high⟩
    rw [Finset.mem_singleton]
    simp only [pgSize] at low high
    omega
  have room : Room {768} selfMapped 0 := by
    unfold Room
    decide
  have flags : pteW < 2 ^ 12 := by decide
  have offsets : 0xC0000000 % pgSize = 0 % pgSize := by decide
  obtain ⟨s', ran, maps, -⟩ := boot_map_segment_linear lowest selfMapped_own (by decide) (by decide)
    flags offsets (by decide) (by decide) covers subset_rfl room
  exact ⟨s', ran, maps 0xC0000123 (by decide) (by decide)⟩

/-- The page behind `VPT` that shows the entry of slot 768 is outside the segment; it is not mapped
before, and afterwards it is mapped to the new table. -/
theorem boot_map_segment_shows_tables :
    ∃ s', bootMapSegment lowest selfMapped 0 0xC0000000 0x1000 0 pteW = some s' ∧
      ¬ InSegment 0xC0000000 0x1000 (1003 * 1024 + 768) ∧
      view selfMapped (0, 1003 * 1024 + 768) = none ∧ view s' (0, 1003 * 1024 + 768) = some 1 := by
  refine ⟨_, rfl, ?_, by decide, by decide⟩
  unfold InSegment
  decide

end LiNos.Paging
