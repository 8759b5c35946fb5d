import Mathlib.Data.Finset.Prod
import LiNos.Bits
import LiNos.Tally
import LiNos.Paging

/-!
Page directories as maps from pages to frames.

Every frame has a role (`Role`), and `Tables` says how the words in memory fit
the roles: a present directory entry points to a table that belongs to this
entry alone, and a present table entry points to a data frame. Under it a
directory is a map from page numbers to entries (`pteOf`), the writes the kernel
makes are updates of that map, and `get_page` reads it back.

Only the directory slots in `slots` are looked at. The others hold tables that
all directories share, such as those of the kernel, and the entry through which
a directory contains itself.
-/

namespace LiNos.Paging

open Bits Tally
open Function (update update_of_ne update_self)

variable {s s' : Kernel} {slots dirs : Finset ℕ} {d f i j la n t w perm d' flags n' : ℕ}
  {words : ℕ → ℕ}

/-! ## Words and addresses -/

def Present (w : ℕ) : Prop := w &&& pteP ≠ 0

instance (w : ℕ) : Decidable (Present w) := inferInstanceAs (Decidable (_ ≠ _))

theorem Present.ne_zero (there : Present w) : w ≠ 0 := by
  rintro rfl
  exact there rfl

/-- The frame an entry points to. -/
def frameOf (w : ℕ) : ℕ := ppn (pteAddr w)

theorem frameOf_packed (small : f < 2 ^ 20) (low : flags < 2 ^ 12) :
    frameOf (page2pa f ||| flags) = f := by
  have bound : page2pa f ||| flags < 2 ^ (12 + 20) := by
    refine Nat.or_lt_two_pow ?_ (by omega)
    rw [page2pa, Nat.shiftLeft_eq]
    omega
  have masked := and_mask_shiftRight bound
  rw [show page2pa f = f <<< 12 from rfl, packed_shiftRight low] at masked
  exact masked

theorem present_packed (flag : Present flags) : Present (page2pa f ||| flags) := by
  unfold Present at *
  rwa [show page2pa f = f <<< 12 from rfl, packed_and_low (by decide)]

theorem pdeWord_eq : pdeWord t = page2pa t ||| 7 := by
  simp only [pdeWord, Nat.or_assoc]
  rfl

theorem present_pdeWord : Present (pdeWord t) := by
  rw [pdeWord_eq]
  exact present_packed (by decide)

theorem frameOf_pdeWord (small : t < 2 ^ 20) : frameOf (pdeWord t) = t := by
  rw [pdeWord_eq]
  exact frameOf_packed small (by decide)

/-- The entry `page_insert` writes. -/
theorem present_pteWord : Present (page2pa f ||| pteP ||| perm) := by
  rw [Nat.or_assoc]
  refine present_packed ?_
  unfold Present
  rw [Nat.and_comm, Nat.and_or_distrib_left]
  exact fun zero => absurd (Nat.or_eq_zero_iff.mp zero).1 (by decide)

theorem frameOf_pteWord (small : f < 2 ^ 20) (flags : perm < 2 ^ 12) :
    frameOf (page2pa f ||| pteP ||| perm) = f := by
  rw [Nat.or_assoc]
  exact frameOf_packed small (Nat.or_lt_two_pow (by decide) flags)

theorem pdx_eq (bound : la < 2 ^ 32) : pdx la = la / pgSize / 1024 := by
  rw [pdx, Nat.and_two_pow_sub_one_eq_mod _ 10, Nat.shiftRight_eq_div_pow, pgSize]
  omega

theorem ptx_eq : ptx la = la / pgSize % 1024 := by
  rw [ptx, Nat.and_two_pow_sub_one_eq_mod _ 10, Nat.shiftRight_eq_div_pow, pgSize]

/-! ## Entries of a directory -/

/-- The entry for page `n` of a directory; a page without a table has entry 0. -/
def pteOf (s : Kernel) (d n : ℕ) : ℕ :=
  if Present (s.mem d (n / 1024)) then s.mem (frameOf (s.mem d (n / 1024))) (n % 1024) else 0

/-- The frame a page is mapped to. -/
def view (s : Kernel) (x : ℕ × ℕ) : Option ℕ :=
  if Present (pteOf s x.1 x.2) then some (frameOf (pteOf s x.1 x.2)) else none

/-- What a frame is used for. A frame that is `held` has been allocated and is not
in use yet. -/
inductive Role where
  | free
  | held
  | directory
  | table (dir slot : ℕ)
  | data
  | other
deriving DecidableEq, Repr

/-- The pages in the slots of interest. -/
def userPages (slots : Finset ℕ) : Finset ℕ :=
  (Finset.range pageCount).filter fun n => n / 1024 ∈ slots

/-- Every page of every directory. -/
def keys (slots dirs : Finset ℕ) : Finset (ℕ × ℕ) := dirs ×ˢ userPages slots

theorem mem_keys : (d, n) ∈ keys slots dirs ↔ d ∈ dirs ∧ n < pageCount ∧ n / 1024 ∈ slots := by
  simp [keys, userPages]

/-- The words in directories and tables fit the roles of the frames. -/
structure Tables (s : Kernel) (slots dirs : Finset ℕ) (role : ℕ → Role) : Prop where
  npage_le : s.npage ≤ 2 ^ 20
  slot_lt : ∀ i ∈ slots, i < 1024
  bound : ∀ f, role f ≠ .other → f < s.npage
  free : ∀ f, f ∈ s.free ↔ role f = .free
  directory : ∀ d, d ∈ dirs ↔ role d = .directory
  pde : ∀ d ∈ dirs, ∀ i ∈ slots, Present (s.mem d i) →
    ∃ t, s.mem d i = pdeWord t ∧ role t = .table d i
  table : ∀ t d i, role t = .table d i → d ∈ dirs ∧ i ∈ slots ∧ s.mem d i = pdeWord t
  pte : ∀ t d i, role t = .table d i → ∀ j < 1024, Present (s.mem t j) →
    role (frameOf (s.mem t j)) = .data

section Lookup

variable {role : ℕ → Role}

section

variable (tables : Tables s slots dirs role)

include tables

theorem Tables.small (used : role f ≠ .other) : f < 2 ^ 20 :=
  (tables.bound f used).trans_le tables.npage_le

/-- A table holds the entries of its slot. -/
theorem Tables.pteOf_table (is : role t = .table d i)
    (inside : j < 1024) : pteOf s d (i * 1024 + j) = s.mem t j := by
  obtain ⟨-, -, word⟩ := tables.table t d i is
  have slot : (i * 1024 + j) / 1024 = i := by omega
  have index : (i * 1024 + j) % 1024 = j := by omega
  rw [pteOf, slot, index, word, if_pos present_pdeWord,
    frameOf_pdeWord (tables.small (by simp [is]))]

/-- A page has entry 0, for want of a table, or its entry is in the table of its
slot. -/
theorem Tables.entry (known : d ∈ dirs)
    (slot : n / 1024 ∈ slots) :
    (¬ Present (s.mem d (n / 1024)) ∧ pteOf s d n = 0) ∨
      ∃ t, role t = .table d (n / 1024) ∧ s.mem d (n / 1024) = pdeWord t ∧
        pteOf s d n = s.mem t (n % 1024) := by
  by_cases there : Present (s.mem d (n / 1024))
  · obtain ⟨t, word, is⟩ := tables.pde d known _ slot there
    refine .inr ⟨t, is, word, ?_⟩
    have found := tables.pteOf_table is (Nat.mod_lt n (by decide : 0 < 1024))
    rwa [Nat.div_add_mod' n 1024] at found
  · exact .inl ⟨there, by simp [pteOf, there]⟩

/-- A mapped frame is a data frame. -/
theorem Tables.view_data (known : d ∈ dirs)
    (slot : n / 1024 ∈ slots) (mapped : view s (d, n) = some f) : role f = .data := by
  simp only [view] at mapped
  split_ifs at mapped with there
  cases mapped
  rcases tables.entry known slot with ⟨-, zero⟩ | ⟨t, is, -, entry⟩
  · exact absurd zero there.ne_zero
  · rw [entry] at there ⊢
    exact tables.pte t _ _ is _ (Nat.mod_lt n (by decide)) there

theorem Tables.pa2page_eq (used : role (frameOf w) ≠ .other) :
    pa2page s (pteAddr w) = some (frameOf w) :=
  if_neg (Nat.not_le.mpr (tables.bound _ used))

/-- `get_pte(pgdir, la, 0)` finds the table of the slot, if there is one. -/
theorem Tables.findPte_eq (known : d ∈ dirs) (address : la < 2 ^ 32) (slot : pdx la ∈ slots) :
    (findPte s d la = some none ∧ ¬ Present (s.mem d (pdx la)) ∧ pteOf s d (la / pgSize) = 0) ∨
      ∃ t, role t = .table d (pdx la) ∧ findPte s d la = some (some (t, ptx la)) ∧
        Present (s.mem d (pdx la)) ∧ pteOf s d (la / pgSize) = s.mem t (ptx la) := by
  have slots' : la / pgSize / 1024 ∈ slots := by rwa [← pdx_eq address]
  rcases tables.entry known slots' with ⟨absent, zero⟩ | ⟨t, is, word, entry⟩
  · rw [← pdx_eq address] at absent
    refine .inl ⟨?_, absent, zero⟩
    have off : s.mem d (pdx la) &&& pteP = 0 := not_not.mp absent
    simp [findPte, off]
  · rw [← pdx_eq address] at is word
    rw [← ptx_eq] at entry
    have there : Present (s.mem d (pdx la)) := word ▸ present_pdeWord
    have frame : frameOf (s.mem d (pdx la)) = t := by
      rw [word, frameOf_pdeWord (tables.small (by simp [is]))]
    have page := tables.pa2page_eq (w := s.mem d (pdx la)) (by simp [frame, is])
    rw [frame] at page
    refine .inr ⟨t, is, ?_, there, entry⟩
    have on : ¬ s.mem d (pdx la) &&& pteP = 0 := there
    simp [findPte, on, page]

/-- `get_page` reads the map. -/
theorem Tables.getPage_eq (known : d ∈ dirs) (address : la < 2 ^ 32) (slot : pdx la ∈ slots) :
    getPage s d la = some (view s (d, la / pgSize)) := by
  rcases tables.findPte_eq known address slot with ⟨found, -, zero⟩ | ⟨t, is, found, -, entry⟩
  · have nothing : ¬ Present 0 := by decide
    simp [getPage, found, view, zero, nothing]
  · by_cases there : Present (s.mem t (ptx la))
    · have inside : ptx la < 1024 := by
        rw [ptx_eq]
        exact Nat.mod_lt _ (by decide)
      have used := tables.pte t _ _ is _ inside there
      have page := tables.pa2page_eq (w := s.mem t (ptx la)) (by simp [used])
      have on : ¬ s.mem t (ptx la) &&& pteP = 0 := there
      simp [getPage, found, Kernel.pte, on, pte2page, page, view, entry, there]
    · have off : s.mem t (ptx la) &&& pteP = 0 := not_not.mp there
      simp [getPage, found, Kernel.pte, off, view, entry, there]

end

end Lookup

/-! ## Writes -/

section Writes

variable {role : ℕ → Role} {r : Role}

namespace Kernel

@[simp] theorem poke_mem_self : (s.poke f i w).mem f = update (s.mem f) i w := by
  simp [poke]

theorem poke_mem_other (other : t ≠ f) : (s.poke f i w).mem t = s.mem t := by
  simp [poke, other]

@[simp] theorem fill_mem_self : (s.fill f words).mem f = words := by
  simp [fill]

theorem fill_mem_other (other : t ≠ f) : (s.fill f words).mem t = s.mem t := by
  simp [fill, other]

@[simp] theorem setMm_mms_self {mm : ℕ} {m : Mm} : (s.setMm mm m).mms mm = m := by
  simp [setMm]

end Kernel

theorem Kernel.poke_mem (f' i' : ℕ) :
    (s.poke f i w).mem f' i' = if f' = f ∧ i' = i then w else s.mem f' i' := by
  by_cases same : f' = f
  · subst same
    by_cases here : i' = i <;> simp [here]
  · simp [Kernel.poke_mem_other same, same]

/-- Frames that hold directories or tables. -/
def Role.Structural (r : Role) : Prop := r = .directory ∨ ∃ d i, r = .table d i

section

variable (tables : Tables s slots dirs role)

include tables

/-- Writes to frames that hold neither directories nor tables do not matter. -/
theorem Tables.congr (npage : s'.npage = s.npage)
    (free : s'.free = s.free) (mem : ∀ f, (role f).Structural → s'.mem f = s.mem f) :
    Tables s' slots dirs role := by
  have inDir : ∀ d ∈ dirs, s'.mem d = s.mem d := fun d known =>
    mem d (.inl ((tables.directory d).mp known))
  have inTable : ∀ t d i, role t = .table d i → s'.mem t = s.mem t := fun t d i is =>
    mem t (.inr ⟨d, i, is⟩)
  refine ⟨npage ▸ tables.npage_le, tables.slot_lt, npage ▸ tables.bound, free ▸ tables.free,
    tables.directory, fun d known => inDir d known ▸ tables.pde d known, fun t d i is => ?_,
    fun t d i is => inTable t d i is ▸ tables.pte t d i is⟩
  obtain ⟨known, slot, word⟩ := tables.table t d i is
  exact ⟨known, slot, by rw [inDir d known, word]⟩

/-- The entries of a page depend on its directory and its table. -/
theorem Tables.pteOf_congr (mem : ∀ f, (role f).Structural → s'.mem f = s.mem f) (known : d ∈ dirs)
    (slot : n / 1024 ∈ slots) : pteOf s' d n = pteOf s d n := by
  have inDir : s'.mem d = s.mem d := mem d (.inl ((tables.directory d).mp known))
  rcases tables.entry known slot with ⟨absent, zero⟩ | ⟨t, is, word, entry⟩
  · simp [pteOf, inDir, absent]
  · have inTable : s'.mem t = s.mem t := mem t (.inr ⟨_, _, is⟩)
    rw [entry, pteOf, inDir, word, if_pos present_pdeWord,
      frameOf_pdeWord (tables.small (by simp [is])), inTable]

/-- An entry is written. -/
theorem Tables.poke (is : role t = .table d i)
    (fits : Present w → role (frameOf w) = .data) : Tables (s.poke t j w) slots dirs role := by
  have inDir : ∀ d' ∈ dirs, (s.poke t j w).mem d' = s.mem d' := by
    intro d' known
    have directory := (tables.directory d').mp known
    exact Kernel.poke_mem_other (by grind)
  refine { tables with pde := fun d' known => inDir d' known ▸ tables.pde d' known, table := ?_, pte := ?_ }
  · intro t' d' i' is'
    obtain ⟨known, slot, word⟩ := tables.table t' d' i' is'
    exact ⟨known, slot, by rw [inDir d' known, word]⟩
  · intro t' d' i' is' j' inside
    rw [Kernel.poke_mem]
    split_ifs
    · exact fits
    · exact tables.pte t' d' i' is' j' inside

/-- Writing an entry changes the map at one page. -/
theorem Tables.pteOf_poke (is : role t = .table d i)
    (inside : j < 1024) (known : d' ∈ dirs) (slot : n' / 1024 ∈ slots) :
    pteOf (s.poke t j w) d' n' =
      if (d', n') = (d, i * 1024 + j) then w else pteOf s d' n' := by
  have directory := (tables.directory d').mp known
  have notDir : d' ≠ t := by grind
  obtain ⟨-, -, word⟩ := tables.table t d i is
  rcases tables.entry known slot with ⟨absent, zero⟩ | ⟨t', is', word', entry⟩
  · have other : (d', n') ≠ (d, i * 1024 + j) := by
      rintro ⟨⟩
      rw [show (i * 1024 + j) / 1024 = i by omega, word] at absent
      exact absent present_pdeWord
    rw [if_neg other, zero, pteOf, Kernel.poke_mem_other notDir, if_neg absent]
  · rw [pteOf, Kernel.poke_mem_other notDir, word', if_pos present_pdeWord,
      frameOf_pdeWord (tables.small (by simp [is'])), Kernel.poke_mem, entry]
    -- a table belongs to one slot
    refine if_congr ⟨?_, ?_⟩ rfl rfl
    · rintro ⟨rfl, rfl⟩
      obtain ⟨rfl, here⟩ := Role.table.inj (is.symm.trans is')
      rw [here, Nat.div_add_mod']
    · rintro ⟨⟩
      rw [show (i * 1024 + j) / 1024 = i by omega, word] at word'
      have frames := congrArg frameOf word'
      rw [frameOf_pdeWord (tables.small (by simp [is])),
        frameOf_pdeWord (tables.small (by simp [is']))] at frames
      exact ⟨frames.symm, by omega⟩

/-- A frame without structure changes its role; one that ceases to be a data
frame must not be mapped. -/
theorem Tables.retag (npage : s'.npage = s.npage)
    (mem : s'.mem = s.mem) (before : ¬ (role f).Structural) (after : ¬ r.Structural)
    (used : role f ≠ .other) (unmapped : r = .data ∨ ∀ x ∈ keys slots dirs, view s x ≠ some f)
    (free : ∀ g, g ∈ s'.free ↔ if g = f then r = .free else g ∈ s.free) :
    Tables s' slots dirs (update role f r) := by
  have notDir : role f ≠ .directory ∧ r ≠ .directory := ⟨fun is => before (.inl is), fun is => after (.inl is)⟩
  have notTable : ∀ d i, role f ≠ .table d i ∧ r ≠ .table d i :=
    fun d i => ⟨fun is => before (.inr ⟨d, i, is⟩), fun is => after (.inr ⟨d, i, is⟩)⟩
  have sameTable : ∀ t d i, update role f r t = .table d i → role t = .table d i := by
    grind [Function.update_apply]
  refine ⟨npage ▸ tables.npage_le, tables.slot_lt, ?_, ?_, ?_, ?_, ?_, ?_⟩
  · have bound := tables.bound
    rw [npage]
    grind [Function.update_apply]
  · have old := tables.free
    grind [Function.update_apply]
  · have old := tables.directory
    grind [Function.update_apply]
  · intro d known i slot there
    rw [mem] at there ⊢
    obtain ⟨t, word, is⟩ := tables.pde d known i slot there
    exact ⟨t, word, by rwa [update_of_ne (by grind)]⟩
  · intro t d i is
    rw [mem]
    exact tables.table t d i (sameTable t d i is)
  · intro t d i is j inside there
    have is' := sameTable t d i is
    rw [mem] at there ⊢
    by_cases same : frameOf (s.mem t j) = f
    · rw [same, update_self]
      refine unmapped.resolve_right fun never => ?_
      obtain ⟨known, slot, -⟩ := tables.table t d i is'
      have small := tables.slot_lt i slot
      refine never (d, i * 1024 + j) ?_ ?_
      · rw [mem_keys, show (i * 1024 + j) / 1024 = i by omega]
        exact ⟨known, by unfold pageCount; omega, slot⟩
      · simp only [view, tables.pteOf_table is' inside, if_pos there, same]
    · rw [update_of_ne same]
      exact tables.pte t d i is' j inside there

/-- A frame that is held becomes the table of a slot that has none. -/
theorem Tables.install (held : role f = .held)
    (known : d ∈ dirs) (slot : i ∈ slots) (absent : ¬ Present (s.mem d i)) :
    Tables ((s.fill f fun _ => 0).poke d i (pdeWord f)) slots dirs
      (update role f (.table d i)) := by
  have notDir : ∀ d' ∈ dirs, d' ≠ f := by grind [tables.directory]
  have inDir : ∀ d' ∈ dirs, ∀ i', ((s.fill f fun _ => 0).poke d i (pdeWord f)).mem d' i' =
      if d' = d ∧ i' = i then pdeWord f else s.mem d' i' := by
    intro d' inside i'
    rw [Kernel.poke_mem, Kernel.fill_mem_other (notDir d' inside)]
  have there : ∀ t, Present (pdeWord t) := fun t => present_pdeWord
  refine ⟨tables.npage_le, tables.slot_lt, ?_, ?_, ?_, ?_, ?_, ?_⟩
  · have bound := tables.bound
    exact fun g used => bound g (by grind [Function.update_apply])
  · intro g
    refine (tables.free g).trans ?_
    grind [Function.update_apply]
  · have directory := tables.directory
    grind [Function.update_apply]
  · intro d' inside i' slot' there
    rw [inDir d' inside] at there ⊢
    split_ifs at there ⊢ with here
    · exact ⟨f, rfl, by simp [here]⟩
    · obtain ⟨t, word, is⟩ := tables.pde d' inside i' slot' there
      exact ⟨t, word, by rwa [update_of_ne (by grind)]⟩
  · intro t d' i' is
    have old := tables.table t d' i'
    grind [Function.update_apply]
  · intro t d' i' is j' inside there
    have directory := (tables.directory d).mp known
    by_cases same : t = f
    · rw [same, Kernel.poke_mem_other (notDir d known).symm, Kernel.fill_mem_self] at there
      exact absurd there (show ¬ Present 0 by decide)
    · rw [update_of_ne same] at is
      rw [Kernel.poke_mem_other (by grind), Kernel.fill_mem_other same] at there ⊢
      have data := tables.pte t d' i' is j' inside there
      rwa [update_of_ne (by grind)]

/-- A new table has no entries yet. -/
theorem Tables.pteOf_install (held : role f = .held)
    (known : d ∈ dirs) (slot : i ∈ slots) (absent : ¬ Present (s.mem d i))
    (known' : d' ∈ dirs) (slot' : n' / 1024 ∈ slots) :
    pteOf ((s.fill f fun _ => 0).poke d i (pdeWord f)) d' n' = pteOf s d' n' := by
  have directory := (tables.directory d).mp known
  have directory' := (tables.directory d').mp known'
  have notDir : d' ≠ f := by grind
  by_cases here : d' = d ∧ n' / 1024 = i
  · obtain ⟨rfl, rfl⟩ := here
    have is : update role f (.table d' (n' / 1024)) f = .table d' (n' / 1024) := by simp
    have entry := (tables.install held known slot absent).pteOf_table is (Nat.mod_lt n' (by decide : 0 < 1024))
    rw [Nat.div_add_mod' n' 1024] at entry
    rw [entry, Kernel.poke_mem_other notDir.symm, Kernel.fill_mem_self, pteOf, if_neg absent]
  · rw [pteOf, Kernel.poke_mem, if_neg here, Kernel.fill_mem_other notDir]
    rcases tables.entry known' slot' with ⟨none, zero⟩ | ⟨t, is, word, entry⟩
    · rw [zero, if_neg none]
    · rw [entry, word, if_pos present_pdeWord, frameOf_pdeWord (tables.small (by simp [is])),
        Kernel.poke_mem_other (by grind), Kernel.fill_mem_other (by grind)]

end

end Writes

end LiNos.Paging
