import Mathlib.Order.CompletePartialOrder
import Mathlib.Order.Interval.Set.Disjoint
import LiNos.PageTables

/-!
Reference counts of page frames.

`Counted` adds the counts to `Tables`: the count of a data frame is the number
of pages mapped to it, over all directories. The functions of pmm.c that change
mappings keep it, and each has one lemma that says what it does to the map and
which frames it gives back. The runs at the end are arbitrary sequences of
`page_insert`, `page_remove` and `unmap_range`.
-/

namespace LiNos.Paging

open Bits Tally Option
open Function (update update_comm update_of_ne update_self)

variable {s s' s₁ s₂ : Kernel} {slots dirs : Finset ℕ} {role role' role₁ role₂ : ℕ → Role}
  {d f i j la n t w perm fuel middle start stop stop' : ℕ} {policy : Policy} {ptep : PtePtr} {v : ℤ}
  {x : ℕ × ℕ} {gone : Set (ℕ × ℕ)}

/-- Counts are exact: the count of a data frame is the number of pages mapped to
it and not 0, a table is referred to by its directory entry, and frames not in
use have count 0. -/
structure Counted (s : Kernel) (slots dirs : Finset ℕ) (role : ℕ → Role) : Prop where
  tables : Tables s slots dirs role
  idle : ∀ f, role f = .free ∨ role f = .held → s.ref f = 0
  table : ∀ t d i, role t = .table d i → s.ref t = 1
  data : ∀ f, role f = .data → s.ref f = tally (keys slots dirs) (view s) f
  mapped : ∀ f, role f = .data → ∃ x ∈ keys slots dirs, view s x = some f

theorem view_congr (same : pteOf s' x.1 x.2 = pteOf s x.1 x.2) : view s' x = view s x := by
  simp only [view, same]

theorem view_none (absent : ¬ Present (pteOf s x.1 x.2)) : view s x = none :=
  if_neg absent

theorem present_of_view (mapped : view s x = some f) : Present (pteOf s x.1 x.2) := by
  by_contra absent
  rw [view_none absent] at mapped
  cases mapped

section

variable (counted : Counted s slots dirs role)

include counted

theorem Counted.view_data
    (key : x ∈ keys slots dirs) (mapped : view s x = some f) : role f = .data := by
  obtain ⟨known, -, slot⟩ := mem_keys.mp key
  exact counted.tables.view_data known slot mapped

/-- A frame is mapped somewhere exactly if it is a data frame. -/
theorem Counted.data_iff :
    role f = .data ↔ ∃ x ∈ keys slots dirs, view s x = some f :=
  ⟨counted.mapped f, fun ⟨_, key, here⟩ => counted.view_data key here⟩

/-- The map and the counts stay. -/
theorem Counted.of_views (tables : Tables s' slots dirs role)
    (ref : s'.ref = s.ref) (views : ∀ x ∈ keys slots dirs, view s' x = view s x) :
    Counted s' slots dirs role := by
  refine ⟨tables, ref ▸ counted.idle, ref ▸ counted.table, ?_, ?_⟩
  · intro f is
    rw [ref, counted.data f is, tally_congr views]
  · intro f is
    obtain ⟨x, key, here⟩ := counted.mapped f is
    exact ⟨x, key, (views x key).trans here⟩

/-- Roles that change at one frame, between roles that are not counted. -/
theorem Counted.retag {r : Role}
    (tables : Tables s' slots dirs (update role f r)) (after : r ≠ .data)
    (same : ∀ x ∈ keys slots dirs, view s' x = view s x)
    (ref : ∀ g, g ≠ f → s'.ref g = s.ref g) (idle : r = .free ∨ r = .held → s'.ref f = 0)
    (table : ∀ d i, r = .table d i → s'.ref f = 1) :
    Counted s' slots dirs (update role f r) := by
  obtain ⟨-, idleRef, tableRef, data, mapped⟩ := counted
  have old : ∀ g, update role f r g = .data → g ≠ f ∧ role g = .data := by grind [Function.update_apply]
  refine ⟨tables, by grind [Function.update_apply], by grind [Function.update_apply], ?_, ?_⟩
  · intro g is
    rw [ref g (old g is).1, data g (old g is).2, tally_congr same]
  · intro g is
    obtain ⟨x, key, mapped⟩ := mapped g (old g is).2
    exact ⟨x, key, by rw [same x key, mapped]⟩

end

theorem Tables.entries_congr (tables : Tables s slots dirs role)
    (mem : ∀ f, (role f).Structural → s'.mem f = s.mem f) (key : x ∈ keys slots dirs) :
    pteOf s' x.1 x.2 = pteOf s x.1 x.2 := by
  obtain ⟨known, -, slot⟩ := mem_keys.mp key
  exact tables.pteOf_congr mem known slot

/-- Writes to frames that hold neither directories nor tables do not matter. -/
theorem Counted.congr (counted : Counted s slots dirs role) (npage : s'.npage = s.npage)
    (free : s'.free = s.free) (ref : s'.ref = s.ref)
    (mem : ∀ f, (role f).Structural → s'.mem f = s.mem f) : Counted s' slots dirs role :=
  counted.of_views (counted.tables.congr npage free mem) ref
    fun _ key => view_congr (counted.tables.entries_congr mem key)

theorem free_notStructural : ¬ Role.Structural .free := by simp [Role.Structural]
theorem held_notStructural : ¬ Role.Structural .held := by simp [Role.Structural]
theorem data_notStructural : ¬ Role.Structural .data := by simp [Role.Structural]

/-! ## alloc_page and free_page -/

/-- A free frame is taken. -/
theorem Counted.take (counted : Counted s slots dirs role) (member : f ∈ s.free) :
    Counted { s with free := s.free.erase f } slots dirs (update role f .held) := by
  have is := (counted.tables.free f).mp member
  have unmapped : ∀ x ∈ keys slots dirs, view s x ≠ some f := by
    intro x key mapped
    cases is.symm.trans (counted.view_data key mapped)
  refine counted.retag ?_ (by simp) (fun _ _ => rfl) (fun _ _ => rfl)
    (fun _ => counted.idle f (.inl is)) (by simp)
  refine counted.tables.retag rfl rfl (is ▸ free_notStructural) held_notStructural
    (by simp [is]) (.inr unmapped) ?_
  grind [Function.update_apply]

/-- A frame that was never used is given back. -/
theorem Counted.give_back (counted : Counted s slots dirs role) (is : role f = .held) :
    ∃ s', freePage s f = some s' ∧ Counted s' slots dirs (update role f .free) ∧
      s' = { s with free := insert f s.free, ref := update s.ref f 0 } := by
  have absent : f ∉ s.free := by
    rw [counted.tables.free f, is]
    simp
  have unmapped : ∀ x ∈ keys slots dirs, view s x ≠ some f := by
    intro x key mapped
    cases is.symm.trans (counted.view_data key mapped)
  refine ⟨_, if_neg absent, ?_, rfl⟩
  refine counted.retag ?_ (by simp) (fun _ _ => rfl)
    (fun g other => by simp [other]) (by simp) (by simp)
  refine counted.tables.retag rfl rfl (is ▸ held_notStructural) free_notStructural
    (by simp [is]) (.inr unmapped) ?_
  grind [Function.update_apply]

/-- `alloc_page` when nothing can be swapped out: it takes a free frame; without
one it returns `NULL` or, once `swap_init` has run, dereferences
`check_mm_struct`. -/
theorem allocPage_cases (policy : Policy) (normal : s.checkMm = none) :
    (∃ f ∈ s.free, allocPage policy s = some ({ s with free := s.free.erase f }, some f)) ∨
      s.free = ∅ ∧ allocPage policy s = if s.swapInitOk then none else some (s, none) := by
  cases picked : policy.pick s.free with
  | some f =>
    refine .inl ⟨f, policy.pick_mem _ _ picked, ?_⟩
    simp [allocPage, allocPagesLoop, picked]
  | none =>
    refine .inr ⟨policy.pick_none _ picked, ?_⟩
    simp [allocPage, allocPagesLoop, picked, normal]

/-! ## get_pte -/

/-- What `get_pte` may do besides finding an entry: one free frame becomes the
table of the slot. The map, the frames in use and their contents stay. -/
structure Grown (slots dirs : Finset ℕ) (s : Kernel) (role : ℕ → Role) (s' : Kernel)
    (role' : ℕ → Role) (d i : ℕ) : Prop where
  counted : Counted s' slots dirs role'
  kept : ∀ f, role f ≠ .free → role' f = role f
  used : ∀ f, role f = .free → role' f = .free ∨ role' f = .table d i
  entries : ∀ x ∈ keys slots dirs, pteOf s' x.1 x.2 = pteOf s x.1 x.2
  mem : ∀ f, role f ≠ .free → f ≠ d → s'.mem f = s.mem f
  dir : ∀ k, k ≠ i → s'.mem d k = s.mem d k
  ref : ∀ f, role f ≠ .free → s'.ref f = s.ref f
  rest : s' = { s with mem := s'.mem, ref := s'.ref, free := s'.free }

theorem Grown.refl (counted : Counted s slots dirs role) : Grown slots dirs s role s role d i :=
  ⟨counted, fun _ _ => rfl, fun _ is => .inl is, fun _ _ => rfl, fun _ _ _ => rfl, fun _ _ => rfl,
    fun _ _ => rfl, rfl⟩

theorem Grown.view_eq (grown : Grown slots dirs s role s' role' d i)
    (key : x ∈ keys slots dirs) : view s' x = view s x :=
  view_congr (grown.entries x key)

theorem installTable_run (inside : f < s.npage) (small : s.npage ≤ 2 ^ 20) :
    installTable s d la f =
      some (((s.setPageRef f 1).fill f fun _ => 0).poke d (pdx la) (pdeWord f), some (f, ptx la)) := by
  have page : pa2page (s.setPageRef f 1) (page2pa f) = some f := by
    have shifted : ppn (page2pa f) = f := by
      rw [ppn, page2pa, Nat.shiftLeft_shiftRight]
    rw [pa2page, shifted]
    exact if_neg (Nat.not_le.mpr inside)
  have again : pa2page (((s.setPageRef f 1).fill f fun _ => 0).poke d (pdx la) (pdeWord f))
      (pteAddr (pdeWord f)) = some f := by
    have frame : ppn (pteAddr (pdeWord f)) = f := frameOf_pdeWord (inside.trans_le small)
    rw [pa2page, frame]
    exact if_neg (Nat.not_le.mpr inside)
  simp only [installTable, page, bind_eq_bind, bind_some, Kernel.poke_mem_self, update_self, again]

section

variable (counted : Counted s slots dirs role) (known : d ∈ dirs) (slot : pdx la ∈ slots)
include counted known slot

/-- The table `get_pte` sets up. -/
theorem installTable_spec (held : role f = .held) (absent : ¬ Present (s.mem d (pdx la))) :
    installTable s d la f =
        some (((s.setPageRef f 1).fill f fun _ => 0).poke d (pdx la) (pdeWord f),
          some (f, ptx la)) ∧
      Counted (((s.setPageRef f 1).fill f fun _ => 0).poke d (pdx la) (pdeWord f)) slots dirs
        (update role f (.table d (pdx la))) := by
  have reffed : Tables (s.setPageRef f 1) slots dirs role :=
    counted.tables.congr rfl rfl fun _ _ => rfl
  constructor
  · exact installTable_run (counted.tables.bound f (by simp [held])) counted.tables.npage_le
  · refine counted.retag (reffed.install held known slot absent) (by simp) ?_ ?_
      (by simp) ?_
    · intro x key
      obtain ⟨known', -, slot'⟩ := mem_keys.mp key
      exact view_congr (reffed.pteOf_install held known slot absent known' slot')
    · intro g other
      simp [Kernel.poke, Kernel.fill, Kernel.setPageRef, other]
    · intro d' i' same
      simp [Kernel.poke, Kernel.fill, Kernel.setPageRef]

/-- The slot has a table: `get_pte` only looks the entry up. -/
theorem getPte_there (policy : Policy) (there : Present (s.mem d (pdx la))) :
    ∃ t, getPte policy s d la = some (s, some (t, ptx la)) ∧ role t = .table d (pdx la) := by
  obtain ⟨t, word, is⟩ := counted.tables.pde d known _ slot there
  have frame : frameOf (s.mem d (pdx la)) = t := by
    rw [word, frameOf_pdeWord (counted.tables.small (by simp [is]))]
  have page := counted.tables.pa2page_eq (w := s.mem d (pdx la)) (by simp [frame, is])
  rw [frame] at page
  have on : ¬ s.mem d (pdx la) &&& pteP = 0 := there
  refine ⟨t, ?_, is⟩
  simp [getPte, on, page]

/-- The slot has no table yet: a free frame becomes it. -/
theorem Counted.grow (absent : ¬ Present (s.mem d (pdx la))) (member : f ∈ s.free) :
    ∃ s' role', installTable { s with free := s.free.erase f } d la f = some (s', some (f, ptx la)) ∧
      role' f = .table d (pdx la) ∧ Present (s'.mem d (pdx la)) ∧
      Grown slots dirs s role s' role' d (pdx la) := by
  have was := (counted.tables.free f).mp member
  have taken := counted.take member
  obtain ⟨ran, installed⟩ := installTable_spec taken known slot (update_self f .held role) absent
  have notDir : d ≠ f := by
    rintro rfl
    cases was.symm.trans ((counted.tables.directory d).mp known)
  have others : ∀ g, role g ≠ .free → g ≠ f := fun g used same => used (same ▸ was)
  refine ⟨_, _, ran, update_self _ _ (update role f .held), ?_,
    installed, fun g used => by simp [others g used], by grind [Function.update_apply], ?_, ?_, ?_, ?_, rfl⟩
  · rw [Kernel.poke_mem_self, update_self]
    exact present_pdeWord
  · intro x key
    obtain ⟨known', -, slot'⟩ := mem_keys.mp key
    have reffed : Tables ({ s with free := s.free.erase f }.setPageRef f 1) slots dirs
        (update role f .held) := taken.tables.congr rfl rfl fun _ _ => rfl
    exact reffed.pteOf_install (update_self _ _ _) known slot absent known' slot'
  · intro g used notHere
    rw [Kernel.poke_mem_other notHere, Kernel.fill_mem_other (others g used)]
    rfl
  · intro k elsewhere
    rw [Kernel.poke_mem_self, update_of_ne elsewhere, Kernel.fill_mem_other notDir]
    rfl
  · intro g used
    simp [Kernel.poke, Kernel.fill, Kernel.setPageRef, others g used]

/-- `get_pte(pgdir, la, 1)`: it finds the entry, with a table set up for it if
need be; or there was no frame for the table and nothing has changed. -/
theorem getPte_spec (policy : Policy) (normal : s.checkMm = none) :
    (s.free = ∅ ∧ getPte policy s d la = if s.swapInitOk then none else some (s, none)) ∨
      ∃ s' role' t, getPte policy s d la = some (s', some (t, ptx la)) ∧
        role' t = .table d (pdx la) ∧
        Grown slots dirs s role s' role' d (pdx la) := by
  by_cases there : Present (s.mem d (pdx la))
  · obtain ⟨t, found, is⟩ := getPte_there counted known slot policy there
    exact .inr ⟨s, role, t, found, is, Grown.refl counted⟩
  · have off : s.mem d (pdx la) &&& pteP = 0 := not_not.mp there
    rcases allocPage_cases policy normal with ⟨f, member, took⟩ | ⟨empty, nothing⟩
    · obtain ⟨s', role', ran, is, -, grown⟩ := counted.grow known slot there member
      refine .inr ⟨s', role', f, ?_, is, grown⟩
      simp only [getPte, off, if_true, took, bind_eq_bind, bind_some, ran]
    · refine .inl ⟨empty, ?_⟩
      simp only [getPte, off, if_true, nothing]
      split <;> rfl

end

/-! ## page_remove_pte -/

/-- What removing a mapping does to an entry. -/
def dropped (w : ℕ) : ℕ := if Present w then 0 else w

theorem dropped_absent : ¬ Present (dropped w) := by
  grind [dropped, show ¬ Present 0 by decide]

theorem dropped_of_absent (absent : ¬ Present w) : dropped w = w := if_neg absent

/-- What removing the mappings of the pages `gone` does: exactly the frames that
are mapped nowhere else become free, and nothing but tables is written. -/
structure Unmapped (slots dirs : Finset ℕ) (s : Kernel) (role : ℕ → Role) (s' : Kernel)
    (role' : ℕ → Role) (gone : Set (ℕ × ℕ)) : Prop where
  counted : Counted s' slots dirs role'
  removed : ∀ x ∈ keys slots dirs, x ∈ gone → pteOf s' x.1 x.2 = dropped (pteOf s x.1 x.2)
  kept : ∀ x ∈ keys slots dirs, x ∉ gone → pteOf s' x.1 x.2 = pteOf s x.1 x.2
  used : ∀ f, role f ≠ .data → role' f = role f
  data : ∀ f, role f = .data → role' f = .data ∨ role' f = .free
  mem : ∀ f, (∀ x ∈ gone, ∀ i, role f ≠ .table x.1 i) → s'.mem f = s.mem f
  ref : ∀ f, (∀ x ∈ keys slots dirs, x ∈ gone → view s x ≠ some f) → s'.ref f = s.ref f
  rest : s' = { s with mem := s'.mem, ref := s'.ref, free := s'.free }

theorem Unmapped.refl (counted : Counted s slots dirs role)
    (already : ∀ x ∈ keys slots dirs, x ∈ gone → ¬ Present (pteOf s x.1 x.2)) :
    Unmapped slots dirs s role s role gone :=
  ⟨counted, fun x key member => (dropped_of_absent (already x key member)).symm, fun _ _ _ => rfl,
    fun _ _ => rfl, fun _ is => .inl is, fun _ _ => rfl, fun _ _ => rfl, rfl⟩

theorem Unmapped.absent (unmapped : Unmapped slots dirs s role s' role' gone)
    (key : x ∈ keys slots dirs) (member : x ∈ gone) : ¬ Present (pteOf s' x.1 x.2) := by
  rw [unmapped.removed x key member]
  exact dropped_absent

theorem Unmapped.view_eq (unmapped : Unmapped slots dirs s role s' role' gone)
    (key : x ∈ keys slots dirs) :
    (x ∈ gone → view s' x = none) ∧ (x ∉ gone → view s' x = view s x) :=
  ⟨fun member => view_none (unmapped.absent key member),
    fun outside => view_congr (unmapped.kept x key outside)⟩

theorem Unmapped.trans {gone gone' : Set (ℕ × ℕ)}
    (first : Unmapped slots dirs s role s₁ role₁ gone)
    (second : Unmapped slots dirs s₁ role₁ s₂ role₂ gone') :
    Unmapped slots dirs s role s₂ role₂ (gone ∪ gone') := by
  refine ⟨second.counted, ?_, ?_, ?_, ?_, ?_, ?_, ?_⟩
  · intro x key member
    by_cases later : x ∈ gone'
    · rw [second.removed x key later]
      by_cases earlier : x ∈ gone
      · rw [dropped_of_absent (first.absent key earlier), first.removed x key earlier]
      · rw [first.kept x key earlier]
    · rw [second.kept x key later]
      exact first.removed x key (member.resolve_right later)
  · intro x key outside
    rw [second.kept x key (fun member => outside (.inr member)),
      first.kept x key (fun member => outside (.inl member))]
  · grind [first.used, second.used]
  · grind [first.data, second.data, second.used]
  · intro f notTable
    rw [second.mem f ?_, first.mem f fun x member => notTable x (.inl member)]
    intro x member i is
    have never := notTable x (.inr member) i
    grind [first.data f, first.used f]
  · intro f never
    rw [second.ref f ?_, first.ref f fun x key member => never x key (.inl member)]
    intro x key member mapped
    have same := first.view_eq key
    have before := never x key (.inr member)
    grind
  · rw [second.rest, first.rest]

/-- The key of an entry of a table. -/
theorem Tables.key_of_table (tables : Tables s slots dirs role) (is : role t = .table d i)
    (inside : j < 1024) : (d, i * 1024 + j) ∈ keys slots dirs := by
  obtain ⟨known, slot, -⟩ := tables.table t d i is
  have small := tables.slot_lt i slot
  rw [mem_keys, show (i * 1024 + j) / 1024 = i by omega]
  exact ⟨known, by unfold pageCount; omega, slot⟩

/-- The entries of all pages after a write to one table entry. -/
theorem Tables.pteOf_poked (tables : Tables s slots dirs role) (is : role t = .table d i)
    (inside : j < 1024) (mem : s'.mem = (s.poke t j w).mem) :
    ∀ x ∈ keys slots dirs,
      pteOf s' x.1 x.2 = if x = (d, i * 1024 + j) then w else pteOf s x.1 x.2 := by
  intro x member
  obtain ⟨known, -, slot⟩ := mem_keys.mp member
  rw [← tables.pteOf_poke is inside known slot]
  simp only [pteOf, mem]

section

variable (counted : Counted s slots dirs role)

include counted

/-- An entry that maps nothing is overwritten with another one. -/
theorem Counted.poke_absent (is : role t = .table d i)
    (inside : j < 1024) (absent : ¬ Present (s.mem t j)) (off : ¬ Present w) :
    Counted (s.poke t j w) slots dirs role := by
  have key := counted.tables.key_of_table is inside
  have entries := counted.tables.pteOf_poked is inside (w := w) rfl
  refine counted.of_views (counted.tables.poke is fun there => absurd there off) rfl fun x member => ?_
  by_cases same : x = (d, i * 1024 + j)
  · subst same
    rw [view_none (by rwa [entries _ key, if_pos rfl]),
      view_none (by rwa [counted.tables.pteOf_table is inside])]
  · exact view_congr (by rw [entries x member, if_neg same])

/-- Clearing one entry, with the count of its frame moved along. -/
private theorem Counted.clear (is : role t = .table d i)
    (inside : j < 1024) (here : view s (d, i * 1024 + j) = some f)
    (tables : Tables s' slots dirs role') (mem : s'.mem = (s.poke t j 0).mem)
    (ref : s'.ref = update s.ref f (s.ref f - 1))
    (last : role' f = .data ∧ s.ref f ≠ 1 ∨ role' f = .free ∧ s.ref f = 1)
    (others : ∀ g, g ≠ f → role' g = role g)
    (rest : s' = { s with mem := s'.mem, ref := s'.ref, free := s'.free }) :
    Unmapped slots dirs s role s' role' {(d, i * 1024 + j)} := by
  have key := counted.tables.key_of_table is inside
  have data := counted.view_data key here
  have entries := counted.tables.pteOf_poked is inside mem
  have hereNow : view s' (d, i * 1024 + j) = none :=
    view_none (by rw [entries _ key, if_pos rfl]; decide)
  have elsewhere : ∀ x ∈ keys slots dirs, x ≠ (d, i * 1024 + j) → view s' x = view s x :=
    fun x member other => view_congr (by rw [entries x member, if_neg other])
  have change : ∀ g, tally (keys slots dirs) (view s') g + (if f = g then 1 else 0) =
      tally (keys slots dirs) (view s) g := by
    intro g
    have moved := tally_change (b := g) key elsewhere
    rw [hereNow, here] at moved
    simpa using moved
  have counts : ∀ g, s'.ref g = if g = f then s.ref f - 1 else s.ref g :=
    fun g => ref ▸ Function.update_apply ..
  refine ⟨⟨tables, ?_, ?_, ?_, ?_⟩, ?_, ?_, ?_, ?_, ?_, ?_, rest⟩
  · grind [counted.idle]
  · grind [counted.table]
  · intro g still
    have moved := change g
    have old := counted.data g
    grind
  · intro g still
    rw [← tally_pos_iff]
    have moved := change g
    have old := counted.data f data
    have positive := fun data => tally_pos_iff.mpr (counted.mapped g data)
    grind
  · intro x member same
    rw [Set.mem_singleton_iff] at same
    rw [entries x member, if_pos same, same]
    exact (if_pos (present_of_view here)).symm
  · intro x member other
    rw [entries x member, if_neg (Set.mem_singleton_iff.not.mp other)]
  · exact fun g notData => others g (by rintro rfl; exact notData data)
  · grind
  · intro g never
    rw [mem]
    exact Kernel.poke_mem_other (by rintro rfl; exact never _ rfl i is)
  · intro g never
    have other : g ≠ f := by
      rintro rfl
      exact never _ key rfl here
    rw [counts, if_neg other]

/-- Removing the last mapping of a frame frees it. -/
theorem Counted.clear_last (is : role t = .table d i)
    (inside : j < 1024) (here : view s (d, i * 1024 + j) = some f) (once : s.ref f = 1) :
    Unmapped slots dirs s role { s.poke t j 0 with
        ref := update s.ref f 0
        free := insert f s.free } (update role f .free) {(d, i * 1024 + j)} := by
  have key := counted.tables.key_of_table is inside
  have data := counted.view_data key here
  have cleared : Tables (s.poke t j 0) slots dirs role :=
    counted.tables.poke is (fun impossible => absurd impossible (by decide))
  have entries := counted.tables.pteOf_poked is inside (w := 0) rfl
  have unique : ∀ x ∈ keys slots dirs, view (s.poke t j 0) x ≠ some f := by
    intro x member mapped
    by_cases same : x = (d, i * 1024 + j)
    · rw [view_none (by rw [entries x member, if_pos same]; decide)] at mapped
      cases mapped
    · rw [view_congr (s := s) (by rw [entries x member, if_neg same])] at mapped
      have count := counted.data f data
      exact same (tally_eq_one_unique (by omega) member mapped key here)
  refine counted.clear is inside here ?_ rfl (by simp [once]) (.inr ⟨by simp, once⟩)
    (fun g other => by simp [other]) rfl
  refine cleared.retag rfl rfl (data ▸ data_notStructural) free_notStructural
    (by simp [data]) (.inr unique) ?_
  grind [Function.update_apply, Kernel.poke]

/-- `page_remove_pte` removes one mapping, and the frame with it if it was the
last. -/
theorem pageRemovePte_spec (is : role t = .table d i) (inside : j < 1024) :
    ∃ s' role', pageRemovePte s (t, j) = some s' ∧
      Unmapped slots dirs s role s' role' {(d, i * 1024 + j)} := by
  have key := counted.tables.key_of_table is inside
  have entry := counted.tables.pteOf_table is inside
  by_cases there : Present (s.mem t j)
  · have here : view s (d, i * 1024 + j) = some (frameOf (s.mem t j)) := by
      simp only [view, entry, if_pos there]
    generalize named : frameOf (s.mem t j) = f at here
    have data := counted.view_data key here
    have on : ¬ s.pte (t, j) &&& pteP = 0 := there
    have page : pte2page s (s.pte (t, j)) = some f := by
      have found := counted.tables.pa2page_eq (w := s.mem t j) (by simp [named, data])
      rw [named] at found
      rw [pte2page, if_neg on]
      exact found
    by_cases once : s.ref f = 1
    · have notFree : f ∉ s.free := by
        rw [counted.tables.free f, data]
        simp
      refine ⟨_, _, ?_, counted.clear_last is inside here once⟩
      simp [pageRemovePte, on, page, Kernel.setPageRef, once, freePage, notFree, Kernel.poke]
    · have more : s.ref f - 1 ≠ 0 := by omega
      have cleared : Tables (s.poke t j 0) slots dirs role :=
        counted.tables.poke is (fun impossible => absurd impossible (by decide))
      have tables : Tables { s.poke t j 0 with ref := update s.ref f (s.ref f - 1) } slots
          dirs role := cleared.congr rfl rfl fun _ _ => rfl
      refine ⟨_, role, ?_, counted.clear is inside here tables rfl rfl (.inl ⟨data, once⟩)
        (fun _ _ => rfl) rfl⟩
      simp [pageRemovePte, on, page, Kernel.setPageRef, more, Kernel.poke]
  · have off : s.pte (t, j) &&& pteP = 0 := not_not.mp there
    refine ⟨s, role, by simp [pageRemovePte, off], Unmapped.refl counted ?_⟩
    intro x _ same
    rw [same, entry]
    exact there

end

/-! ## page_insert -/

/-- What mapping `page` at one page does: the entry of that page is the new one,
a frame that was mapped there and nowhere else becomes free, and nothing but
tables is written. -/
structure Inserted (slots dirs : Finset ℕ) (s : Kernel) (role : ℕ → Role) (s' : Kernel)
    (role' : ℕ → Role) (x : ℕ × ℕ) (page word : ℕ) : Prop where
  counted : Counted s' slots dirs role'
  here : pteOf s' x.1 x.2 = word
  kept : ∀ y ∈ keys slots dirs, y ≠ x → pteOf s' y.1 y.2 = pteOf s y.1 y.2
  becomes : role' page = .data
  used : ∀ f, f ≠ page → role f ≠ .data → role' f = role f
  data : ∀ f, role f = .data → role' f = .data ∨ role' f = .free
  mem : ∀ f, (∀ i, role f ≠ .table x.1 i) → s'.mem f = s.mem f
  rest : s' = { s with mem := s'.mem, ref := s'.ref, free := s'.free }

/-- The word `page_insert` writes. -/
def pteWord (page perm : ℕ) : ℕ := page2pa page ||| pteP ||| perm

theorem Inserted.view_here
    (inserted : Inserted slots dirs s role s' role' x f (pteWord f perm)) (flags : perm < 2 ^ 12) :
    view s' x = some f := by
  have small := inserted.counted.tables.small (f := f) (by simp [inserted.becomes])
  rw [view, inserted.here, pteWord, if_pos present_pteWord, frameOf_pteWord small flags]

/-- Mapping a page that is not mapped. -/
private theorem Counted.map_absent (counted : Counted s slots dirs role) (is : role t = .table d i)
    (inside : j < 1024) (absent : ¬ Present (s.mem t j)) (flags : perm < 2 ^ 12)
    (fresh : role f = .held ∨ role f = .data) :
    Inserted slots dirs s role
      ((s.setPageRef f (s.ref f + 1)).poke t j (pteWord f perm)) (update role f .data)
      (d, i * 1024 + j) f (pteWord f perm) := by
  have key := counted.tables.key_of_table is inside
  have entry := counted.tables.pteOf_table is inside
  have known : role f ≠ .other := by grind
  have plain : ¬ (role f).Structural := by grind [held_notStructural, data_notStructural]
  have frame : frameOf (pteWord f perm) = f := frameOf_pteWord (counted.tables.small known) flags
  have notTable : f ≠ t := by
    rintro rfl
    exact plain (.inr ⟨d, i, is⟩)
  have tagged : Tables s slots dirs (update role f .data) := by
    refine counted.tables.retag rfl rfl plain data_notStructural known (.inl rfl) fun g => ?_
    have free := counted.tables.free g
    grind [Function.update_apply]
  have is' : update role f .data t = .table d i := by
    rwa [update_of_ne (Ne.symm notTable)]
  generalize after : (s.setPageRef f (s.ref f + 1)).poke t j (pteWord f perm) = s'
  have mem : s'.mem = (s.poke t j (pteWord f perm)).mem := by rw [← after]; rfl
  have counts : ∀ g, s'.ref g = if g = f then s.ref f + 1 else s.ref g :=
    fun g => after ▸ Function.update_apply ..
  have entries := counted.tables.pteOf_poked is inside mem
  have tables : Tables s' slots dirs (update role f .data) :=
    (tagged.poke is' (fun _ => by rw [frame, update_self])).congr (by rw [← after]; rfl)
      (by rw [← after]; rfl) fun _ _ => by rw [mem]
  have old : view s (d, i * 1024 + j) = none := view_none (by rw [entry]; exact absent)
  have new : view s' (d, i * 1024 + j) = some f := by
    rw [view, entries _ key, if_pos rfl, frame]
    exact if_pos present_pteWord
  have elsewhere : ∀ x ∈ keys slots dirs, x ≠ (d, i * 1024 + j) → view s' x = view s x :=
    fun x member other => view_congr (by rw [entries x member, if_neg other])
  have change : ∀ g, tally (keys slots dirs) (view s') g =
      tally (keys slots dirs) (view s) g + if f = g then 1 else 0 := by
    intro g
    have moved := tally_change (b := g) key elsewhere
    rw [old, new] at moved
    simpa using moved
  have count : s.ref f = tally (keys slots dirs) (view s) f := by
    rcases fresh with held | data
    · have never : tally (keys slots dirs) (view s) f = 0 := by
        rw [tally_eq_zero_iff]
        intro x member mapped
        cases held.symm.trans (counted.view_data member mapped)
      rw [counted.idle f (.inr held), never]
      rfl
    · exact counted.data f data
  have roles : ∀ g, update role f .data g = if g = f then .data else role g :=
    fun g => Function.update_apply ..
  refine ⟨⟨tables, ?_, ?_, ?_, ?_⟩, ?_, ?_, update_self _ _ _, ?_, ?_, ?_, by rw [← after]; rfl⟩
  · grind [counted.idle]
  · grind [counted.table]
  · intro g data
    have old := counted.data g
    grind
  · intro g data
    rw [← tally_pos_iff, change g]
    have positive := fun data => tally_pos_iff.mpr (counted.mapped g data)
    grind
  · rw [entries _ key, if_pos rfl]
  · intro x member other
    rw [entries x member, if_neg other]
  · exact fun g other _ => update_of_ne other _ _
  · grind
  · intro g never
    rw [mem]
    exact Kernel.poke_mem_other (by rintro rfl; exact never i is)

/-- Mapping a page to the frame it is mapped to already: only its flags change. -/
private theorem Counted.map_same (counted : Counted s slots dirs role) (is : role t = .table d i)
    (inside : j < 1024) (there : Present (s.mem t j)) (flags : perm < 2 ^ 12)
    (same : frameOf (s.mem t j) = f) (mem : s'.mem = (s.poke t j (pteWord f perm)).mem)
    (ref : s'.ref = s.ref) (free : s'.free = s.free)
    (rest : s' = { s with mem := s'.mem, ref := s'.ref, free := s'.free }) :
    Inserted slots dirs s role s' role (d, i * 1024 + j) f (pteWord f perm) := by
  have key := counted.tables.key_of_table is inside
  have entry := counted.tables.pteOf_table is inside
  have data : role f = .data := same ▸ counted.tables.pte t d i is j inside there
  have frame : frameOf (pteWord f perm) = f :=
    frameOf_pteWord (counted.tables.small (by simp [data])) flags
  have entries := counted.tables.pteOf_poked is inside mem
  refine ⟨counted.of_views ?_ ref fun x member => ?_, ?_, ?_, data, fun _ _ _ => rfl,
    fun _ is => .inl is, ?_, rest⟩
  · refine (counted.tables.poke is (fun _ => by rw [frame, data])).congr ?_ free
      fun _ _ => by rw [mem]
    rw [rest]
    rfl
  · by_cases here : x = (d, i * 1024 + j)
    · subst here
      rw [view, entries _ key, if_pos rfl, frame, view, entry, same]
      exact (if_pos present_pteWord).trans (if_pos there).symm
    · exact view_congr (by rw [entries x member, if_neg here])
  · rw [entries _ key, if_pos rfl]
  · intro x member other
    rw [entries x member, if_neg other]
  · intro g never
    rw [mem]
    exact Kernel.poke_mem_other (by rintro rfl; exact never i is)

/-- The count of one frame does not matter to the removal of another. -/
private theorem pageRemovePte_setPageRef (v : ℤ)
    (other : ∀ p, pte2page s (s.pte ptep) = some p → p ≠ f) :
    pageRemovePte (s.setPageRef f v) ptep = (pageRemovePte s ptep).map (·.setPageRef f v) := by
  unfold pageRemovePte
  by_cases off : s.pte ptep &&& pteP = 0
  · rw [if_pos off, if_pos (by exact off)]
    rfl
  · rw [if_neg off, if_neg (by exact off)]
    cases found : pte2page s (s.pte ptep) with
    | none =>
      rw [show pte2page (s.setPageRef f v) ((s.setPageRef f v).pte ptep) = none from found]
      rfl
    | some p =>
      have apart := other p found
      have count : (s.setPageRef f v).ref p = s.ref p := update_of_ne apart _ _
      rw [show pte2page (s.setPageRef f v) ((s.setPageRef f v).pte ptep) = some p from found]
      simp only [bind_eq_bind, bind_some, count]
      by_cases once : s.ref p - 1 = 0
      · by_cases freed : p ∈ s.free
        · simp [Kernel.setPageRef, freePage, once, freed]
        · simp [Kernel.setPageRef, freePage, once, freed, Kernel.poke, update_comm apart]
      · simp [Kernel.setPageRef, once, Kernel.poke, update_comm apart]

@[simp] theorem Kernel.setPageRef_ref_self : (s.setPageRef f v).ref f = v := by
  simp [setPageRef]

@[simp] theorem Kernel.setPageRef_pte :
    (s.setPageRef f v).pte ptep = s.pte ptep := rfl

/-- The part of `page_insert` behind `get_pte`. -/
theorem mapPte_spec (counted : Counted s slots dirs role) (is : role t = .table d i)
    (inside : j < 1024) (flags : perm < 2 ^ 12) (fresh : role f = .held ∨ role f = .data) :
    ∃ s' role', mapPte s (t, j) f perm = some s' ∧
      Inserted slots dirs s role s' role' (d, i * 1024 + j) f (pteWord f perm) := by
  by_cases there : Present (s.mem t j)
  · have on : ¬ s.pte (t, j) &&& pteP = 0 := there
    have data := counted.tables.pte t d i is j inside there
    have page : pte2page s (s.pte (t, j)) = some (frameOf (s.mem t j)) := by
      rw [pte2page, if_neg on]
      exact counted.tables.pa2page_eq (w := s.mem t j) (by simp [data])
    have page' : pte2page (s.setPageRef f (s.ref f + 1)) (s.pte (t, j)) =
        some (frameOf (s.mem t j)) := page
    by_cases same : frameOf (s.mem t j) = f
    · refine ⟨((s.setPageRef f (s.ref f + 1)).setPageRef f (s.ref f)).poke t j (pteWord f perm), role,
        ?_, counted.map_same is inside there flags same rfl ?_ rfl rfl⟩
      · simp [mapPte, on, page', same, pteWord]
      · simp [Kernel.setPageRef, Kernel.poke]
    · -- the old mapping goes first; its frame is not the one whose count was raised
      obtain ⟨s₁, role₁, ran, unmapped⟩ := pageRemovePte_spec counted is inside
      have apart : ∀ p, pte2page s (s.pte (t, j)) = some p → p ≠ f := by
        rw [page]
        rintro p ⟨⟩
        exact same
      have commuted := pageRemovePte_setPageRef (s.ref f + 1) apart
      rw [ran, map_some] at commuted
      have key := counted.tables.key_of_table is inside
      have is₁ : role₁ t = .table d i := by rw [unmapped.used t (by simp [is]), is]
      have absent : ¬ Present (s₁.mem t j) := by
        rw [← unmapped.counted.tables.pteOf_table is₁ inside]
        exact unmapped.absent key rfl
      have before : view s (d, i * 1024 + j) = some (frameOf (s.mem t j)) := by
        rw [view, counted.tables.pteOf_table is inside]
        exact if_pos there
      have away : ∀ x ∈ keys slots dirs, x ∈ ({(d, i * 1024 + j)} : Set (ℕ × ℕ)) →
          view s x ≠ some f := by
        rintro x - rfl
        rw [before]
        simpa using same
      have fresh₁ : role₁ f = .held ∨ role₁ f = .data := by
        rcases fresh with held | data
        · exact .inl (by rw [unmapped.used f (by simp [held]), held])
        · obtain ⟨x, member, mapped⟩ := counted.mapped f data
          refine .inr (unmapped.counted.view_data member ?_)
          rw [(unmapped.view_eq member).2 fun inside => away x member inside mapped, mapped]
      have inserted := unmapped.counted.map_absent is₁ inside absent flags fresh₁
      rw [unmapped.ref f away] at inserted
      refine ⟨_, _, ?_, inserted.counted, inserted.here, ?_, inserted.becomes, ?_, ?_, ?_, ?_⟩
      · simp [mapPte, on, page', same, commuted, pteWord]
      · intro x member other
        rw [inserted.kept x member other, unmapped.kept x member other]
      · grind [inserted.used, unmapped.used]
      · grind [inserted.becomes, inserted.data, inserted.used, unmapped.data]
      · intro g never
        rw [inserted.mem g ?_, unmapped.mem g (by rintro x rfl; exact never)]
        intro i' table
        have other := never i'
        grind [unmapped.data g, unmapped.used g]
      · rw [inserted.rest, unmapped.rest]
  · have off : s.pte (t, j) &&& pteP = 0 := not_not.mp there
    refine ⟨_, _, ?_, counted.map_absent is inside there flags fresh⟩
    simp [mapPte, off, pteWord]

theorem pageNumber_eq (address : la < 2 ^ 32) : pdx la * 1024 + ptx la = la / pgSize := by
  rw [pdx_eq address, ptx_eq]
  omega

theorem ptx_lt (la : ℕ) : ptx la < 1024 := by
  rw [ptx_eq]
  exact Nat.mod_lt _ (by decide)

/-- `page_insert` maps the page, after `get_pte` has made room for its entry; or
there was no frame for a table, and nothing has changed. -/
theorem pageInsert_spec (policy : Policy) (counted : Counted s slots dirs role)
    (normal : s.checkMm = none) (known : d ∈ dirs) (address : la < 2 ^ 32) (slot : pdx la ∈ slots)
    (flags : perm < 2 ^ 12) (fresh : role f = .held ∨ role f = .data) :
    (s.free = ∅ ∧ pageInsert policy s d f la perm =
        if s.swapInitOk then none else some (s, -eNoMem)) ∨
      ∃ s₁ role₁ s' role', pageInsert policy s d f la perm = some (s', 0) ∧
        Grown slots dirs s role s₁ role₁ d (pdx la) ∧
        Inserted slots dirs s₁ role₁ s' role' (d, la / pgSize) f (pteWord f perm) := by
  rcases getPte_spec counted known slot policy normal with
    ⟨empty, none⟩ | ⟨s₁, role₁, t, found, is, grown⟩
  · refine .inl ⟨empty, ?_⟩
    rw [pageInsert, none]
    split <;> rfl
  · have fresh₁ : role₁ f = .held ∨ role₁ f = .data := by
      rwa [grown.kept f (by rcases fresh with same | same <;> simp [same])]
    obtain ⟨s', role', ran, inserted⟩ := mapPte_spec grown.counted is (ptx_lt la) flags fresh₁
    rw [pageNumber_eq address] at inserted
    refine .inr ⟨s₁, role₁, s', role', ?_, grown, inserted⟩
    simp [pageInsert, found, ran]

/-! ## page_remove and unmap_range -/

theorem pageRemove_spec (counted : Counted s slots dirs role) (known : d ∈ dirs)
    (address : la < 2 ^ 32) (slot : pdx la ∈ slots) :
    ∃ s' role', pageRemove s d la = some s' ∧
      Unmapped slots dirs s role s' role' {(d, la / pgSize)} := by
  rcases counted.tables.findPte_eq known address slot with
    ⟨found, -, zero⟩ | ⟨t, is, found, -, -⟩
  · refine ⟨s, role, by simp [pageRemove, found], Unmapped.refl counted ?_⟩
    rintro x - rfl
    rw [zero]
    decide
  · obtain ⟨s', role', ran, unmapped⟩ := pageRemovePte_spec counted is (ptx_lt la)
    rw [pageNumber_eq address] at unmapped
    exact ⟨s', role', by simp [pageRemove, found, ran], unmapped⟩

/-- The pages from `start` up to `stop`. -/
def pageRange (start stop : ℕ) : Set ℕ := Set.Ico (start / pgSize) (stop / pgSize)

theorem pageRange_union (left : start ≤ middle) (right : middle ≤ stop) :
    pageRange start middle ∪ pageRange middle stop = pageRange start stop :=
  Set.Ico_union_Ico_eq_Ico (Nat.div_le_div_right left) (Nat.div_le_div_right right)

theorem pageRange_disjoint :
    Disjoint (pageRange start middle) (pageRange middle stop) :=
  Set.disjoint_left.mpr fun _ left right => Nat.not_lt.mpr right.1 left.2

theorem pageRange_mono (start : ℕ) (further : stop ≤ stop') :
    pageRange start stop ⊆ pageRange start stop' :=
  fun _ inside => ⟨inside.1, inside.2.trans_le (Nat.div_le_div_right further)⟩

/-- The page at an address. -/
theorem pageRange_page : pageRange start (start + pgSize) = {start / pgSize} := by
  have next : (start + pgSize) / pgSize = start / pgSize + 1 :=
    Nat.add_div_right start (by decide)
  rw [pageRange, next]
  ext n
  rw [Set.mem_Ico, Set.mem_singleton_iff]
  omega

theorem page_mem (ahead : start < stop) (whole : stop % pgSize = 0) :
    start / pgSize ∈ pageRange start stop := by
  refine ⟨le_rfl, ?_⟩
  unfold pgSize at *
  omega

/-- The pages from `start` up to `stop` of one directory. -/
def pagesOf (d start stop : ℕ) : Set (ℕ × ℕ) := {x | x.1 = d ∧ x.2 ∈ pageRange start stop}

theorem pagesOf_union (left : start ≤ middle) (right : middle ≤ stop) :
    pagesOf d start middle ∪ pagesOf d middle stop = pagesOf d start stop := by
  ext x
  simp only [pagesOf, ← pageRange_union left right, Set.mem_union, Set.mem_ofPred_eq]
  tauto

theorem pagesOf_mono (d start : ℕ) (further : stop ≤ stop') :
    pagesOf d start stop ⊆ pagesOf d start stop' :=
  fun _ inside => ⟨inside.1, pageRange_mono start further inside.2⟩

theorem pagesOf_page : pagesOf d start (start + pgSize) = {(d, start / pgSize)} := by
  ext x
  simp only [pagesOf, pageRange_page, Set.mem_ofPred_eq, Set.mem_singleton_iff, Prod.ext_iff]

/-- The slots of user addresses are of interest. -/
def UserSlots (slots : Finset ℕ) : Prop := ∀ i < userTop / ptSize, i ∈ slots

theorem user_address (below : la < userTop) : la < 2 ^ 32 := by
  unfold userTop at below
  omega

theorem UserSlots.pdx_mem (user : UserSlots slots) (below : la < userTop) : pdx la ∈ slots := by
  refine user _ ?_
  rw [pdx_eq (user_address below)]
  unfold userTop pgSize ptSize pgSize at *
  omega

theorem UserSlots.key (user : UserSlots slots) (known : d ∈ dirs) (below : n < userTop / pgSize) :
    (d, n) ∈ keys slots dirs := by
  have slot : n / 1024 ∈ slots := user _ (by unfold userTop ptSize pgSize at *; omega)
  refine mem_keys.mpr ⟨known, ?_, slot⟩
  unfold pageCount userTop pgSize at *
  omega

/-- The start of the slot after that of `la`. -/
def nextSlot (la : ℕ) : ℕ := (la / ptSize + 1) * ptSize

/-- The address at which the loops go on behind a slot without a table. -/
theorem skip_slot (below : la < userTop) (aligned : la % pgSize = 0) :
    slotAfter la = nextSlot la ∧ la + pgSize ≤ nextSlot la ∧
      nextSlot la % pgSize = 0 ∧ nextSlot la ≠ 0 := by
  unfold slotAfter nextSlot roundDown wrap ptSize pgSize userTop at *
  omega

/-- The address of the next page. -/
theorem next_page (below : la < userTop) (aligned : la % pgSize = 0) :
    pageAfter la = la + pgSize ∧ (la + pgSize) % pgSize = 0 ∧ la + pgSize ≠ 0 := by
  unfold pageAfter wrap pgSize userTop at *
  omega

/-- A slot without a table has no entries. -/
theorem hole_absent (address : start < 2 ^ 32) (absent : ¬ Present (s.mem d (pdx start)))
    (inside : n ∈ pageRange start (nextSlot start)) : pteOf s d n = 0 := by
  obtain ⟨low, high⟩ := inside
  have same : n / 1024 = pdx start := by
    rw [pdx_eq address]
    unfold nextSlot pgSize ptSize pgSize at *
    omega
  simp only [pteOf, same, if_neg absent]

/-- The body of the loop of `unmap_range`. -/
theorem unmapPte_spec (counted : Counted s slots dirs role) (address : la < 2 ^ 32)
    (is : role t = .table d (pdx la)) :
    ∃ s' role', unmapPte s (t, ptx la) = some s' ∧
      Unmapped slots dirs s role s' role' {(d, la / pgSize)} := by
  rw [← pageNumber_eq address]
  by_cases empty : s.mem t (ptx la) = 0
  · refine ⟨s, role, if_neg (not_not.mpr empty), Unmapped.refl counted ?_⟩
    rintro x - rfl
    rw [counted.tables.pteOf_table is (ptx_lt la), empty]
    decide
  · obtain ⟨s', role', ran, unmapped⟩ := pageRemovePte_spec counted is (ptx_lt la)
    exact ⟨s', role', (if_pos empty).trans ran, unmapped⟩

theorem last_page (ahead : start < stop) (aligned : start % pgSize = 0)
    (whole : stop % pgSize = 0) (last : ¬ start + pgSize < stop) : start + pgSize = stop := by
  unfold pgSize at *
  omega

/-- Behind a slot or a page there is less left to do. -/
private theorem fuel_step {start' : ℕ} (enough : stop - start ≤ (fuel + 1) * pgSize)
    (further : start + pgSize ≤ start') : stop - start' ≤ fuel * pgSize := by
  rw [Nat.add_mul, Nat.one_mul] at enough
  omega

/-- The loop of `unmap_range` comes back with all pages ahead of it unmapped. It
steps over the rest of a slot without a table, in which no page is mapped. -/
theorem unmapLoop_spec (user : UserSlots slots) (known : d ∈ dirs)
    (counted : Counted s slots dirs role) (aligned : start % pgSize = 0) (ahead : start < stop)
    (top : stop ≤ userTop) (whole : stop % pgSize = 0) (enough : stop - start ≤ fuel * pgSize) :
    ∃ s' role', unmapLoop d stop fuel s start = some s' ∧
      Unmapped slots dirs s role s' role' (pagesOf d start stop) := by
  induction fuel generalizing s role start with
  | zero => omega
  | succ fuel ih =>
    have below : start < userTop := ahead.trans_le top
    have address := user_address below
    rcases counted.tables.findPte_eq known address (user.pdx_mem below) with
      ⟨found, absent, -⟩ | ⟨t, is, found, -, -⟩
    · obtain ⟨jump, further, aligned', positive⟩ := skip_slot below aligned
      have hole : ∀ x ∈ keys slots dirs, x ∈ pagesOf d start (nextSlot start) →
          ¬ Present (pteOf s x.1 x.2) := by
        rintro x - ⟨rfl, inside⟩
        rw [hole_absent address absent inside]
        decide
      rw [unmapLoop, found, bind_eq_bind, bind_some]
      rw [jump]
      by_cases more : nextSlot start < stop
      · obtain ⟨s', role', ran, unmapped⟩ :=
          ih counted aligned' more (fuel_step enough further)
        have all := (Unmapped.refl counted hole).trans unmapped
        rw [pagesOf_union (Nat.le_of_add_right_le further) more.le] at all
        rw [if_pos ⟨positive, more⟩]
        exact ⟨s', role', ran, all⟩
      · rw [if_neg fun go => more go.2]
        have within := pagesOf_mono d start (Nat.not_lt.mp more)
        exact ⟨s, role, rfl, Unmapped.refl counted fun x key inside => hole x key (within inside)⟩
    · obtain ⟨forward, aligned', positive⟩ := next_page below aligned
      obtain ⟨s₁, role₁, ran₁, unmapped₁⟩ := unmapPte_spec counted address is
      rw [← pagesOf_page] at unmapped₁
      rw [unmapLoop, found, bind_eq_bind, bind_some]
      dsimp only
      rw [ran₁, bind_eq_bind, bind_some, forward]
      by_cases more : start + pgSize < stop
      · obtain ⟨s', role', ran, unmapped⟩ :=
          ih unmapped₁.counted aligned' more (fuel_step enough le_rfl)
        have all := unmapped₁.trans unmapped
        rw [pagesOf_union (Nat.le_add_right _ _) more.le] at all
        rw [if_pos ⟨positive, more⟩]
        exact ⟨s', role', ran, all⟩
      · rw [if_neg fun go => more go.2]
        have last : start + pgSize = stop := last_page ahead aligned whole more
        rw [last] at unmapped₁
        exact ⟨s₁, role₁, rfl, unmapped₁⟩

/-- `unmap_range` comes back whenever its assertions hold. -/
theorem unmapRange_spec (user : UserSlots slots) (known : d ∈ dirs)
    (counted : Counted s slots dirs role) (ok : RangeOk start stop) :
    ∃ s' role', unmapRange s d start stop = some s' ∧
      Unmapped slots dirs s role s' role' (pagesOf d start stop) := by
  rw [unmapRange, if_pos ok]
  obtain ⟨aligned, whole, -, ahead, top⟩ := ok
  refine unmapLoop_spec user known counted aligned ahead top whole ?_
  unfold pageCount pgSize userTop at *
  omega

end LiNos.Paging
