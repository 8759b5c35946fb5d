import LiNos.PageWork

/-!
Page tables and directories come and go (`exit_range`, `setup_pgdir`,
`put_pgdir`).

`exit_range` gives back the tables of a directory once no page is mapped in it;
it too is work for that directory (`Worked`). A directory without tables can be
given back, and a frame that is held can become one.
-/

namespace LiNos.Paging

open Tally Finset
open Function (update update_of_ne update_self)

variable {s s' s₁ s₂ : Kernel} {slots dirs : Finset ℕ} {role role' role₁ role₂ : ℕ → Role}
  {d f i t fuel k m start stop : ℕ} {words : ℕ → ℕ}

/-! ## Giving a table back -/

/-- The state in which the table `t` of slot `i` is free and the slot is clear. -/
structure Cleared (s s' : Kernel) (d i t : ℕ) : Prop where
  npage : s'.npage = s.npage
  mem : s'.mem = (s.poke d i 0).mem
  free : s'.free = insert t s.free
  ref : s'.ref = update s.ref t 0

theorem Cleared.dir (cleared : Cleared s s' d i t) (d' i' : ℕ) :
    s'.mem d' i' = if d' = d ∧ i' = i then 0 else s.mem d' i' := by
  rw [cleared.mem, Kernel.poke_mem]

theorem Tables.uninstall (tables : Tables s slots dirs role) (is : role t = .table d i)
    (empty : ∀ j < 1024, ¬ Present (s.mem t j)) (cleared : Cleared s s' d i t) :
    Tables s' slots dirs (update role t .free) := by
  obtain ⟨known, slot, word⟩ := tables.table t d i is
  have isDir := (tables.directory d).mp known
  have other : ∀ t' d' i', role t' = .table d' i' → s'.mem t' = s.mem t' := by
    intro t' d' i' is'
    rw [cleared.mem]
    exact Kernel.poke_mem_other (by grind)
  have dir := cleared.dir
  have small : ∀ t d i, role t = .table d i → frameOf (pdeWord t) = t :=
    fun t d i is => frameOf_pdeWord (tables.small (by simp [is]))
  have nothing : ¬ Present 0 := by decide
  obtain ⟨npage_le, slot_lt, bound, free, directory, pde, table, pte⟩ := tables
  refine ⟨cleared.npage ▸ npage_le, slot_lt, ?_, ?_, ?_, ?_, ?_, ?_⟩
  · rw [cleared.npage]
    grind [Function.update_apply]
  · rw [cleared.free]
    grind [Function.update_apply]
  · grind [Function.update_apply]
  · intro d' known' i' slot' there
    rw [dir] at there ⊢
    split_ifs at there ⊢ with here
    · exact absurd there nothing
    · obtain ⟨t', word', is'⟩ := pde d' known' i' slot' there
      exact ⟨t', word', by rwa [update_of_ne (by grind)]⟩
  · intro t' d' i' is'
    have same : t' ≠ t := by grind [Function.update_apply]
    rw [update_of_ne same] at is'
    have old := table t' d' i' is'
    have frame := small t' d' i' is'
    have frame' := small t d i is
    grind
  · intro t' d' i' is' j inside there
    have same : t' ≠ t := by grind [Function.update_apply]
    rw [update_of_ne same] at is'
    rw [other t' d' i' is'] at there ⊢
    rw [update_of_ne (by grind)]
    exact pte t' d' i' is' j inside there

theorem Tables.pteOf_uninstall (tables : Tables s slots dirs role) (is : role t = .table d i)
    (cleared : Cleared s s' d i t) {d' n' : ℕ} (known' : d' ∈ dirs) (slot' : n' / 1024 ∈ slots) :
    pteOf s' d' n' = if d' = d ∧ n' / 1024 = i then 0 else pteOf s d' n' := by
  have isDir := (tables.directory d).mp (tables.table t d i is).1
  have nothing : ¬ Present 0 := by decide
  rw [pteOf, cleared.dir]
  split_ifs with here there
  · rfl
  · rcases tables.entry known' slot' with ⟨none, zero⟩ | ⟨t', is', word, entry⟩
    · exact absurd there none
    · rw [word, frameOf_pdeWord (tables.small (by simp [is'])), cleared.mem,
        Kernel.poke_mem_other (by grind), entry]
  · exact (if_neg there).symm

/-- No page of the directory is mapped. -/
def Vacant (slots dirs : Finset ℕ) (s : Kernel) (d : ℕ) : Prop :=
  ∀ n, (d, n) ∈ keys slots dirs → ¬ Present (pteOf s d n)

/-- A table without mappings is given back. -/
theorem Worked.clear (counted : Counted s slots dirs role)
    (is : role t = .table d i) (vacant : Vacant slots dirs s d) (cleared : Cleared s s' d i t)
    (rest : s' = { s with mem := s'.mem, ref := s'.ref, free := s'.free }) :
    Worked slots dirs d Set.univ s role ∅ s' (update role t .free) ∅ ∧
      Vacant slots dirs s' d := by
  have directory := (counted.tables.directory d).mp (counted.tables.table t d i is).1
  have empty : ∀ j < 1024, ¬ Present (s.mem t j) := by
    intro j small
    rw [← counted.tables.pteOf_table is small]
    exact vacant _ (counted.tables.key_of_table is small)
  have entries : ∀ x ∈ keys slots dirs,
      pteOf s' x.1 x.2 = if x.1 = d ∧ x.2 / 1024 = i then 0 else pteOf s x.1 x.2 := by
    rintro ⟨d', n⟩ key
    obtain ⟨known', -, slot'⟩ := mem_keys.mp key
    exact counted.tables.pteOf_uninstall is cleared known' slot'
  have nothing : ¬ Present 0 := by decide
  have views : ∀ x ∈ keys slots dirs, view s' x = view s x := by
    rintro ⟨d', n⟩ key
    have entry := entries _ key
    have before := vacant n
    grind [view]
  have mem : ∀ g, g ≠ d → s'.mem g = s.mem g := by
    intro g other
    rw [cleared.mem, Kernel.poke_mem_other other]
  have counted' : Counted s' slots dirs (update role t .free) :=
    counted.retag (counted.tables.uninstall is empty cleared) (by simp) views
      (fun g other => by rw [cleared.ref, update_of_ne other]) (fun _ => by rw [cleared.ref, update_self])
      (by simp)
  have mine : OwnedBy slots dirs s role d t := .inr (.inl ⟨i, is⟩)
  refine ⟨⟨counted', by simp, fun g => ?_, fun g outside => ?_, ?_, ?_, fun k => ?_,
    fun alone => alone.congr views, ?_, rest⟩, fun n key => ?_⟩
  · by_cases same : g = t
    · subst same
      exact iff_of_true (.inl (update_self _ _ _)) (.inr (.inl mine))
    · have role_eq : update role t .free g = role g := update_of_ne same _ _
      have owned : OwnedBy slots dirs s' (update role t .free) d g ↔ OwnedBy slots dirs s role d g :=
        OwnedBy.congr (fun n key => views _ key) fun i => by rw [role_eq]
      simp only [Domain, owned, role_eq]
  · exact ⟨update_of_ne (by rintro rfl; exact outside (.inr (.inl mine))) _ _,
      mem g fun same => outside (.inr (.inl (.inl same)))⟩
  · intro x key outside
    rw [entries x key, if_neg fun here => outside ⟨here.1, trivial⟩]
  · intro x key _ f mapped
    have data := counted.view_data key mapped
    exact mem f (by grind)
  · rw [cleared.dir]
    by_cases same : k = i
    · exact .inr ⟨i * 1024, trivial, by omega⟩
    · exact .inl (if_neg fun here => same here.2)
  · intro clean x key
    have before := clean x key
    grind
  · have before := vacant n key
    have entry := entries _ key
    grind

/-! ## exit_range -/

/-- The body of the loop of `exit_range`. -/
theorem exitSlot_spec {la : ℕ} (counted : Counted s slots dirs role) (known : d ∈ dirs)
    (slot : pdx la ∈ slots) (vacant : Vacant slots dirs s d) :
    ∃ s' role', exitSlot s d la = some s' ∧
      Worked slots dirs d Set.univ s role ∅ s' role' ∅ ∧ Vacant slots dirs s' d ∧
      ∀ k, Present (s'.mem d k) ↔ Present (s.mem d k) ∧ k ≠ pdx la := by
  by_cases there : Present (s.mem d (pdx la))
  · obtain ⟨t, word, is⟩ := counted.tables.pde d known _ slot there
    have frame : frameOf (s.mem d (pdx la)) = t := by
      rw [word, frameOf_pdeWord (counted.tables.small (by simp [is]))]
    have page := counted.tables.pa2page_eq (w := s.mem d (pdx la)) (by simp [frame, is])
    rw [frame] at page
    have on : ¬ s.mem d (pdx la) &&& pteP = 0 := there
    have used : t ∉ s.free := by simp [counted.tables.free t, is]
    have cleared : Cleared s (Kernel.poke { s with
        free := insert t s.free
        ref := update s.ref t 0 } d (pdx la) 0) d (pdx la) t := ⟨rfl, rfl, rfl, rfl⟩
    obtain ⟨worked, vacant'⟩ := Worked.clear counted is vacant cleared rfl
    refine ⟨_, _, ?_, worked, vacant', fun k => ?_⟩
    · simp only [exitSlot, on, if_false, page, freePage, used, Option.bind_eq_bind, Option.bind_some]
    · rw [cleared.dir]
      by_cases same : k = pdx la
      · simp [same, show ¬ Present 0 by decide]
      · simp [same]
  · have off : s.mem d (pdx la) &&& pteP = 0 := not_not.mp there
    exact ⟨s, role, by simp [exitSlot, off], Worked.refl counted (by simp), vacant, fun k => by grind⟩

/-- The address of the next slot. -/
private theorem next_table (below : start < userTop) (aligned : start % ptSize = 0) :
    tableAfter start = start + ptSize ∧ (start + ptSize) % ptSize = 0 ∧ start + ptSize ≠ 0 ∧
      pdx start * ptSize = start := by
  rw [pdx_eq (user_address below)]
  unfold tableAfter wrap ptSize pgSize userTop at *
  omega

private theorem table_fuel (enough : stop - start ≤ (fuel + 1) * ptSize) :
    stop - (start + ptSize) ≤ fuel * ptSize := by
  rw [Nat.add_mul, Nat.one_mul] at enough
  omega

section

variable (aligned : start % ptSize = 0) (ahead : start < stop)
include aligned ahead

/-- The slots before the next one are those before this one and this one. -/
private theorem slot_split (here : m * ptSize = start) :
    (k ≠ m ∧ ¬ (start + ptSize ≤ k * ptSize ∧ k * ptSize < stop)) ↔
      ¬ (start ≤ k * ptSize ∧ k * ptSize < stop) := by
  unfold ptSize pgSize at *
  omega

private theorem slot_last (here : m * ptSize = start) (last : ¬ start + ptSize < stop) :
    k ≠ m ↔ ¬ (start ≤ k * ptSize ∧ k * ptSize < stop) := by
  unfold ptSize pgSize at *
  omega

/-- The loop of `exit_range` gives back the tables of all slots ahead of it. -/
theorem exitLoop_spec (user : UserSlots slots) (known : d ∈ dirs)
    (counted : Counted s slots dirs role) (vacant : Vacant slots dirs s d) (top : stop ≤ userTop)
    (enough : stop - start ≤ fuel * ptSize) :
    ∃ s' role', exitLoop d stop fuel s start = some s' ∧
      Worked slots dirs d Set.univ s role ∅ s' role' ∅ ∧ Vacant slots dirs s' d ∧
      ∀ k, Present (s'.mem d k) ↔
        Present (s.mem d k) ∧ ¬ (start ≤ k * ptSize ∧ k * ptSize < stop) := by
  induction fuel generalizing s role start with
  | zero => omega
  | succ fuel ih =>
    have below : start < userTop := ahead.trans_le top
    obtain ⟨forward, aligned', positive, here⟩ := next_table below aligned
    obtain ⟨s₁, role₁, ran₁, worked₁, vacant₁, present₁⟩ :=
      exitSlot_spec counted known (user.pdx_mem below) vacant
    rw [exitLoop, ran₁, Option.bind_eq_bind, Option.bind_some, forward]
    by_cases more : start + ptSize < stop
    · obtain ⟨s', role', ran, worked, vacant', present⟩ :=
        ih aligned' more worked₁.counted vacant₁ (table_fuel enough)
      rw [if_pos ⟨positive, more⟩]
      refine ⟨s', role', ran, worked₁.trans worked, vacant', fun k => ?_⟩
      rw [present k, present₁ k, and_assoc, slot_split aligned ahead here]
    · rw [if_neg fun go => more go.2]
      refine ⟨s₁, role₁, rfl, worked₁, vacant₁, fun k => ?_⟩
      rw [present₁ k, slot_last aligned ahead here more]

end

/-- The slot of some page of the range. -/
def slotRange (start stop : ℕ) : Set ℕ := {i | ∃ n ∈ pageRange start stop, n / 1024 = i}

/-- `exit_range` gives back the tables of all pages of the range. -/
theorem exitRange_spec (user : UserSlots slots) (known : d ∈ dirs)
    (counted : Counted s slots dirs role) (vacant : Vacant slots dirs s d) (ok : RangeOk start stop) :
    ∃ s' role', exitRange s d start stop = some s' ∧
      Worked slots dirs d Set.univ s role ∅ s' role' ∅ ∧ Vacant slots dirs s' d ∧
      ∀ k, Present (s'.mem d k) → Present (s.mem d k) ∧ k ∉ slotRange start stop := by
  rw [exitRange, if_pos ok]
  obtain ⟨aligned, whole, -, ahead, top⟩ := ok
  have aligned' : roundDown start ptSize % ptSize = 0 := by
    unfold roundDown ptSize pgSize
    omega
  have ahead' : roundDown start ptSize < stop := (Nat.sub_le _ _).trans_lt ahead
  have enough : stop - roundDown start ptSize ≤ pageCount * ptSize := by
    unfold pageCount ptSize pgSize userTop at *
    omega
  obtain ⟨s', role', ran, worked, vacant', present⟩ :=
    exitLoop_spec aligned' ahead' user known counted vacant top enough
  refine ⟨s', role', ran, worked, vacant', fun k there => ?_⟩
  obtain ⟨before, outside⟩ := (present k).mp there
  refine ⟨before, ?_⟩
  rintro ⟨n, ⟨low, high⟩, rfl⟩
  apply outside
  unfold roundDown ptSize pgSize at *
  omega

/-! ## Directories -/

theorem keys_mono {dirs' : Finset ℕ} (subset : dirs' ⊆ dirs) : keys slots dirs' ⊆ keys slots dirs := by
  rintro ⟨d, n⟩ key
  obtain ⟨known, inside⟩ := mem_keys.mp key
  exact mem_keys.mpr ⟨subset known, inside⟩

section

variable (bare : ∀ i ∈ slots, ¬ Present (s.mem d i))
include bare

/-- A directory without tables has no pages. -/
theorem bare_vacant : Vacant slots dirs s d := by
  intro n key
  obtain ⟨-, -, slot⟩ := mem_keys.mp key
  rw [pteOf, if_neg (bare _ slot)]
  decide

theorem Tables.dismiss (tables : Tables s slots dirs role) (known : d ∈ dirs)
    (npage : s'.npage = s.npage) (mem : s'.mem = s.mem) (free : s'.free = insert d s.free) :
    Tables s' slots (dirs.erase d) (update role d .free) := by
  have there : ∀ t, Present (pdeWord t) := fun t => present_pdeWord
  obtain ⟨npage_le, slot_lt, bound, free', directory, pde, table, pte⟩ := tables
  refine ⟨npage ▸ npage_le, slot_lt, ?_, ?_, ?_, ?_, ?_, ?_⟩
  · rw [npage]
    grind [Function.update_apply]
  · rw [free]
    grind [Function.update_apply]
  · grind [Function.update_apply]
  · intro d' known' i slot there
    have old := pde d' (mem_of_mem_erase known') i slot (mem ▸ there)
    rw [mem]
    grind [Function.update_apply]
  · intro t d' i is
    have old := table t d' i
    rw [mem]
    grind [Function.update_apply]
  · intro t d' i is j inside there
    rw [mem] at there ⊢
    have old := pte t d' i
    grind [Function.update_apply]

/-- A directory without tables is given back. -/
theorem Counted.dismiss (counted : Counted s slots dirs role) (known : d ∈ dirs) :
    ∃ s', freePage s d = some s' ∧
      s' = { s with free := insert d s.free, ref := update s.ref d 0 } ∧
      Counted s' slots (dirs.erase d) (update role d .free) := by
  have isDir := (counted.tables.directory d).mp known
  have used : d ∉ s.free := by simp [counted.tables.free d, isDir]
  have never : ∀ x ∈ keys slots dirs, x ∉ keys slots (dirs.erase d) → view s x = none := by
    rintro ⟨d', n⟩ key outside
    obtain rfl : d' = d := by
      rw [mem_keys] at key outside
      grind
    exact view_none (bare_vacant bare n key)
  have other : ∀ g r, r ≠ .free → update role d .free g = r → g ≠ d ∧ role g = r := by
    grind [Function.update_apply]
  refine ⟨_, if_neg used, rfl, counted.tables.dismiss bare known rfl rfl rfl, ?_, ?_, ?_, ?_⟩
  · intro g idle
    by_cases same : g = d
    · simp [same]
    · rw [update_of_ne same] at idle
      exact (update_of_ne same _ _).trans (counted.idle g idle)
  · intro t d' i is
    obtain ⟨apart, was⟩ := other t _ (by simp) is
    exact (update_of_ne apart _ _).trans (counted.table t d' i was)
  · intro g is
    obtain ⟨apart, was⟩ := other g _ (by simp) is
    have fewer : tally (keys slots (dirs.erase d)) (view s) g = tally (keys slots dirs) (view s) g :=
      tally_subset (keys_mono (erase_subset d dirs)) fun x key outside => by simp [never x key outside]
    exact (update_of_ne apart _ _).trans ((counted.data g was).trans (congrArg Nat.cast fewer.symm))
  · intro g is
    obtain ⟨x, key, here⟩ := counted.mapped g (other g _ (by simp) is).2
    refine ⟨x, ?_, here⟩
    by_contra outside
    cases (never x key outside).symm.trans here

end

theorem Tables.enroll (tables : Tables s slots dirs role) (is : role f = .held)
    (bare : ∀ i ∈ slots, ¬ Present (words i)) :
    Tables (s.fill f words) slots (insert f dirs) (update role f .directory) := by
  have self : (s.fill f words).mem f = words := Kernel.fill_mem_self
  have away : ∀ g, g ≠ f → (s.fill f words).mem g = s.mem g := fun g => Kernel.fill_mem_other
  have unchanged : (s.fill f words).npage = s.npage ∧ (s.fill f words).free = s.free := ⟨rfl, rfl⟩
  obtain ⟨npage_le, slot_lt, bound, free, directory, pde, table, pte⟩ := tables
  refine ⟨npage_le, slot_lt, ?_, ?_, ?_, ?_, ?_, ?_⟩
  · grind [Function.update_apply]
  · grind [Function.update_apply]
  · grind [Function.update_apply]
  · intro d known i slot there
    have old := pde d
    grind [Function.update_apply]
  · intro t d i now
    have old := table t d i
    grind [Function.update_apply]
  · intro t d i now j inside there
    have other : t ≠ f := by grind [Function.update_apply]
    rw [away t other] at there ⊢
    have old := pte t d i
    grind [Function.update_apply]

/-- A frame that is held becomes a directory without tables. -/
theorem Counted.enroll (counted : Counted s slots dirs role) (is : role f = .held)
    (bare : ∀ i ∈ slots, ¬ Present (words i)) :
    Counted (s.fill f words) slots (insert f dirs) (update role f .directory) ∧
      ∀ x ∈ keys slots (insert f dirs),
        (x ∈ keys slots dirs ∧ pteOf (s.fill f words) x.1 x.2 = pteOf s x.1 x.2) ∨
          x.1 = f ∧ pteOf (s.fill f words) x.1 x.2 = 0 := by
  have mem : ∀ g, (role g).Structural → (s.fill f words).mem g = s.mem g := fun g structural =>
    Kernel.fill_mem_other (by rintro rfl; exact held_notStructural (is ▸ structural))
  have subset : keys slots dirs ⊆ keys slots (insert f dirs) := keys_mono (subset_insert f dirs)
  have entries : ∀ x ∈ keys slots (insert f dirs),
      (x ∈ keys slots dirs ∧ pteOf (s.fill f words) x.1 x.2 = pteOf s x.1 x.2) ∨
        x.1 = f ∧ pteOf (s.fill f words) x.1 x.2 = 0 := by
    rintro ⟨d, n⟩ key
    obtain ⟨known, small, slot⟩ := mem_keys.mp key
    rcases mem_insert.mp known with rfl | old
    · refine .inr ⟨rfl, ?_⟩
      rw [pteOf, Kernel.fill_mem_self, if_neg (bare _ slot)]
    · have key' : (d, n) ∈ keys slots dirs := mem_keys.mpr ⟨old, small, slot⟩
      exact .inl ⟨key', counted.tables.entries_congr mem key'⟩
  have views : ∀ x ∈ keys slots dirs, view (s.fill f words) x = view s x :=
    fun x key => view_congr (counted.tables.entries_congr mem key)
  have never : ∀ x ∈ keys slots (insert f dirs), x ∉ keys slots dirs →
      view (s.fill f words) x = none := by
    intro x key outside
    rcases entries x key with ⟨old, -⟩ | ⟨-, zero⟩
    · exact absurd old outside
    · exact view_none (by rw [zero]; decide)
  have other : ∀ g r, r ≠ .directory → update role f .directory g = r → role g = r := by
    grind [Function.update_apply]
  refine ⟨⟨counted.tables.enroll is bare, ?_, ?_, ?_, ?_⟩, entries⟩
  · exact fun g idle => counted.idle g (idle.imp (other g _ (by simp)) (other g _ (by simp)))
  · exact fun t d i table => counted.table t d i (other t _ (by simp) table)
  · intro g data
    have more : tally (keys slots dirs) (view (s.fill f words)) g =
        tally (keys slots (insert f dirs)) (view (s.fill f words)) g :=
      tally_subset subset fun x key outside => by simp [never x key outside]
    rw [← more, tally_congr views]
    exact counted.data g (other g _ (by simp) data)
  · intro g data
    obtain ⟨x, key, here⟩ := counted.mapped g (other g _ (by simp) data)
    exact ⟨x, subset key, (views x key).trans here⟩

end LiNos.Paging
