import LiNos.FirstfitPmm

/-!
The self-check of the first-fit manager that a system call runs (`firstfit_user_check`).

It takes three pages, empties the list and `nr_free`, gives the pages back and returns. The
copies it made of the list head and of `nr_free` are never put back, so the three pages are
all that is free behind it: the pages of the old list are on no list any more. Nothing is
lost only if there were no others.
-/

namespace LiNos.FirstfitPmm

open CircularList Blocks Pmm List

variable {s s' : FreeArea} {boot : ℕ → Page} {registered allocated : Set ℕ} {bs : List Block}
  {p p₀ p₁ p₂ base n i : ℕ}

/-- `alloc_page()`, asserted to be no `NULL`. A page is there in the first round of `alloc_pages`,
which then does not swap. -/
def allocOne (s : FreeArea) : Option (FreeArea × ℕ) := do
  let (s, page) ← firstfitAllocPages s 1
  let p ← page
  some (s, p)

/-- `firstfit_user_check`; `free_list_store` and `nr_free_store` are not read again. -/
def firstfitUserCheck (s : FreeArea) : Option FreeArea := do
  let (s, p₀) ← allocOne s
  let (s, p₁) ← allocOne s
  let (s, p₂) ← allocOne s
  if p₀ ≠ p₁ ∧ p₀ ≠ p₂ ∧ p₁ ≠ p₂ then
    if (s.pages p₀).ref = 0 ∧ (s.pages p₁).ref = 0 ∧ (s.pages p₂).ref = 0 then
      if p₀ < s.npage ∧ p₁ < s.npage ∧ p₂ < s.npage then
        let s := { s with links := listInit s.links .freeList }
        if listEmpty s.links .freeList then
          let s := { s with nrFree := 0 }
          let s ← firstfitFreePages s p₀ 1
          let s ← firstfitFreePages s p₁ 1
          let s ← firstfitFreePages s p₂ 1
          if s.nrFree = 3 then some s else none
        else none
      else none
    else none
  else none

/-- A page that `alloc_pages` can hand out: one of a block on the list. -/
def Free (s : FreeArea) (i : ℕ) : Prop := ∃ bs, Lists s bs ∧ Covered bs i

/-- The check returns and leaves the same pages free. -/
def Harmless (s : FreeArea) : Prop :=
  ∃ s', firstfitUserCheck s = some s' ∧ (∀ i, Free s' i ↔ Free s i) ∧ s'.nrFree = s.nrFree

/-! ## Reference counts -/

@[simp] theorem setProperty_ref : ((s.setProperty p n).pages i).ref = (s.pages i).ref := by
  by_cases same : i = p <;> simp [FreeArea.setProperty, same]

@[simp] theorem setPageProperty_ref {value : Bool} :
    ((s.setPageProperty p value).pages i).ref = (s.pages i).ref := by
  by_cases same : i = p <;> simp [FreeArea.setPageProperty, same]

theorem carve_ref (spot : Entry) : ((carve s p n spot).pages i).ref = (s.pages i).ref := by
  unfold carve
  split <;> simp

theorem mergeLoop_ref {fuel : ℕ} {le : Entry} {base' : ℕ} (ran : mergeLoop fuel s base le = some (s', base')) :
    (s'.pages i).ref = (s.pages i).ref := by
  fun_induction mergeLoop fuel s base le with
  | case1 => cases ran
  | case2 => cases ran; rfl
  | case3 _ _ _ _ ih | case4 _ _ _ _ _ ih =>
    rw [ih ran]
    simp [join]
  | case5 _ _ _ _ _ _ _ ih => exact ih ran

theorem freePages_ref (ran : freePages s base n = some s') (zero : (s.pages i).ref = 0) : (s'.pages i).ref = 0 := by
  unfold freePages at ran
  split_ifs at ran
  obtain ⟨s₁, reset, ran⟩ := Option.bind_eq_some_iff.mp ran
  obtain ⟨⟨s₂, base'⟩, merged, ran⟩ := Option.bind_eq_some_iff.mp ran
  obtain ⟨le, -, ⟨⟩⟩ := Option.bind_eq_some_iff.mp ran
  obtain ⟨-, rfl⟩ := forPages_eq_some.mp reset
  have kept := mergeLoop_ref (i := i) merged
  rw [setPageProperty_ref, setProperty_ref] at kept
  simp only [FreeArea.setLinks_pages, kept, mapRange]
  split
  · rfl
  · exact zero

theorem initMemmap_ref (ran : initMemmap s base n = some s')
    (zero : (⟨base, n⟩ : Block).Covers i ∨ (s.pages i).ref = 0) : (s'.pages i).ref = 0 := by
  unfold initMemmap at ran
  split_ifs at ran
  obtain ⟨s₁, reset, ⟨⟩⟩ := Option.bind_eq_some_iff.mp ran
  obtain ⟨-, rfl⟩ := forPages_eq_some.mp reset
  simp only [FreeArea.setLinks_pages, setPageProperty_ref, setProperty_ref, mapRange]
  split_ifs with inside
  · rfl
  · exact zero.resolve_left inside

theorem registerAll_ref {ranges : List Block} (ran : registerAll initMemmap s ranges = some s')
    (zero : Covered ranges i ∨ (s.pages i).ref = 0) : (s'.pages i).ref = 0 := by
  induction ranges generalizing s with
  | nil =>
    cases ran
    exact zero.resolve_left covered_nil
  | cons range rest ih =>
    simp only [registerAll, foldlM_cons, Option.bind_eq_bind, Option.bind_eq_some_iff] at ran
    obtain ⟨s₁, first, others⟩ := ran
    rw [covered_cons, or_right_comm] at zero
    exact ih others (zero.symm.imp_right (initMemmap_ref first))

theorem firstfitAllocPages_ref {page : Option ℕ} (ran : firstfitAllocPages s n = some (s', page)) :
    (s'.pages i).ref = (s.pages i).ref := by
  unfold firstfitAllocPages at ran
  split_ifs at ran
  · cases ran
    rfl
  · obtain ⟨found, -, ran⟩ := Option.bind_eq_some_iff.mp ran
    cases found with
    | none =>
      cases ran
      rfl
    | some p =>
      cases ran
      exact carve_ref _

/-- The calls of the allocator leave no reference on a page of theirs. -/
theorem reachable_ref {start : FreeArea} {ranges : List Block}
    (reached : Reachable firstfitPmmManager start ranges s allocated) (known : Covered ranges i) :
    (s.pages i).ref = 0 := by
  induction reached with
  | boot _ ran => exact registerAll_ref ran (.inl known)
  | alloc _ _ ran ih => exact (firstfitAllocPages_ref ran).trans ih
  | free _ _ _ ran ih => exact freePages_ref ran ih

/-! ## What the check does -/

theorem lists_unique {bs' : List Block} (first : Lists s bs) (second : Lists s bs') : bs = bs' := by
  have read : ∀ bs, Lists s bs → (bs.map Block.start).map (fun p => ⟨p, (s.pages p).property⟩) = bs := by
    intro bs lists
    rw [map_map]
    refine (map_congr_left fun b member => ?_).trans (map_id bs)
    simp [lists.2 b member]
  have links : (bs.map Block.start).map Entry.pageLink = (bs'.map Block.start).map Entry.pageLink := by
    rw [map_map, map_map]
    exact first.1.unique second.1
  have starts := map_injective_iff.mpr (fun _ _ same => Entry.pageLink.inj same) links
  rw [← read bs first, ← read bs' second, starts]

theorem free_iff (consistent : Consistent s boot registered allocated bs) :
    Free s i ↔ i ∈ registered ∧ i ∉ allocated := by
  have lists : Lists s bs := ⟨consistent.holds.ring, consistent.holds.property⟩
  rw [← consistent.covers]
  constructor
  · rintro ⟨bs', lists', covered⟩
    rwa [lists_unique lists lists']
  · exact fun covered => ⟨bs, lists, covered⟩

theorem covers_one (p : ℕ) : {i | (⟨p, 1⟩ : Block).Covers i} = {p} := by
  ext i
  simp only [Block.Covers, Block.stop, Set.mem_ofPred_eq, Set.mem_singleton_iff]
  omega

theorem allocOne_spec (consistent : Consistent s boot registered allocated bs) (some : 0 < s.nrFree) :
    ∃ s' p bs', allocOne s = .some (s', p) ∧ p ∈ registered ∧ p ∉ allocated ∧
      Consistent s' boot registered (allocated ∪ {p}) bs' ∧ s'.nrFree + 1 = s.nrFree ∧
      ∀ i, (s'.pages i).ref = (s.pages i).ref := by
  rcases firstfitAllocPages_spec consistent Nat.one_pos with
    ⟨-, short⟩ | ⟨xs, b, ys, rfl, -, -, granted, carved⟩
  · have none : bs = [] := eq_nil_iff_forall_not_mem.mpr fun b member =>
      absurd (short b member) (Nat.not_lt.mpr (consistent.positive b member))
    rw [consistent.counted, none] at some
    cases some
  · obtain ⟨known, unowned⟩ := consistent.covers_start (b := b) (by simp)
    rw [covers_one] at carved
    refine ⟨_, b.start, _, by simp [allocOne, granted], known, unowned, carved, ?_, fun i => carve_ref _⟩
    rw [carve_nrFree]
    omega

theorem freeOne_spec (consistent : Consistent s boot registered allocated bs) (held : p ∈ allocated) :
    ∃ s' bs', firstfitFreePages s p 1 = some s' ∧ Consistent s' boot registered (allocated \ {p}) bs' ∧
      s'.nrFree = s.nrFree + 1 := by
  have live : ∀ i, (⟨p, 1⟩ : Block).Covers i → i ∈ allocated := by
    intro i inside
    obtain rfl : i = p := (covers_one p).subset inside
    exact held
  obtain ⟨s', freed, after⟩ := freePages_spec consistent Nat.one_pos live
  rw [covers_one] at after
  refine ⟨s', _, freed, after, ?_⟩
  rw [after.counted, total_place, consistent.counted, coalesce_total]
  exact Nat.add_comm 1 (total bs)

/-- The list is emptied while the pages `own` are in the hands of the caller. -/
theorem emptied_consistent {own : Set ℕ} (consistent : Consistent s boot registered allocated bs)
    (held : own ⊆ allocated) : Consistent (init s) s.pages own own [] where
  holds := by
    refine ⟨ring_init _ _, by simp, by simp, by simp, fun i mine => ?_, fun i mine => ?_, fun i _ => rfl⟩
    · have known := consistent.owned (held mine)
      simp only [nil_append, map_nil, not_mem_nil, iff_false]
      rw [show (init s).pages = s.pages from rfl, consistent.holds.heads i known]
      intro head
      obtain ⟨b, member, rfl⟩ := mem_map.mp head
      exact (consistent.covers_start member).2 (held mine)
    · exact consistent.holds.usable i (consistent.owned (held mine))
  positive := by simp
  apart := .nil
  covers := by simp
  counted := rfl
  owned := subset_rfl
  inside := fun i mine => consistent.inside i (consistent.owned (held mine))

/-- The three pages go back to the emptied list. -/
theorem giveBack_spec (consistent : Consistent s boot {p₀, p₁, p₂} {p₀, p₁, p₂} [])
    (distinct : p₀ ≠ p₁ ∧ p₀ ≠ p₂ ∧ p₁ ≠ p₂) :
    ∃ s₁ s₂ s₃ bs, firstfitFreePages s p₀ 1 = some s₁ ∧ firstfitFreePages s₁ p₁ 1 = some s₂ ∧
      firstfitFreePages s₂ p₂ 1 = some s₃ ∧ Consistent s₃ boot {p₀, p₁, p₂} ∅ bs ∧ s₃.nrFree = s.nrFree + 3 := by
  obtain ⟨other₁, other₂, other₃⟩ := distinct
  obtain ⟨s₁, bs₁, first, after₁, total₁⟩ := freeOne_spec consistent (p := p₀) (by simp)
  obtain ⟨s₂, bs₂, second, after₂, total₂⟩ := freeOne_spec after₁ (p := p₁) (by simp [other₁.symm])
  obtain ⟨s₃, bs₃, third, after₃, total₃⟩ := freeOne_spec after₂ (p := p₂) (by simp [other₂.symm, other₃.symm])
  have nothing : (({p₀, p₁, p₂} \ {p₀}) \ {p₁}) \ {p₂} = (∅ : Set ℕ) := by
    ext i
    simp only [Set.mem_sdiff, Set.mem_insert_iff, Set.mem_singleton_iff, Set.mem_empty_iff_false]
    tauto
  rw [nothing] at after₃
  exact ⟨s₁, s₂, s₃, bs₃, first, second, third, after₃, by omega⟩

/-- The three pages are free behind the check, and no others; if three were free before, they are these. -/
theorem firstfitUserCheck_spec (consistent : Consistent s boot registered allocated bs) (enough : 3 ≤ s.nrFree)
    (unreferenced : ∀ i ∈ registered, (s.pages i).ref = 0) :
    ∃ s' own boot' bs', firstfitUserCheck s = some s' ∧ Consistent s' boot' own ∅ bs' ∧ s'.nrFree = 3 ∧
      (∀ p ∈ own, p ∈ registered ∧ p ∉ allocated) ∧
      (s.nrFree = 3 → ∀ p ∈ registered, p ∉ allocated → p ∈ own) := by
  obtain ⟨s₁, p₀, bs₁, first, known₀, free₀, consistent₁, count₁, ref₁⟩ := allocOne_spec consistent (by omega)
  obtain ⟨s₂, p₁, bs₂, second, known₁, free₁, consistent₂, count₂, ref₂⟩ := allocOne_spec consistent₁ (by omega)
  obtain ⟨s₃, p₂, bs₃, third, known₂, free₂, consistent₃, count₃, ref₃⟩ := allocOne_spec consistent₂ (by omega)
  simp only [Set.mem_union, Set.mem_singleton_iff, not_or] at free₁ free₂
  have ref : ∀ i ∈ registered, (s₃.pages i).ref = 0 := by
    intro i known
    rw [ref₃, ref₂, ref₁, unreferenced i known]
  have inside := consistent₃.inside
  have emptied : Consistent (init s₃) s₃.pages {p₀, p₁, p₂} {p₀, p₁, p₂} [] := by
    refine emptied_consistent consistent₃ ?_
    rintro i (rfl | rfl | rfl) <;> simp
  have distinct : p₀ ≠ p₁ ∧ p₀ ≠ p₂ ∧ p₁ ≠ p₂ := ⟨Ne.symm free₁.2, Ne.symm free₂.1.2, Ne.symm free₂.2⟩
  obtain ⟨t₁, t₂, t₃, cs, freed₀, freed₁, freed₂, after, three⟩ := giveBack_spec emptied distinct
  refine ⟨t₃, _, _, cs, ?_, after, three, ?_, ?_⟩
  · have below : p₀ < s₃.npage ∧ p₁ < s₃.npage ∧ p₂ < s₃.npage :=
      ⟨inside p₀ known₀, inside p₁ known₁, inside p₂ known₂⟩
    have three : t₃.nrFree = 3 := three
    have zero := And.intro (ref p₀ known₀) (And.intro (ref p₁ known₁) (ref p₂ known₂))
    have empty : listEmpty (listInit s₃.links .freeList) .freeList := by simp [listEmpty, listInit]
    change firstfitFreePages { s₃ with links := listInit s₃.links .freeList, nrFree := 0 } p₀ 1 = _ at freed₀
    simp only [firstfitUserCheck, first, second, third, Option.bind_eq_bind, Option.bind_some, if_pos distinct,
      if_pos zero, if_pos below, if_pos empty, freed₀, freed₁, freed₂, if_pos three]
  · rintro p (rfl | rfl | rfl)
    · exact ⟨known₀, free₀⟩
    · exact ⟨known₁, free₁.1⟩
    · exact ⟨known₂, free₂.1.1⟩
  · intro few p known unowned
    by_contra other
    have left := (consistent₃.covers p).mpr ⟨known, fun taken => other ?_⟩
    · obtain ⟨b, member, -⟩ := left
      have positive := consistent₃.positive b member
      have bound := consistent₃.len_le member
      omega
    · rcases taken with ((taken | rfl) | rfl) | rfl
      · exact absurd taken unowned
      · simp
      · simp
      · simp

/-- The check does no harm if exactly three pages are free, and only then. -/
theorem firstfit_user_check_harmless_iff {start : FreeArea} {ranges : List Block}
    (ascending : ranges.Pairwise Below) (reached : Reachable firstfitPmmManager start ranges s allocated)
    (enough : 3 ≤ s.nrFree) : Harmless s ↔ s.nrFree = 3 := by
  obtain ⟨bs, consistent, -⟩ := reachable_ascending ascending reached
  obtain ⟨s', own, boot', bs', ran, after, three, were, all⟩ :=
    firstfitUserCheck_spec consistent enough fun i known => reachable_ref reached known
  constructor
  · rintro ⟨s'', ran', -, same⟩
    cases ran.symm.trans ran'
    rw [← same, three]
  · intro few
    refine ⟨s', ran, fun i => ?_, three.trans few.symm⟩
    rw [free_iff after, free_iff consistent, and_iff_left (Set.notMem_empty i)]
    exact ⟨were i, fun free => all few i free.1 free.2⟩

/-- With `[1, 3)` and `[4, 5)` free nothing is lost. -/
theorem firstfit_user_check_harmless_three :
    ∃ s, Reachable firstfitPmmManager eightPages [⟨1, 2⟩, ⟨4, 1⟩] s ∅ ∧ s.nrFree = 3 ∧ Harmless s := by
  have boot : Reachable firstfitPmmManager eightPages [⟨1, 2⟩, ⟨4, 1⟩] _ ∅ := .boot (by decide) rfl
  exact ⟨_, boot, rfl, (firstfit_user_check_harmless_iff (by decide) boot (by decide)).mpr rfl⟩

/-- With `[1, 3)` and `[4, 8)` free three of the six pages are left. -/
theorem firstfit_user_check_loses :
    ∃ s s', Reachable firstfitPmmManager eightPages [⟨1, 2⟩, ⟨4, 4⟩] s ∅ ∧ s.nrFree = 6 ∧
      firstfitUserCheck s = some s' ∧ s'.nrFree = 3 ∧ Lists s' [⟨1, 2⟩, ⟨4, 1⟩] ∧ ¬ Harmless s := by
  have boot : Reachable firstfitPmmManager eightPages [⟨1, 2⟩, ⟨4, 4⟩] _ ∅ := .boot (by decide) rfl
  refine ⟨_, _, boot, rfl, rfl, rfl, ⟨⟨⟨rfl, rfl, rfl, rfl, rfl, rfl⟩, by decide⟩, by decide⟩, ?_⟩
  rintro ⟨s', ran, -, same⟩
  cases ran
  cases same

end LiNos.FirstfitPmm
