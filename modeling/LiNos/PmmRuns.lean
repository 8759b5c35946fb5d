import LiNos.FreeArea

/-!
What the list-based physical memory managers share around allocation.

They differ in how `*_alloc_pages` searches and in where it puts the rest of a
block that is too long. The tail of the function is `carve`, with the list
entry behind which the rest goes as a parameter. A run of a manager is the
registration of the usable ranges at boot followed by any calls, and an order
of the list that allocation and freeing respect holds in every state of a run
(`Reachable.consistent`).
-/

namespace LiNos.Pmm

open CircularList Blocks List
open scoped List

variable {s s' : FreeArea} {boot : ℕ → Page} {registered allocated : Set ℕ} {b blk : Block}
  {bs us vs xs ys done rest : List Block} {n : ℕ}

/-- The end of `*_alloc_pages`, once a block of at least `n` pages is found at
`page`: the rest of it goes on the list behind `spot`. -/
def carve (s : FreeArea) (page n : ℕ) (spot : Entry) : FreeArea :=
  let s :=
    if n < (s.pages page).property then
      let p := page + n
      let s := (s.setProperty p ((s.pages page).property - n)).setPageProperty p true
      s.setLinks (listAddAfter s.links spot (.pageLink p))
    else s
  let s := s.setLinks (listDel s.links (.pageLink page))
  let s := { s with nrFree := s.nrFree - n }
  s.setPageProperty page false

/-! ## Carving the front off a block -/

/-- A further head goes on the list behind the entry `spot`. -/
theorem Holds.add_after (holds : Holds s boot registered [] (us ++ vs))
    (known : blk.start ∈ registered) (fresh : blk.start ∉ (us ++ vs).map Block.start) :
    Holds (((s.setProperty blk.start blk.len).setPageProperty blk.start true).setLinks
        (listAddAfter s.links (lastOf .freeList (us.map node)) (node blk)))
      boot registered [] (us ++ blk :: vs) :=
  have marked := holds.mark known fresh
  marked.put (ring_listAddAfter marked.ring_append marked.fresh_node)

/-- `list_del` and `ClearPageProperty` take a head off the list. -/
theorem Holds.remove (holds : Holds s boot registered [] (done ++ b :: rest)) :
    Holds ((s.setLinks (listDel s.links (node b))).setPageProperty b.start false)
      boot registered [] (done ++ rest) := by
  have permuted : ((done ++ b :: rest).map Block.start).Perm
      (b.start :: (done ++ rest).map Block.start) := perm_middle.map Block.start
  obtain ⟨gone, distinct⟩ := nodup_cons.mp (permuted.nodup_iff.mp holds.distinct)
  have members : ∀ d ∈ done ++ rest, d ∈ done ++ b :: rest :=
    fun d member => perm_middle.mem_iff.mpr (mem_cons_of_mem _ member)
  have ring := holds.ring
  rw [map_append, map_cons] at ring
  refine ⟨?_, distinct, fun d member => ?_, fun d member => holds.known d (members d member),
    fun i inside => ?_, fun i inside => ?_, fun i unknown => ?_⟩
  · rw [map_append]
    exact ring_listDel ring
  · simpa using holds.property d (members d member)
  · have heads := holds.heads i inside
    rw [nil_append, permuted.mem_iff, mem_cons] at heads
    by_cases same : i = b.start
    · simpa [same] using gone
    · simpa [same] using heads
  · simpa using holds.usable i inside
  · have other : i ≠ b.start := fun same => unknown (same ▸ holds.known b (by simp))
    rw [FreeArea.setPageProperty_other _ _ _ other]
    exact holds.untouched i unknown

/-- The page behind the first `n` of a longer block is registered and not yet a
head. -/
theorem Consistent.remainder_fresh (consistent : Consistent s boot registered allocated bs)
    (member : b ∈ bs) (positive : 0 < n) (longer : n < b.len) :
    (remainder b n).start ∈ registered ∧ (remainder b n).start ∉ bs.map Block.start := by
  have within : b.Covers (remainder b n).start := by
    simp only [Block.Covers, Block.stop, remainder]
    omega
  refine ⟨((consistent.covers _).mp ⟨b, member, within⟩).1, ?_⟩
  intro head
  obtain ⟨d, inList, same⟩ := mem_map.mp head
  have len := consistent.positive d inList
  by_cases equal : d = b
  · subst equal
    simp only [remainder] at same
    omega
  · have gap := consistent.apart.forall inList member equal
    have inside : d.Covers (remainder b n).start := by
      simp only [Block.Covers, Block.stop]
      omega
    exact gap.beside.not_covers inside within

/-- `carve` on the list: the rest of the block appears behind `spot`, the block
disappears. -/
theorem carve_holds (consistent : Consistent s boot registered allocated (us ++ vs))
    (member : b ∈ us ++ vs) (positive : 0 < n)
    (cut : us ++ split b n ++ vs = done ++ b :: rest) :
    Holds (carve s b.start n (lastOf .freeList (us.map node))) boot registered [] (done ++ rest) := by
  have holds := consistent.holds
  simp only [carve, holds.property b member]
  unfold split at cut
  split_ifs at cut ⊢ with longer
  · obtain ⟨known, fresh⟩ := consistent.remainder_fresh member positive longer
    have added := holds.add_after known fresh
    rw [append_assoc, singleton_append] at cut
    rw [cut] at added
    exact { added.remove with }
  · rw [append_nil] at cut
    rw [cut] at holds
    exact { holds.remove with }

@[simp] theorem carve_npage (s : FreeArea) (page n : ℕ) (spot : Entry) :
    (carve s page n spot).npage = s.npage := by
  unfold carve
  split <;> rfl

@[simp] theorem carve_nrFree (s : FreeArea) (page n : ℕ) (spot : Entry) :
    (carve s page n spot).nrFree = s.nrFree - n := by
  unfold carve
  split <;> rfl

/-- Carving gives the first `n` pages of the block away and nothing else,
wherever the rest goes. -/
theorem carve_consistent (consistent : Consistent s boot registered allocated bs)
    (parts : bs = us ++ vs) (block : bs = xs ++ b :: ys) (positive : 0 < n) (fits : n ≤ b.len)
    (cut : us ++ split b n ++ vs = done ++ b :: rest) :
    Consistent (carve s b.start n (lastOf .freeList (us.map node))) boot registered
      (allocated ∪ {i | (⟨b.start, n⟩ : Block).Covers i}) (done ++ rest) := by
  have member : b ∈ bs := by simp [block]
  have permuted : (done ++ rest).Perm (xs ++ split b n ++ ys) := by
    have extended : (b :: (done ++ rest)).Perm (b :: (xs ++ split b n ++ ys)) := calc
      b :: (done ++ rest) ~ done ++ b :: rest := perm_middle.symm
      _ ~ us ++ split b n ++ vs := by rw [cut]
      _ ~ split b n ++ (us ++ vs) := by
        rw [append_assoc]
        exact perm_append_comm_assoc ..
      _ ~ split b n ++ (xs ++ b :: ys) := by rw [← parts, block]
      _ ~ xs ++ (split b n ++ b :: ys) := perm_append_comm_assoc ..
      _ ~ xs ++ b :: (split b n ++ ys) := perm_middle.append_left xs
      _ ~ b :: (xs ++ (split b n ++ ys)) := perm_middle
      _ ~ b :: (xs ++ split b n ++ ys) := by rw [append_assoc]
    exact extended.cons_inv
  have apart : (xs ++ split b n ++ ys).Pairwise Apart := apart_split (block ▸ consistent.apart)
  have inside : ∀ i, (⟨b.start, n⟩ : Block).Covers i → b.Covers i :=
    fun i within => ⟨within.1, within.2.trans_le (Nat.add_le_add_left fits _)⟩
  refine ⟨?_, fun d inList => ?_, (permuted.pairwise_iff fun gap => gap.symm).mpr apart, fun i => ?_,
    ?_, ?_, fun i known => ?_⟩
  · subst parts
    exact carve_holds consistent member positive cut
  · rw [permuted.mem_iff, mem_append, mem_append] at inList
    rcases inList with (inList | inList) | inList
    · exact consistent.positive d (by simp [block, inList])
    · exact split_len_pos inList
    · exact consistent.positive d (by simp [block, inList])
  · have before := consistent.covers i
    rw [block] at before
    rw [covered_perm permuted, covered_split_iff (block ▸ consistent.apart) fits, before, Set.mem_union,
      Set.mem_ofPred_eq, not_or, and_assoc]
  · have sums := total_split fits
    have whole : total (done ++ rest) = total (xs ++ split b n ++ ys) :=
      (permuted.map Block.len).sum_eq
    rw [whole, carve_nrFree, consistent.counted, block]
    simp only [total_append, total_cons]
    omega
  · rintro i (owned | owned)
    · exact consistent.owned owned
    · exact ((consistent.covers i).mp ⟨b, member, inside i owned⟩).1
  · rw [carve_npage]
    exact consistent.inside i known

/-! ## Runs of a manager -/

/-- `page_init`: `*_init_memmap` on each usable range in turn. -/
def registerAll {σ : Type} (initMemmap : σ → ℕ → ℕ → Option σ) (s : σ) (ranges : List Block) : Option σ :=
  ranges.foldlM (fun s range => initMemmap s range.start range.len) s

/-- The pages that a call of `*_alloc_pages(n)` hands out: none for `NULL`. -/
def taken (n : ℕ) : Option ℕ → Set ℕ
  | none => ∅
  | some page => {i | (⟨page, n⟩ : Block).Covers i}

/-- What `*_alloc_pages` is to a run: the pages asked for lead to a new state and
a page or `NULL`. -/
abbrev AllocPages := FreeArea → ℕ → Option (FreeArea × Option ℕ)

/-- `struct pmm_manager`. -/
structure PmmManager where
  init : FreeArea → FreeArea
  initMemmap : FreeArea → ℕ → ℕ → Option FreeArea
  allocPages : AllocPages
  freePages : FreeArea → ℕ → ℕ → Option FreeArea

/-- A manager with a search of its own. -/
def PmmManager.ofAlloc (alloc : AllocPages) : PmmManager := ⟨Pmm.init, Pmm.initMemmap, alloc, Pmm.freePages⟩

/-- The states of a manager after boot from `start` with `ranges` and any calls
made by callers that free only what they hold: any non-empty run of allocated
pages, whichever calls handed them out. -/
inductive Reachable (manager : PmmManager) (start : FreeArea) (ranges : List Block) :
    FreeArea → Set ℕ → Prop where
  | boot {s : FreeArea} (fit : ∀ range ∈ ranges, range.stop ≤ start.npage)
      (ran : registerAll manager.initMemmap (manager.init start) ranges = some s) :
      Reachable manager start ranges s ∅
  | alloc {s s' : FreeArea} {allocated : Set ℕ} {n : ℕ} {page : Option ℕ}
      (before : Reachable manager start ranges s allocated) (positive : 0 < n)
      (ran : manager.allocPages s n = some (s', page)) :
      Reachable manager start ranges s' (allocated ∪ taken n page)
  | free {s s' : FreeArea} {allocated : Set ℕ} {base n : ℕ}
      (before : Reachable manager start ranges s allocated) (positive : 0 < n)
      (held : ∀ i, (⟨base, n⟩ : Block).Covers i → i ∈ allocated)
      (ran : manager.freePages s base n = some s') :
      Reachable manager start ranges s' (allocated \ {i | (⟨base, n⟩ : Block).Covers i})

/-- Registering ranges that keep a gap from each other and from what is on the
list appends them to it. -/
theorem registerAll_consistent {ranges : List Block}
    (consistent : Consistent s boot {i | Covered bs i} ∅ bs)
    (apart : (bs ++ ranges).Pairwise Apart) (fit : ∀ range ∈ ranges, range.stop ≤ s.npage)
    (ran : registerAll initMemmap s ranges = some s') :
    Consistent s' boot {i | Covered (bs ++ ranges) i} ∅ (bs ++ ranges) := by
  induction ranges generalizing s bs with
  | nil =>
    cases ran
    simpa using consistent
  | cons range rest ih =>
    simp only [registerAll, foldlM_cons, Option.bind_eq_bind, Option.bind_eq_some_iff] at ran
    obtain ⟨s₁, first, others⟩ := ran
    obtain ⟨here, fit⟩ := forall_mem_cons.mp fit
    have gaps : ∀ b ∈ bs, Apart b range :=
      fun b member => (pairwise_append.mp apart).2.2 b member range (mem_cons_self ..)
    have unused : ∀ i, range.Covers i → i ∉ {i | Covered bs i} := by
      rintro i within ⟨b, member, covers⟩
      exact (gaps b member).beside.not_covers covers within
    obtain ⟨registered, npage⟩ := initMemmap_consistent consistent gaps unused here first
    have known : {i | Covered bs i} ∪ {i | range.Covers i} = {i | Covered (bs ++ [range]) i} := by
      ext i
      simp
    rw [known] at registered
    rw [append_cons] at apart ⊢
    exact ih registered apart (npage ▸ fit) others

/-- After boot the free list holds the ranges. -/
theorem registerAll_boot {start : FreeArea} {ranges : List Block} (apart : ranges.Pairwise Apart)
    (fit : ∀ range ∈ ranges, range.stop ≤ start.npage)
    (ran : registerAll initMemmap (init start) ranges = some s) :
    Consistent s start.pages {i | Covered ranges i} ∅ ranges := by
  have empty : Consistent (init start) start.pages {i | Covered [] i} ∅ [] := by
    simpa using init_consistent start
  simpa using registerAll_consistent empty (by simpa using apart) fit ran

/-- A run keeps every order of the free list that allocation and freeing keep.
The rest of the bookkeeping does not depend on the order. -/
theorem Reachable.consistent {alloc : AllocPages} {start : FreeArea} {ranges : List Block}
    {order : List Block → Prop} (apart : ranges.Pairwise Apart) (ordered : order ranges)
    (allocKeeps : ∀ {s s' : FreeArea} {allocated : Set ℕ} {bs : List Block} {n : ℕ}
      {page : Option ℕ}, Consistent s start.pages {i | Covered ranges i} allocated bs → order bs →
      0 < n → alloc s n = some (s', page) →
      ∃ bs', Consistent s' start.pages {i | Covered ranges i} (allocated ∪ taken n page) bs' ∧
        order bs')
    (placeKeeps : ∀ {blk : Block} {bs ks : List Block}, ks.Sublist bs → order bs →
      (∀ k ∈ ks, Apart k blk) → order (place blk ks))
    (reached : Reachable (.ofAlloc alloc) start ranges s allocated) :
    ∃ bs, Consistent s start.pages {i | Covered ranges i} allocated bs ∧ order bs := by
  induction reached with
  | boot fit ran => exact ⟨ranges, registerAll_boot apart fit ran, ordered⟩
  | alloc before positive ran ih =>
    obtain ⟨bs, consistent, inOrder⟩ := ih
    exact allocKeeps consistent inOrder positive ran
  | free before positive held ran ih =>
    obtain ⟨bs, consistent, inOrder⟩ := ih
    obtain ⟨s₁, freed, after⟩ := freePages_spec consistent positive held
    cases ran.symm.trans freed
    refine ⟨_, after, placeKeeps (coalesce_sublist _ bs) inOrder ?_⟩
    exact coalesce_apart consistent.apart (consistent.beside_live positive held)

/-- Eight pages before boot, all of them still reserved. -/
def eightPages : FreeArea where
  pages := fun _ => { flags := { reserved := true } }
  npage := 8
  links := ⟨id, id⟩
  nrFree := 0
  npage_le := by decide

end LiNos.Pmm
