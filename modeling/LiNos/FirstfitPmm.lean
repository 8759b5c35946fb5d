import LiNos.PmmRuns

/-!
The first-fit physical memory manager (firstfit_pmm.c).

`firstfit_alloc_pages` takes the front of the first block that is long enough
and leaves the rest in the block's place, so the free list stays in address
order through every run (`firstfit_representation`). It follows that the list is
given by the set of free pages, whatever the calls were that led to it
(`firstfit_free_any_order`).
-/

namespace LiNos.FirstfitPmm

open CircularList Blocks Pmm List

/-- `while ((le = list_next(le)) != &free_list)` of `firstfit_alloc_pages`: the
first block of at least `n` pages. -/
def search (s : FreeArea) (n : ℕ) : ℕ → Entry → Option (Option ℕ)
  | 0, _ => none
  | fuel + 1, le =>
    match s.links.next le with
    | .freeList => some none
    | .pageLink p => if n ≤ (s.pages p).property then some (some p) else search s n fuel (.pageLink p)

/-- `firstfit_alloc_pages(n)`. -/
def firstfitAllocPages (s : FreeArea) (n : ℕ) : Option (FreeArea × Option ℕ) :=
  if n = 0 then none
  else if s.nrFree < n then some (s, none)
  else do
    match ← search s n (s.npage + 1) .freeList with
    | none => some (s, none)
    | some page => some (carve s page n (.pageLink page), some page)

def firstfitInit (s : FreeArea) : FreeArea := init s
def firstfitInitMemmap (s : FreeArea) (base n : ℕ) : Option FreeArea := initMemmap s base n
def firstfitFreePages (s : FreeArea) (base n : ℕ) : Option FreeArea := freePages s base n

def firstfitPmmManager : PmmManager := ⟨firstfitInit, firstfitInitMemmap, firstfitAllocPages, firstfitFreePages⟩

variable {s s' : FreeArea} {boot : ℕ → Page} {registered allocated : Set ℕ}
  {bs done rest : List Block} {n fuel : ℕ}

/-- The walk stops at the first entry that is long enough. -/
theorem search_spec (holds : Holds s boot registered [] (done ++ rest))
    (enough : rest.length < fuel) :
    search s n fuel (lastOf .freeList (done.map node)) =
      some ((rest.find? fun b => n ≤ b.len).map Block.start) := by
  induction fuel generalizing done rest with
  | zero => cases enough
  | succ fuel ih =>
    rw [search, holds.next_last]
    cases rest with
    | nil => rfl
    | cons b rest =>
      simp only [map_cons, firstOf_cons, node, holds.property b (by simp), find?_cons]
      rw [append_cons] at holds
      by_cases fits : n ≤ b.len
      · simp [fits]
      · simpa [fits, node] using ih holds (by simpa using enough)

/-- What `firstfit_alloc_pages` does: it comes back, with `NULL` and nothing
changed when no block has `n` pages, and otherwise with the first `n` pages of
the first block that has them. -/
theorem firstfitAllocPages_spec (consistent : Consistent s boot registered allocated bs)
    (positive : 0 < n) :
    (firstfitAllocPages s n = some (s, none) ∧ ∀ b ∈ bs, b.len < n) ∨
      ∃ xs b ys, bs = xs ++ b :: ys ∧ (∀ d ∈ xs, d.len < n) ∧ n ≤ b.len ∧
        firstfitAllocPages s n = some (carve s b.start n (node b), some b.start) ∧
        Consistent (carve s b.start n (node b)) boot registered
          (allocated ∪ {i | (⟨b.start, n⟩ : Block).Covers i}) (xs ++ (split b n ++ ys)) := by
  by_cases few : s.nrFree < n
  · refine .inl ⟨by simp [firstfitAllocPages, positive.ne', few], fun b member => ?_⟩
    exact (consistent.len_le member).trans_lt few
  · have walked : Holds s boot registered [] ([] ++ bs) := consistent.holds
    have found := search_spec (n := n) walked (Nat.lt_succ_of_le consistent.length_le)
    simp only [map_nil, lastOf_nil] at found
    cases fit : bs.find? fun b => n ≤ b.len with
    | none =>
      refine .inl ⟨by simp [firstfitAllocPages, positive.ne', few, found, fit], ?_⟩
      simpa using find?_eq_none.mp fit
    | some b =>
      obtain ⟨long, xs, ys, parts, before⟩ := find?_eq_some_iff_append.mp fit
      have fits : n ≤ b.len := by simpa using long
      refine .inr ⟨xs, b, ys, parts, by simpa using before, fits, ?_, ?_⟩
      · simp [firstfitAllocPages, positive.ne', few, found, fit, node]
      · have regroup : bs = (xs ++ [b]) ++ ys := by simpa using parts
        have cut : (xs ++ [b]) ++ split b n ++ ys = xs ++ b :: (split b n ++ ys) := by simp
        simpa using carve_consistent consistent regroup parts positive fits cut

/-- Every state of a run holds an ascending list of blocks. -/
theorem reachable_ascending {start : FreeArea} {ranges : List Block}
    (ascending : ranges.Pairwise Below)
    (reached : Reachable firstfitPmmManager start ranges s allocated) :
    ∃ bs, Consistent s start.pages {i | Covered ranges i} allocated bs ∧ bs.Pairwise Below := by
  refine reached.consistent (ascending.imp Below.apart) ascending ?_ ?_
  · intro s s' allocated bs n page consistent ordered positive ran
    rcases firstfitAllocPages_spec consistent positive with
      ⟨refused, -⟩ | ⟨xs, b, ys, rfl, -, -, granted, carved⟩
    · rw [refused] at ran
      cases ran
      exact ⟨bs, by simpa [taken] using consistent, ordered⟩
    · rw [granted] at ran
      cases ran
      have shrunk := below_split (n := n) ordered
      exact ⟨_, carved, by simpa using shrunk⟩
  · intro blk bs ks sublist ordered gaps
    exact place_below (ordered.sublist sublist) gaps

/-- In every state of a run of the first-fit manager the free list is a ring of
blocks in strictly ascending order with a gap between any two of them, covering
exactly the registered pages that are not allocated; `nr_free` is the sum of the
`property` fields; `PG_property` marks the block heads among the registered
pages, and the other pages are as they were at boot. A caller that frees pages it
holds never runs into an assertion, and an allocation always comes back. -/
theorem firstfit_representation {start : FreeArea} {ranges : List Block}
    (ascending : ranges.Pairwise Below)
    (reached : Reachable firstfitPmmManager start ranges s allocated) :
    (∃ bs : List Block,
      Ring s.links .freeList (bs.map node) ∧
      (∀ b ∈ bs, (s.pages b.start).property = b.len ∧ 0 < b.len) ∧
      bs.Pairwise (fun a b => a.start < b.start) ∧
      bs.Pairwise Apart ∧
      (∀ i, Covered bs i ↔ Covered ranges i ∧ i ∉ allocated) ∧
      s.nrFree = (bs.map fun b => (s.pages b.start).property).sum ∧
      (∀ i, Covered ranges i →
        ((s.pages i).flags.property = true ↔ i ∈ bs.map Block.start)) ∧
      ∀ i, ¬ Covered ranges i → s.pages i = start.pages i) ∧
    (∀ base n, 0 < n → (∀ i, (⟨base, n⟩ : Block).Covers i → i ∈ allocated) →
      (firstfitFreePages s base n).isSome) ∧
    ∀ n, 0 < n → (firstfitAllocPages s n).isSome := by
  obtain ⟨bs, consistent, ordered⟩ := reachable_ascending ascending reached
  have holds := consistent.holds
  refine ⟨⟨bs, holds.ring, ?_, ?_, consistent.apart, consistent.covers, consistent.nrFree_eq,
    holds.heads, holds.untouched⟩, ?_, ?_⟩
  · exact fun b member => ⟨holds.property b member, consistent.positive b member⟩
  · apply ordered.imp
    intro a b below
    unfold Below Block.stop at below
    omega
  · intro base n positive held
    obtain ⟨s', freed, -⟩ := freePages_spec consistent positive held
    simp [firstfitFreePages, freed]
  · intro n positive
    rcases firstfitAllocPages_spec consistent positive with
      ⟨refused, -⟩ | ⟨xs, b, ys, -, -, -, granted, -⟩
    · simp [refused]
    · simp [granted]

/-- The run that registers `[1, 3)` and `[4, 8)`, allocates three pages and gives
the middle one of them back. -/
theorem firstfit_representation_partial_free :
    ∃ s, Reachable firstfitPmmManager eightPages [⟨1, 2⟩, ⟨4, 4⟩] s
        ((∅ ∪ taken 3 (some 4)) \ {i | (⟨5, 1⟩ : Block).Covers i}) ∧
      (∃ bs : List Block,
        Ring s.links .freeList (bs.map node) ∧
        ∀ i, Covered bs i ↔ Covered [⟨1, 2⟩, ⟨4, 4⟩] i ∧
          i ∉ (∅ ∪ taken 3 (some 4)) \ {i | (⟨5, 1⟩ : Block).Covers i}) := by
  have boot : Reachable firstfitPmmManager eightPages [⟨1, 2⟩, ⟨4, 4⟩] _ ∅ :=
    .boot (by decide) rfl
  have alloc := Reachable.alloc boot (show 0 < 3 by decide) rfl
  have held : ∀ i, (⟨5, 1⟩ : Block).Covers i → i ∈ (∅ ∪ taken 3 (some 4) : Set ℕ) := by
    intro i within
    simp only [taken, Block.Covers, Block.stop, Set.empty_union, Set.mem_ofPred_eq] at *
    omega
  have free := Reachable.free alloc (show 0 < 1 by decide) held rfl
  obtain ⟨⟨bs, ring, -, -, -, covers, -⟩, -⟩ := firstfit_representation (by decide) free
  exact ⟨_, free, bs, ring, covers⟩

/-! ## The order of the calls -/

/-- `firstfit_free_pages` on each range in turn. -/
def freeAll (s : FreeArea) : List Block → Option FreeArea
  | [] => some s
  | range :: rest => do
    let s ← firstfitFreePages s range.start range.len
    freeAll s rest

/-- `firstfit_alloc_pages` for each count in turn, with the ranges that were handed out. -/
def allocAll (s : FreeArea) : List ℕ → Option (FreeArea × List Block)
  | [] => some (s, [])
  | n :: rest => do
    let (s, page) ← firstfitAllocPages s n
    let (s, ranges) ← allocAll s rest
    some (s, (page.map fun start => ⟨start, n⟩).toList ++ ranges)

/-- The free list has these block heads, in this order and with these `property` fields. -/
def Lists (s : FreeArea) (bs : List Block) : Prop :=
  Ring s.links .freeList (bs.map node) ∧ ∀ b ∈ bs, (s.pages b.start).property = b.len

/-- The same free list and the same `nr_free`. -/
def SameFree (s s' : FreeArea) : Prop := (∃ bs, Lists s bs ∧ Lists s' bs) ∧ s.nrFree = s'.nrFree

section Order

variable {start : FreeArea} {ranges freed : List Block}

section

variable (ascending : ranges.Pairwise Below)
  (reached : Reachable firstfitPmmManager start ranges s allocated)
include ascending reached

/-- Two states of runs from one boot with the same pages allocated have the same free
list. -/
theorem reachable_sameFree
    (reached' : Reachable firstfitPmmManager start ranges s' allocated) : SameFree s s' := by
  obtain ⟨bs, consistent, ordered⟩ := reachable_ascending ascending reached
  obtain ⟨bs', consistent', ordered'⟩ := reachable_ascending ascending reached'
  have same : bs = bs' := by
    apply below_unique ordered ordered' consistent.positive consistent'.positive
    intro i
    rw [consistent.covers, consistent'.covers]
  subst same
  refine ⟨⟨bs, ⟨consistent.holds.ring, consistent.holds.property⟩,
    ⟨consistent'.holds.ring, consistent'.holds.property⟩⟩, ?_⟩
  rw [consistent.counted, consistent'.counted]

/-- Freeing ranges that are allocated and do not overlap comes back. -/
theorem freeAll_reachable
    (positive : ∀ b ∈ freed, 0 < b.len) (held : ∀ i, Covered freed i → i ∈ allocated)
    (disjoint : freed.Pairwise Beside) :
    ∃ s', freeAll s freed = some s' ∧
      Reachable firstfitPmmManager start ranges s' (allocated \ {i | Covered freed i}) := by
  induction freed generalizing s allocated with
  | nil => exact ⟨s, rfl, by simpa using reached⟩
  | cons range rest ih =>
    obtain ⟨beside, disjoint⟩ := pairwise_cons.mp disjoint
    obtain ⟨len, positive⟩ := forall_mem_cons.mp positive
    simp only [covered_cons] at held
    have own : ∀ i, range.Covers i → i ∈ allocated := fun i inside => held i (.inl inside)
    obtain ⟨bs, consistent, -⟩ := reachable_ascending ascending reached
    obtain ⟨s₁, first, -⟩ := freePages_spec consistent len own
    have still : ∀ i, Covered rest i → i ∈ allocated \ {i | range.Covers i} := by
      rintro i ⟨d, member, inside⟩
      refine ⟨held i (.inr ⟨d, member, inside⟩), fun twice => ?_⟩
      exact (beside d member).not_covers twice inside
    obtain ⟨s', others, reached'⟩ := ih (.free reached len own first) positive still disjoint
    refine ⟨s', by simp [freeAll, firstfitFreePages, first, others], ?_⟩
    have sets : (allocated \ {i | range.Covers i}) \ {i | Covered rest i} =
        allocated \ {i | Covered (range :: rest) i} := by
      ext i
      simp only [Set.mem_sdiff, Set.mem_ofPred_eq, covered_cons]
      tauto
    rwa [sets] at reached'

/-- Allocating hands out ranges that were free and do not overlap. -/
theorem allocAll_reachable {counts : List ℕ} (positive : ∀ n ∈ counts, 0 < n) :
    ∃ s' taken, allocAll s counts = some (s', taken) ∧
      Reachable firstfitPmmManager start ranges s' (allocated ∪ {i | Covered taken i}) ∧
      (∀ b ∈ taken, 0 < b.len) ∧ (∀ i, Covered taken i → i ∉ allocated) ∧ taken.Pairwise Beside := by
  induction counts generalizing s allocated with
  | nil => exact ⟨s, [], rfl, by simpa using reached, by simp, by simp, List.Pairwise.nil⟩
  | cons n rest ih =>
    obtain ⟨len, positive⟩ := forall_mem_cons.mp positive
    obtain ⟨bs, consistent, -⟩ := reachable_ascending ascending reached
    rcases firstfitAllocPages_spec consistent len with ⟨refused, -⟩ |
      ⟨xs, b, ys, shape, -, fits, granted, -⟩
    · obtain ⟨s', handedOut, ran, reached', others⟩ := ih reached positive
      exact ⟨s', handedOut, by simp [allocAll, refused, ran], reached', others⟩
    · have free : ∀ i, (⟨b.start, n⟩ : Block).Covers i → i ∉ allocated := by
        intro i inside
        have wide : b.Covers i := ⟨inside.1, inside.2.trans_le (Nat.add_le_add_left fits _)⟩
        exact ((consistent.covers i).mp ⟨b, by simp [shape], wide⟩).2
      obtain ⟨s', handedOut, ran, reached', lens, fresh, disjoint⟩ :=
        ih (.alloc reached len granted) positive
      refine ⟨s', ⟨b.start, n⟩ :: handedOut, by simp [allocAll, granted, ran], ?_,
        forall_mem_cons.mpr ⟨len, lens⟩, fun i covered => ?_,
        pairwise_cons.mpr ⟨fun d member => ?_, disjoint⟩⟩
      · have sets : allocated ∪ taken n (some b.start) ∪ {i | Covered handedOut i} =
            allocated ∪ {i | Covered (⟨b.start, n⟩ :: handedOut) i} := by
          ext i
          simp only [taken, Set.mem_union, Set.mem_ofPred_eq, covered_cons]
          tauto
        rwa [sets] at reached'
      · rcases covered_cons.mp covered with inside | later
        · exact free i inside
        · exact fun owned => fresh i later (.inl owned)
      · apply beside_of_not_covers len (lens d member)
        exact fun i inside inside' => fresh i ⟨d, member, inside'⟩ (.inr inside)

end

/-- In every state of a run of the first-fit manager, freeing ranges of allocated pages that
do not overlap gives the same free list and the same `nr_free` in every order; and allocating
any blocks and freeing all of them, in any order, gives back the free list. -/
theorem firstfit_free_any_order (ascending : ranges.Pairwise Below)
    (reached : Reachable firstfitPmmManager start ranges s allocated) :
    (∀ freed freed' : List Block, freed.Perm freed' → (∀ b ∈ freed, 0 < b.len) →
      (∀ b ∈ freed, ∀ i, b.Covers i → i ∈ allocated) → freed.Pairwise Beside →
      ∃ s₁ s₂, freeAll s freed = some s₁ ∧ freeAll s freed' = some s₂ ∧ SameFree s₁ s₂) ∧
    ∀ counts : List ℕ, (∀ n ∈ counts, 0 < n) → ∃ s₁ taken, allocAll s counts = some (s₁, taken) ∧
      ∀ freed : List Block, freed.Perm taken → ∃ s₂, freeAll s₁ freed = some s₂ ∧ SameFree s s₂ := by
  constructor
  · intro freed freed' perm positive held disjoint
    have own : ∀ i, Covered freed i → i ∈ allocated := fun i
      ⟨b, member, inside⟩ => held b member i inside
    have same : ∀ i, Covered freed' i ↔ Covered freed i := fun i => covered_perm perm.symm
    obtain ⟨s₁, first, reached₁⟩ := freeAll_reachable ascending reached positive own disjoint
    obtain ⟨s₂, second, reached₂⟩ := freeAll_reachable ascending reached
      (fun b member => positive b (perm.mem_iff.mpr member))
        (fun i covered => own i ((same i).mp covered))
      ((perm.pairwise_iff fun beside => beside.symm).mp disjoint)
    simp only [same] at reached₂
    exact ⟨s₁, s₂, first, second, reachable_sameFree ascending reached₁ reached₂⟩
  · intro counts positive
    obtain ⟨s₁, handedOut, ran, reached₁, lens, fresh, disjoint⟩ :=
      allocAll_reachable ascending reached positive
    refine ⟨s₁, handedOut, ran, ?_⟩
    intro freed perm
    have same : ∀ i, Covered freed i ↔ Covered handedOut i := fun i => covered_perm perm
    obtain ⟨s₂, back, reached₂⟩ := freeAll_reachable ascending reached₁
      (fun b member => lens b (perm.mem_iff.mp member)) (fun i covered => .inr ((same i).mp covered))
      ((perm.pairwise_iff fun beside => beside.symm).mpr disjoint)
    have sets : (allocated ∪ {i | Covered handedOut i}) \ {i | Covered freed i} = allocated := by
      ext i
      have apart := fresh i
      simp only [Set.mem_sdiff, Set.mem_union, Set.mem_ofPred_eq, same]
      tauto
    rw [sets] at reached₂
    exact ⟨s₂, back, reachable_sameFree ascending reached reached₂⟩

/-- Pages 4 to 6 were handed out; page 5 and then page 4, or page 4 and then page 5. -/
theorem firstfit_free_any_order_two :
    ∃ s, Reachable firstfitPmmManager eightPages [⟨1, 2⟩, ⟨4, 4⟩] s (∅ ∪ taken 3 (some 4)) ∧
      ∃ s₁ s₂, freeAll s [⟨5, 1⟩, ⟨4, 1⟩] = some s₁ ∧ freeAll s [⟨4, 1⟩, ⟨5, 1⟩] = some s₂ ∧
        SameFree s₁ s₂ := by
  have boot : Reachable firstfitPmmManager eightPages [⟨1, 2⟩, ⟨4, 4⟩] _ ∅ := .boot (by decide) rfl
  have alloc := Reachable.alloc boot (show 0 < 3 by decide) rfl
  refine ⟨_, alloc, (firstfit_free_any_order (by decide) alloc).1 _ _ (List.Perm.swap _ _ _)
    (by decide) ?_
    (by decide)⟩
  intro b member i inside
  simp only [taken, mem_cons, not_mem_nil, or_false, Block.Covers, Block.stop,
    Set.empty_union,
    Set.mem_ofPred_eq] at *
  rcases member with rfl | rfl
  · dsimp only at inside
    omega
  · dsimp only at inside
    omega

end Order

/-! ## The lowest run of free pages -/

/-- The `n` pages from `p` on are free. -/
def FreeRun (bs : List Block) (p n : ℕ) : Prop := ∀ i, (⟨p, n⟩ : Block).Covers i → Covered bs i

/-- In every state of a run of the first-fit manager, an allocation of `n` pages returns `NULL`
and changes nothing if there are no `n` free pages in a row. Otherwise it returns the lowest
page that begins such a row, and exactly these pages are no longer free. -/
theorem firstfit_alloc_lowest {start : FreeArea} {ranges : List Block} (ascending : ranges.Pairwise Below)
    (reached : Reachable firstfitPmmManager start ranges s allocated) (positive : 0 < n) :
    ∃ bs, Lists s bs ∧ (∀ i, Covered bs i ↔ Covered ranges i ∧ i ∉ allocated) ∧
      ((firstfitAllocPages s n = some (s, none) ∧ ∀ p, ¬ FreeRun bs p n) ∨
        ∃ s' p bs', firstfitAllocPages s n = some (s', some p) ∧ FreeRun bs p n ∧
          (∀ q, FreeRun bs q n → p ≤ q) ∧ Lists s' bs' ∧
          ∀ i, Covered bs' i ↔ Covered bs i ∧ ¬ (⟨p, n⟩ : Block).Covers i) := by
  obtain ⟨bs, consistent, ordered⟩ := reachable_ascending ascending reached
  refine ⟨bs, ⟨consistent.holds.ring, consistent.holds.property⟩, consistent.covers, ?_⟩
  -- no gap is left between free pages in a row, so they are part of one block
  have inBlock : ∀ q, FreeRun bs q n → ∃ d ∈ bs, d.start ≤ q ∧ n ≤ d.len := by
    intro q free
    obtain ⟨d, member, within⟩ := within_of_covered ordered positive free
    simp only [Within, Block.stop] at within
    exact ⟨d, member, within.1, by omega⟩
  rcases firstfitAllocPages_spec consistent positive with
    ⟨refused, short⟩ | ⟨xs, b, ys, rfl, before, fits, granted, carved⟩
  · refine .inl ⟨refused, fun p free => ?_⟩
    obtain ⟨d, member, -, long⟩ := inBlock p free
    exact (short d member).not_ge long
  · refine .inr ⟨_, b.start, _, granted, ?_, ?_, ⟨carved.holds.ring, carved.holds.property⟩, ?_⟩
    · intro i inside
      refine ⟨b, by simp, ?_⟩
      simp only [Block.Covers, Block.stop] at *
      omega
    · intro q free
      obtain ⟨d, member, low, long⟩ := inBlock q free
      rcases mem_append.mp member with earlier | rest
      · exact absurd long (before d earlier).not_ge
      · rcases mem_cons.mp rest with rfl | later
        · exact low
        · have below := (pairwise_cons.mp (pairwise_append.mp ordered).2.1).1 d later
          unfold Below Block.stop at below
          omega
    · intro i
      rw [carved.covers, consistent.covers, Set.mem_union, not_or, and_assoc]
      rfl

/-- Right after boot, page 1 is the lowest free page. -/
theorem firstfit_alloc_lowest_boot :
    ∃ s bs, Reachable firstfitPmmManager eightPages [⟨1, 2⟩, ⟨4, 4⟩] s ∅ ∧ Lists s bs ∧
      (firstfitAllocPages s 1).map Prod.snd = some (some 1) ∧ ∀ q, FreeRun bs q 1 → 1 ≤ q := by
  have boot : Reachable firstfitPmmManager eightPages [⟨1, 2⟩, ⟨4, 4⟩] _ ∅ := .boot (by decide) rfl
  obtain ⟨bs, lists, -, cases⟩ := firstfit_alloc_lowest (by decide) boot Nat.zero_lt_one
  refine ⟨_, bs, boot, lists, rfl, ?_⟩
  rcases cases with ⟨refused, -⟩ | ⟨s', p, -, ran, -, lowest, -⟩
  · have page : some (some 1) = some none := congrArg (Option.map Prod.snd) refused
    cases page
  · have page : some (some 1) = some (some p) := congrArg (Option.map Prod.snd) ran
    cases page
    exact lowest

end LiNos.FirstfitPmm
