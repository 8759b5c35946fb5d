import LiNos.PmmRuns

/-!
The best-fit physical memory manager (bestfit_pmm.c).

`best_alloc_pages` walks the whole list for the shortest block that is long
enough and pushes the rest of it at the front of the list, so the list is in no
order. Freeing merges completely all the same (`coalesce_apart` asks for none),
and the search finds a shortest block that fits (`bestfit_representation`).
-/

namespace LiNos.BestfitPmm

open CircularList Blocks Pmm List

/-- `int x = u` for an `unsigned int u`. -/
def toInt (u : ℕ) : ℤ := Int.bmod u (2 ^ 32)

/-- The `unsigned int` that an `int` becomes next to an unsigned operand. -/
def toUnsigned (x : ℤ) : ℕ := (x % 2 ^ 32).toNat

/-- The locals of the search: `best_p`, `best_property` and `flag`. -/
structure Best where
  page : Option ℕ := none
  property : ℤ := -1
  flag : Bool := false
  deriving DecidableEq, Repr

/-- `if (best_property == -1 || p->property < best_property)`, under
`if (p->property >= n)`. -/
def consider (n p property : ℕ) (best : Best) : Best :=
  if n ≤ property then
    if best.property = -1 ∨ property < toUnsigned best.property then
      { page := some p, property := toInt property, flag := true }
    else best
  else best

/-- `while ((le = list_next(le)) != &free_list)` of `best_alloc_pages`. -/
def search (s : FreeArea) (n : ℕ) : ℕ → Entry → Best → Option Best
  | 0, _, _ => none
  | fuel + 1, le, best =>
    match s.links.next le with
    | .freeList => some best
    | .pageLink p => search s n fuel (.pageLink p) (consider n p (s.pages p).property best)

/-- `best_alloc_pages(n)`. -/
def bestAllocPages (s : FreeArea) (n : ℕ) : Option (FreeArea × Option ℕ) :=
  if n = 0 then none
  else if s.nrFree < n then some (s, none)
  else do
    let best ← search s n (s.npage + 1) .freeList {}
    if !best.flag then some (s, none)
    else
      match best.page with
      | none => some (s, none)
      | some page => some (carve s page n .freeList, some page)

def bestInit (s : FreeArea) : FreeArea := init s
def bestInitMemmap (s : FreeArea) (base n : ℕ) : Option FreeArea := initMemmap s base n
def bestFreePages (s : FreeArea) (base n : ℕ) : Option FreeArea := freePages s base n

def bestfitPmmManager : PmmManager := ⟨bestInit, bestInitMemmap, bestAllocPages, bestFreePages⟩

variable {s s' : FreeArea} {boot : ℕ → Page} {registered allocated : Set ℕ}
  {bs done rest : List Block} {best : Best} {n fuel : ℕ}

/-! ## The search -/

/-- A length that a block can have survives the trip through `int`. -/
theorem toUnsigned_toInt {u : ℕ} (small : u ≤ kmemPages) :
    toUnsigned (toInt u) = u ∧ toInt u ≠ -1 := by
  have bound : u < 2 ^ 31 := lt_of_le_of_lt small (by decide)
  have same : toInt u = u := Int.bmod_eq_of_le (by omega) (by omega)
  rw [same]
  unfold toUnsigned
  omega

/-- The locals describe a shortest block of at least `n` pages among the blocks
seen so far, or nothing if there is none. -/
inductive Shortest (n : ℕ) (seen : List Block) : Best → Prop where
  | none (short : ∀ b ∈ seen, b.len < n) : Shortest n seen {}
  | some (b : Block) (member : b ∈ seen) (fits : n ≤ b.len)
      (least : ∀ d ∈ seen, n ≤ d.len → b.len ≤ d.len) :
      Shortest n seen { page := some b.start, property := toInt b.len, flag := true }

theorem consider_shortest {b : Block} (shortest : Shortest n done best)
    (small : ∀ d ∈ done, d.len ≤ kmemPages) :
    Shortest n (done ++ [b]) (consider n b.start b.len best) := by
  unfold consider
  cases shortest with
  | none short =>
    simp only [true_or, ↓reduceIte]
    split_ifs with fits
    · exact .some b (by simp) fits (by grind)
    · exact .none (by grind)
  | some c member cFits least =>
    obtain ⟨back, notSentinel⟩ := toUnsigned_toInt (small c member)
    split_ifs with fits shorter
    · exact .some b (by simp) fits (by grind)
    · exact .some c (by simp [member]) cFits (by grind)
    · exact .some c (by simp [member]) cFits (by grind)

/-- The walk ends with a shortest fitting block of the whole list. -/
theorem search_spec (holds : Holds s boot registered [] (done ++ rest))
    (small : ∀ b ∈ done ++ rest, b.len ≤ kmemPages) (shortest : Shortest n done best)
    (enough : rest.length < fuel) :
    ∃ best', search s n fuel (lastOf .freeList (done.map node)) best = some best' ∧
      Shortest n (done ++ rest) best' := by
  induction fuel generalizing done rest best with
  | zero => cases enough
  | succ fuel ih =>
    rw [search, holds.next_last]
    cases rest with
    | nil => exact ⟨best, rfl, by rwa [append_nil]⟩
    | cons b rest =>
      have considered := consider_shortest (b := b) shortest (forall_mem_append.mp small).1
      rw [← holds.property b (by simp)] at considered
      rw [append_cons] at holds small ⊢
      have found := ih holds small considered (by simpa using enough)
      rwa [map_append, map_singleton, lastOf_concat] at found

/-! ## Allocation and runs -/

/-- What `best_alloc_pages` does: it comes back, with `NULL` and nothing changed
when no block has `n` pages, and otherwise with the first `n` pages of a shortest
block that has them. -/
theorem bestAllocPages_spec (consistent : Consistent s boot registered allocated bs)
    (positive : 0 < n) :
    (bestAllocPages s n = some (s, none) ∧ ∀ b ∈ bs, b.len < n) ∨
      ∃ b ∈ bs, n ≤ b.len ∧ (∀ d ∈ bs, n ≤ d.len → b.len ≤ d.len) ∧
        bestAllocPages s n = some (carve s b.start n .freeList, some b.start) ∧
        ∃ bs', Consistent (carve s b.start n .freeList) boot registered
          (allocated ∪ {i | (⟨b.start, n⟩ : Block).Covers i}) bs' := by
  by_cases few : s.nrFree < n
  · refine .inl ⟨by simp [bestAllocPages, positive.ne', few], fun b member => ?_⟩
    exact (consistent.len_le member).trans_lt few
  · have walked : Holds s boot registered [] ([] ++ bs) := consistent.holds
    have small : ∀ b ∈ [] ++ bs, b.len ≤ kmemPages := by
      intro b member
      have stop := consistent.stop_le member
      have bound := s.npage_le
      unfold Block.stop at stop
      omega
    have nothing : Shortest n [] {} := .none (by simp)
    have enough := Nat.lt_succ_of_le consistent.length_le
    obtain ⟨best, found, shortest⟩ := search_spec walked small nothing enough
    simp only [map_nil, lastOf_nil, nil_append] at found shortest
    cases shortest with
    | none short =>
      exact .inl ⟨by simp [bestAllocPages, positive.ne', few, found], short⟩
    | some b member fits least =>
      refine .inr ⟨b, member, fits, least, ?_, ?_⟩
      · simp [bestAllocPages, positive.ne', few, found]
      · obtain ⟨xs, ys, parts⟩ := append_of_mem member
        have front : bs = [] ++ bs := rfl
        have cut : [] ++ split b n ++ bs = (split b n ++ xs) ++ b :: ys := by simp [parts]
        exact ⟨_, carve_consistent consistent front parts positive fits cut⟩

/-- In every state of a run of the best-fit manager, started on ranges in any
order, the free list is a ring of blocks with a gap between any two of them,
covering exactly the registered pages that are not allocated, and `nr_free` is
the sum of the `property` fields. A caller that frees pages it holds never runs
into an assertion. An allocation answers `NULL` exactly when no block is long
enough, and otherwise the head of a shortest block among those that are. -/
theorem bestfit_representation {start : FreeArea} {ranges : List Block}
    (apart : ranges.Pairwise Apart)
    (reached : Reachable bestfitPmmManager start ranges s allocated) :
    ∃ bs : List Block,
      Ring s.links .freeList (bs.map node) ∧
      (∀ b ∈ bs, (s.pages b.start).property = b.len ∧ 0 < b.len) ∧
      bs.Pairwise Apart ∧
      (∀ i, Covered bs i ↔ Covered ranges i ∧ i ∉ allocated) ∧
      s.nrFree = (bs.map fun b => (s.pages b.start).property).sum ∧
      (∀ base n, 0 < n → (∀ i, (⟨base, n⟩ : Block).Covers i → i ∈ allocated) →
        (bestFreePages s base n).isSome) ∧
      ∀ n, 0 < n → ∃ s' page, bestAllocPages s n = some (s', page) ∧
        (page = none ↔ ∀ b ∈ bs, b.len < n) ∧
        ∀ p, page = some p → ∃ b ∈ bs, b.start = p ∧ n ≤ b.len ∧
          ∀ d ∈ bs, n ≤ d.len → b.len ≤ d.len := by
  obtain ⟨bs, consistent, -⟩ : ∃ bs,
      Consistent s start.pages {i | Covered ranges i} allocated bs ∧ True := by
    refine reached.consistent apart trivial ?_ (fun _ _ _ => trivial)
    intro s s' allocated bs n page consistent _ positive ran
    rcases bestAllocPages_spec consistent positive with
      ⟨refused, -⟩ | ⟨b, -, -, -, granted, bs', carved⟩
    · rw [refused] at ran
      cases ran
      exact ⟨bs, by simpa [taken] using consistent, trivial⟩
    · rw [granted] at ran
      cases ran
      exact ⟨bs', carved, trivial⟩
  have holds := consistent.holds
  refine ⟨bs, holds.ring, fun b member => ⟨holds.property b member, consistent.positive b member⟩,
    consistent.apart, consistent.covers, consistent.nrFree_eq, ?_, ?_⟩
  · intro base n positive held
    obtain ⟨s', freed, -⟩ := freePages_spec consistent positive held
    simp [bestFreePages, freed]
  · intro n positive
    rcases bestAllocPages_spec consistent positive with
      ⟨refused, short⟩ | ⟨b, member, fits, least, granted, -⟩
    · exact ⟨s, none, refused, by simpa using short, by simp⟩
    · refine ⟨_, some b.start, granted, iff_of_false (by simp) fun short => ?_, ?_⟩
      · exact absurd fits (Nat.not_le.mpr (short b member))
      · rintro p ⟨⟩
        exact ⟨b, member, rfl, fits, least⟩

/-- The run that registers `[4, 8)` and `[1, 3)`, takes one page from the shorter
block and gives it back. -/
theorem bestfit_representation_shorter_first :
    ∃ s, Reachable bestfitPmmManager eightPages [⟨4, 4⟩, ⟨1, 2⟩] s
        ((∅ ∪ taken 1 (some 1)) \ {i | (⟨1, 1⟩ : Block).Covers i}) ∧
      ∃ bs : List Block,
        Ring s.links .freeList (bs.map node) ∧
        bs.Pairwise Apart ∧
        ∀ i, Covered bs i ↔ Covered [⟨4, 4⟩, ⟨1, 2⟩] i ∧
          i ∉ (∅ ∪ taken 1 (some 1)) \ {i | (⟨1, 1⟩ : Block).Covers i} := by
  have boot : Reachable bestfitPmmManager eightPages [⟨4, 4⟩, ⟨1, 2⟩] _ ∅ :=
    .boot (by decide) rfl
  have alloc := Reachable.alloc boot (show 0 < 1 by decide) rfl
  have held : ∀ i, (⟨1, 1⟩ : Block).Covers i → i ∈ (∅ ∪ taken 1 (some 1) : Set ℕ) :=
    fun i within => .inr within
  have free := Reachable.free alloc (show 0 < 1 by decide) held rfl
  obtain ⟨bs, ring, -, apart, covers, -⟩ := bestfit_representation (by decide) free
  exact ⟨_, free, bs, ring, apart, covers⟩

end LiNos.BestfitPmm
