import LiNos.PmmRuns

/-!
The next-fit physical memory manager (nextfit_pmm.c).

It shares everything but the search with the other list-based managers. The search starts
behind `Record` and comes round to it, so it passes the list head wherever `Record` is on a
block. There `le2page` names no page: what is read as `property` is a word in front of
`free_list` that belongs to some other variable, so its value is a parameter of a call. A
call that takes the list head for a block does not come back in this model.
-/

namespace LiNos.NextfitPmm

open CircularList Blocks Pmm List

/-- The free area and `Record`. -/
structure NextFit where
  area : FreeArea
  record : Entry

/-- `le2page(le, page_link)->property`, with the word in front of the list head. -/
def propertyOf (s : FreeArea) (front : ℕ) : Entry → ℕ
  | .freeList => front
  | .pageLink p => (s.pages p).property

/-- `while((le = list_next(le)) != Record)` of `next_alloc_pages`. -/
def search (s : FreeArea) (record : Entry) (front n : ℕ) : ℕ → Entry → Option (Option Entry)
  | 0, _ => none
  | fuel + 1, le =>
    if s.links.next le = record then some none
    else if n ≤ propertyOf s front (s.links.next le) then some (some (s.links.next le))
    else search s record front n fuel (s.links.next le)

/-- The end of `next_alloc_pages`: `Record` is what `le->prev` still says once `le` is off the
list. -/
def takeFrom (s : NextFit) (n : ℕ) : Entry → Option (NextFit × Option ℕ)
  | .freeList => none
  | .pageLink page =>
    let area := carve s.area page n (.pageLink page)
    some (⟨area, area.links.prev (.pageLink page)⟩, some page)

/-- `next_alloc_pages(n)`. -/
def nextAllocPages (front : ℕ) (s : NextFit) (n : ℕ) : Option (NextFit × Option ℕ) :=
  if n = 0 then none
  else if s.area.nrFree < n then some (s, none)
  else if n = s.area.nrFree ∧ propertyOf s.area front s.record = n then takeFrom s n s.record
  else do
    match ← search s.area s.record front n (s.area.npage + 2) s.record with
    | none => some (s, none)
    | some le => takeFrom s n le

def nextInit (s : NextFit) : NextFit := ⟨init s.area, .freeList⟩

def nextInitMemmap (s : NextFit) (base n : ℕ) : Option NextFit := do
  let area ← initMemmap s.area base n
  some { s with area := area }

/-- `next_free_pages(base, n)`, which does not look at `Record`. -/
def nextFreePages (s : NextFit) (base n : ℕ) : Option NextFit := do
  let area ← freePages s.area base n
  some { s with area := area }

/-! ## Runs -/

inductive Call where
  | alloc (front n : ℕ)
  | free (base n : ℕ)

/-- The states after boot from `start` with `ranges` and any calls that satisfy `P`, made by
callers that free only what they hold. What `Record` is before boot does not matter. -/
inductive Run (P : NextFit → Call → Prop) (start : FreeArea) (ranges : List Block) : NextFit → Set ℕ →
  Prop where
  | boot {s : NextFit} (record : Entry) (fit : ∀ range ∈ ranges, range.stop ≤ start.npage)
      (ran : registerAll nextInitMemmap (nextInit ⟨start, record⟩) ranges = some s) :
      Run P start ranges s ∅
  | alloc {s s' : NextFit} {allocated : Set ℕ} {front n : ℕ} {page : Option ℕ}
      (before : Run P start ranges s allocated) (heeded : P s (.alloc front n)) (positive : 0 < n)
      (ran : nextAllocPages front s n = some (s', page)) :
      Run P start ranges s' (allocated ∪ taken n page)
  | free {s s' : NextFit} {allocated : Set ℕ} {base n : ℕ}
      (before : Run P start ranges s allocated) (heeded : P s (.free base n)) (positive : 0 < n)
      (held : ∀ i, (⟨base, n⟩ : Block).Covers i → i ∈ allocated)
      (ran : nextFreePages s base n = some s') :
      Run P start ranges s' (allocated \ {i | (⟨base, n⟩ : Block).Covers i})

/-- `Record` is the list head or the link of a block on the free list. -/
def RecordOnList (s : NextFit) : Prop :=
  ∃ nodes, Ring s.area.links .freeList nodes ∧ s.record ∈ .freeList :: nodes

/-- The request is larger than all free blocks together; or the search starts at the list head,
and not every free page is asked for; or it starts at a block, and that block is all there is
and asked for; or a block behind it is long enough. -/
def Sees (s : NextFit) (n : ℕ) : Prop :=
  s.area.nrFree < n ∨ s.record = .freeList ∧ n < s.area.nrFree ∨
    s.record ≠ .freeList ∧ n = s.area.nrFree ∧ propertyOf s.area 0 s.record = n ∨
    ∃ xs ys, Ring s.area.links .freeList (xs ++ s.record :: ys) ∧ ∃ e ∈ ys, n ≤ propertyOf s.area 0 e

/-- The word in front of the list head is smaller than the request or not looked at, and the
range given back does not end where the block of `Record` starts. -/
def Heeds (s : NextFit) : Call → Prop
  | .alloc front n => front < n ∨ Sees s n
  | .free base n => s.record ≠ .pageLink (base + n)

variable {s s' : NextFit} {boot : ℕ → Page} {registered allocated : Set ℕ} {b : Block}
  {bs xs ys : List Block} {base front fuel n : ℕ} {area : FreeArea}

/-! ## Allocation -/

/-- Seen from its start, the walk stops at the first entry of the ring other than the start with
a `property` that is large enough, or comes round. -/
theorem search_spec (front n : ℕ) {record le : Entry} {done rest : List Entry}
    (ring : Ring area.links record (done ++ rest)) (atLast : le = lastOf record done)
    (enough : rest.length < fuel) :
    search area record front n fuel le =
      some (rest.find? fun e => decide (n ≤ propertyOf area front e)) := by
  induction fuel generalizing done rest le with
  | zero => cases enough
  | succ fuel ih =>
    have next := (linked_cut _ _ ring.linked).1
    rw [← atLast] at next
    rw [search, next]
    cases rest with
    | nil => exact if_pos rfl
    | cons e rest =>
      have other : e ≠ record := fun same => ring.head_notMem (by simp [same])
      rw [append_cons] at ring
      rw [firstOf_cons, if_neg other, find?_cons]
      by_cases fits : n ≤ propertyOf area front e
      · simp [fits]
      · simpa [fits] using ih ring lastOf_concat.symm (Nat.lt_of_succ_lt_succ enough)

/-- What a call does, in terms of the entries it looks at. -/
theorem nextAllocPages_eq (front : ℕ) {others : List Entry} (ring : Ring s.area.links s.record others)
    (short : others.length ≤ s.area.npage) (positive : 0 < n) :
    nextAllocPages front s n =
      if s.area.nrFree < n then some (s, none)
      else if n = s.area.nrFree ∧ propertyOf s.area front s.record = n then takeFrom s n s.record
      else
        match others.find? fun e => decide (n ≤ propertyOf s.area front e) with
        | none => some (s, none)
        | some le => takeFrom s n le := by
  have enough : others.length < s.area.npage + 2 := by omega
  have walked : Ring s.area.links s.record ([] ++ others) := ring
  have first : s.record = lastOf s.record [] := rfl
  rw [nextAllocPages, if_neg positive.ne', search_spec front n walked first enough]
  rfl

/-- The block that is carved up keeps its own `prev` field. -/
theorem carve_prev {page : ℕ} (linked : area.links.next (.pageLink page) ≠ .pageLink page)
    (positive : 0 < n) :
    (carve area page n (.pageLink page)).links.prev (.pageLink page) = area.links.prev
      (.pageLink page) := by
  have apart : Entry.pageLink page ≠ .pageLink (page + n) := by
    intro same
    have starts := Entry.pageLink.inj same
    omega
  unfold carve
  split
  · simp [listDel, listAddAfter, listAddBetween, apart, Ne.symm linked]
  · simp [listDel, Ne.symm linked]

/-- Taking a block off the list leaves `Record` on the entry in front of it. -/
theorem takeFrom_spec (consistent : Consistent s.area boot registered allocated (xs ++ b :: ys))
    (positive : 0 < n) (fits : n ≤ b.len) :
    ∃ s', takeFrom s n (node b) = some (s', some b.start) ∧
      Consistent s'.area boot registered (allocated ∪ taken n (some b.start))
        (xs ++ (split b n ++ ys)) ∧
      s'.record ∈ .freeList :: (xs ++ (split b n ++ ys)).map node := by
  have regroup : xs ++ b :: ys = (xs ++ [b]) ++ ys := by simp
  have cut : (xs ++ [b]) ++ split b n ++ ys = xs ++ b :: (split b n ++ ys) := by simp
  have carved := carve_consistent consistent regroup rfl positive fits cut
  have spot : lastOf Entry.freeList ((xs ++ [b]).map node) = .pageLink b.start := by
    rw [map_append, map_singleton, lastOf_concat]
    rfl
  rw [spot] at carved
  refine ⟨_, rfl, carved, ?_⟩
  have ring := consistent.holds.ring
  have inside : node b ∈ (xs ++ b :: ys).map node := mem_map.mpr ⟨b, by simp, rfl⟩
  have previous : s.area.links.prev (node b) = lastOf .freeList (xs.map node) := by
    rw [map_append, map_cons] at ring
    exact ring.prev_node
  have last : lastOf Entry.freeList (xs.map node) ∈ Entry.freeList :: xs.map node := lastOf_mem
  change (carve s.area b.start n (node b)).links.prev (node b) ∈ _
  rw [show node b = .pageLink b.start from rfl] at previous inside ⊢
  rw [carve_prev (ring.not_empty inside) positive, previous, map_append]
  rcases mem_cons.mp last with head | before
  · rw [head]
    exact mem_cons_self
  · exact mem_cons_of_mem _ (mem_append_left _ before)

/-- A block with its surroundings on the list. -/
theorem mem_nodes {e : Entry} (member : e ∈ bs.map node) : ∃ xs b ys, bs = xs ++ b :: ys ∧ e =
    node b := by
  obtain ⟨b, inList, rfl⟩ := mem_map.mp member
  obtain ⟨xs, ys, shape⟩ := append_of_mem inList
  exact ⟨xs, b, ys, shape, rfl⟩

section

variable (consistent : Consistent s.area boot registered allocated bs)
  (onList : s.record ∈ .freeList :: bs.map node)
include consistent onList

/-- A ring with `Record` on it, read from there on. -/
theorem ring_from_record :
    ∃ others, Ring s.area.links s.record others ∧ others.length ≤ s.area.npage ∧
      ∀ e ∈ others, e = .freeList ∨ e ∈ bs.map node := by
  have ring := consistent.holds.ring
  have short := consistent.length_le
  rcases mem_cons.mp onList with head | inside
  · rw [head]
    exact ⟨_, ring, by simpa using short, fun e member => .inr member⟩
  · obtain ⟨xs, ys, shape⟩ := append_of_mem inside
    rw [shape] at ring
    have lengths := congrArg length shape
    simp only [length_map, length_append, length_cons] at lengths
    exact ⟨_, ring.rotate, by simp; omega, by grind⟩

/-- An allocation returns `NULL` or takes an entry whose `property` is large enough. -/
theorem nextAllocPages_cases (front : ℕ) (positive : 0 < n) :
    nextAllocPages front s n = some (s, none) ∨ ∃ le ∈ .freeList :: bs.map node,
      n ≤ propertyOf s.area front le ∧ nextAllocPages front s n = takeFrom s n le := by
  obtain ⟨others, ring, short, known⟩ := ring_from_record consistent onList
  rw [nextAllocPages_eq front ring short positive]
  split_ifs with few whole
  · exact .inl rfl
  · exact .inr ⟨_, onList, whole.2.ge, rfl⟩
  · cases found : others.find? fun e => decide (n ≤ propertyOf s.area front e) with
    | none => exact .inl rfl
    | some e => exact .inr ⟨e, mem_cons.mpr (known e (mem_of_find?_eq_some found)),
        by simpa using find?_some found, rfl⟩

/-- An allocation that comes back leaves `Record` on the list: the entry it has taken is a block,
not the list head. -/
theorem nextAllocPages_keeps {page : Option ℕ} (positive : 0 < n)
    (ran : nextAllocPages front s n = some (s', page)) :
    ∃ bs', Consistent s'.area boot registered (allocated ∪ taken n page) bs' ∧
      s'.record ∈ .freeList :: bs'.map node := by
  rcases nextAllocPages_cases consistent onList front positive with eq | ⟨le, listed, long, eq⟩ <;>
    rw [eq] at ran
  · cases ran
    exact ⟨bs, by simpa [taken] using consistent, onList⟩
  · rcases mem_cons.mp listed with rfl | member
    · cases ran
    · obtain ⟨xs, b, ys, rfl, rfl⟩ := mem_nodes member
      have len := consistent.holds.property b (by simp)
      obtain ⟨s₁, took, after, record⟩ := takeFrom_spec consistent positive (long.trans_eq len)
      rw [took] at ran
      cases ran
      exact ⟨_, after, record⟩

/-- With a word in front of the list head that is smaller than the request, an allocation comes
back. -/
theorem nextAllocPages_returns (positive : 0 < n) (small : front < n) :
    (nextAllocPages front s n).isSome := by
  rcases nextAllocPages_cases consistent onList front positive with eq | ⟨le, -, long, eq⟩ <;> rw [eq]
  · rfl
  · cases le with
    | freeList => exact absurd (long.trans_lt small) (Nat.lt_irrefl _)
    | pageLink page => rfl

/-! ## Giving back -/

/-- `next_free_pages` comes back, and leaves `Record` on the list exactly if the range does not
end where the block of `Record` starts. -/
theorem nextFreePages_spec (positive : 0 < n)
    (held : ∀ i, (⟨base, n⟩ : Block).Covers i → i ∈ allocated) :
    ∃ s' bs', nextFreePages s base n = some s' ∧
      Consistent s'.area boot registered (allocated \ {i | (⟨base, n⟩ : Block).Covers i}) bs' ∧
      (s'.record ∈ .freeList :: bs'.map node ↔ s.record ≠ .pageLink (base + n)) := by
  obtain ⟨area, freed, after⟩ := freePages_spec consistent positive held
  refine ⟨{ s with area := area }, _, by simp [nextFreePages, freed], after, ?_⟩
  constructor
  · -- the last page of the range is free, so no block starts right behind it
    intro listed same
    rw [same] at listed
    obtain ⟨b, inList, start⟩ : ∃ b ∈ place (coalesce ⟨base, n⟩ bs).1 (coalesce ⟨base, n⟩ bs).2,
      b.start = base + n := by
      simpa [node] using listed
    have last : (⟨base, n⟩ : Block).Covers (base + n - 1) := by
      simp only [Block.Covers, Block.stop]
      omega
    obtain ⟨d, inList', inside⟩ : Covered (place (coalesce ⟨base, n⟩ bs).1 (coalesce ⟨base, n⟩ bs).2)
      (base + n - 1) := by
      rw [covered_place, coalesce_covers]
      exact .inl last
    have other : b ≠ d := by
      rintro rfl
      unfold Block.Covers at inside
      omega
    have gap := after.apart.forall inList inList' other
    simp only [Apart, Block.Covers, Block.stop] at *
    omega
  · intro other
    rcases mem_cons.mp onList with head | inside
    · rw [head]
      exact mem_cons_self
    · obtain ⟨b, inList, same⟩ := mem_map.mp inside
      have start : b.start ≠ (⟨base, n⟩ : Block).stop := by
        intro touching
        apply other
        rw [← same, node, touching]
        rfl
      rw [← same]
      refine mem_cons_of_mem _ (mem_map.mpr ?_)
      rcases coalesce_keeps_start consistent.apart inList start with grown | stays
      · exact ⟨_, mem_place.mpr (.inl rfl), by rw [node, node, grown]⟩
      · exact ⟨b, mem_place.mpr (.inr stays), rfl⟩

end

/-! ## Completeness -/

/-- `NULL` exactly if no block is long enough, and otherwise the head of one that is. -/
def Answers (s : NextFit) (n : ℕ) (nodes : List Entry) (page : Option ℕ) : Prop :=
  (page = none ↔ ∀ e ∈ nodes, propertyOf s.area 0 e < n) ∧
    ∀ p ∈ page, .pageLink p ∈ nodes ∧ n ≤ (s.area.pages p).property

/-- Whatever the word in front of the list head is, the call comes back with a right answer; so the
list head is not taken for a page. -/
def Serves (s : NextFit) (n : ℕ) : Prop :=
  ∃ nodes, Ring s.area.links .freeList nodes ∧
    ∀ front, ∃ s' page, nextAllocPages front s n = some (s', page) ∧ Answers s n nodes page

theorem propertyOf_node (front : ℕ) {area : FreeArea} {e : Entry} (member : e ∈ bs.map node) :
    propertyOf area front e = propertyOf area 0 e := by
  obtain ⟨b, -, rfl⟩ := mem_map.mp member
  rfl

theorem takeFrom_answers {e : Entry} (member : e ∈ bs.map node) (long : n ≤ propertyOf s.area front e) :
    ∃ s' page, takeFrom s n e = some (s', page) ∧ Answers s n (bs.map node) page := by
  rw [propertyOf_node front member] at long
  obtain ⟨b, -, rfl⟩ := mem_map.mp member
  refine ⟨_, _, rfl, iff_of_false (by simp) fun short => (short _ member).not_ge long, ?_⟩
  rintro p ⟨⟩
  exact ⟨member, long⟩

theorem serves_iff (consistent : Consistent s.area boot registered allocated bs)
    (onList : s.record ∈ .freeList :: bs.map node) (positive : 0 < n) : Serves s n ↔ Sees s n := by
  have ring := consistent.holds.ring
  have short := consistent.length_le
  have refused : ∀ front, (∀ e ∈ bs.map node, propertyOf s.area front e < n) → Answers s n (bs.map node) none :=
    fun front none => ⟨iff_of_true rfl fun e member => propertyOf_node front member ▸ none e member, by simp⟩
  by_cases few : s.area.nrFree < n
  · refine iff_of_true ⟨_, ring, fun front => ⟨s, none, ?_, refused 0 ?_⟩⟩ (.inl few)
    · rw [nextAllocPages, if_neg positive.ne', if_pos few]
    · intro e member
      obtain ⟨b, inList, rfl⟩ := mem_map.mp member
      exact (consistent.holds.property b inList).trans_lt ((consistent.len_le inList).trans_lt few)
  rcases mem_cons.mp onList with head | inside
  · have fromRecord : Ring s.area.links s.record (bs.map node) := head ▸ ring
    have eq := fun front => nextAllocPages_eq front fromRecord (by simpa using short) positive
    simp only [few, ↓reduceIte, head] at eq
    by_cases whole : n = s.area.nrFree
    · refine iff_of_false ?_ ?_
      · rintro ⟨nodes, -, all⟩
        obtain ⟨s', page, ran, -⟩ := all n
        rw [eq, if_pos ⟨whole, rfl⟩] at ran
        cases ran
      · rintro (few' | ⟨-, less⟩ | ⟨other, -⟩ | ⟨xs, ys, ring', -⟩)
        · exact few few'
        · omega
        · exact other head
        · exact ring'.head_notMem (by simp [head])
    · refine iff_of_true ⟨_, ring, fun front => ?_⟩ (.inr (.inl ⟨head, by omega⟩))
      rw [eq, if_neg fun both => whole both.1]
      cases found : (bs.map node).find? fun e => decide (n ≤ propertyOf s.area front e) with
      | none => exact ⟨s, none, rfl, refused front (by simpa using found)⟩
      | some e => exact takeFrom_answers (mem_of_find?_eq_some found) (by simpa using find?_some found)
  · obtain ⟨xs, b, ys, rfl, record⟩ := mem_nodes inside
    rw [map_append, map_cons] at ring
    have fromRecord := ring.rotate
    rw [← record] at fromRecord ring
    have other : s.record ≠ .freeList := by simp [record, node]
    have eq := fun front => nextAllocPages_eq front fromRecord
      (by simp at short ⊢; omega) positive
    simp only [few, ↓reduceIte, propertyOf_node _ inside] at eq
    by_cases whole : n = s.area.nrFree ∧ propertyOf s.area 0 s.record = n
    · refine iff_of_true ⟨_, consistent.holds.ring, fun front => ?_⟩ (.inr (.inr (.inl ⟨other, whole⟩)))
      rw [eq, if_pos whole]
      exact takeFrom_answers inside whole.2.ge
    simp only [if_neg whole] at eq
    by_cases behind : ∃ e ∈ ys.map node, n ≤ propertyOf s.area 0 e
    · refine iff_of_true ⟨_, consistent.holds.ring, fun front => ?_⟩ (.inr (.inr (.inr ⟨_, _, ring, behind⟩)))
      obtain ⟨e, member, long⟩ := behind
      rw [← propertyOf_node front member] at long
      rw [eq, find?_append]
      cases found : (ys.map node).find? fun e => decide (n ≤ propertyOf s.area front e) with
      | none => exact absurd (decide_eq_true long) (find?_eq_none.mp found e member)
      | some e =>
        refine takeFrom_answers ?_ (by simpa using find?_some found)
        rw [map_append, map_cons]
        exact mem_append_right _ (mem_cons_of_mem _ (mem_of_find?_eq_some found))
    · refine iff_of_false ?_ ?_
      · rintro ⟨nodes, -, all⟩
        obtain ⟨s', page, ran, -⟩ := all n
        have none : (ys.map node).find? (fun e => decide (n ≤ propertyOf s.area n e)) = none := by
          rw [find?_eq_none]
          intro e member long
          exact behind ⟨e, member, propertyOf_node n member ▸ of_decide_eq_true long⟩
        rw [eq, find?_append, none, Option.none_or, find?_cons_of_pos (by simp [propertyOf])] at ran
        cases ran
      · rintro (few' | ⟨head, -⟩ | ⟨-, both⟩ | ⟨xs', ys', ring', some⟩)
        · exact few few'
        · exact other head
        · exact whole both
        · have nodup := ring.nodup
          obtain ⟨-, -, rfl⟩ := (append_cons_inj_of_notMem (by grind) (by grind)).mp (ring.unique ring')
          exact behind some

/-! ## Runs that heed the condition -/

section Runs

variable {start : FreeArea} {ranges : List Block}

/-- Registering leaves `Record` alone. -/
theorem registerAll_next (ran : registerAll nextInitMemmap s ranges = some s') :
    registerAll initMemmap s.area ranges = some s'.area ∧ s'.record = s.record := by
  induction ranges generalizing s with
  | nil =>
    cases ran
    exact ⟨rfl, rfl⟩
  | cons range rest ih =>
    obtain ⟨s₁, first, others⟩ := Option.bind_eq_some_iff.mp ran
    obtain ⟨area, made, ⟨⟩⟩ := Option.bind_eq_some_iff.mp first
    obtain ⟨same, record⟩ := ih others
    exact ⟨Option.bind_eq_some_iff.mpr ⟨area, made, same⟩, record⟩

theorem Run.consistent {P : NextFit → Call → Prop} (apart : ranges.Pairwise Apart)
    (heeds : ∀ {s base n}, P s (.free base n) → s.record ≠ .pageLink (base + n))
    (run : Run P start ranges s allocated) :
    ∃ bs, Consistent s.area start.pages {i | Covered ranges i} allocated bs ∧
      s.record ∈ .freeList :: bs.map node := by
  induction run with
  | boot record fit ran =>
    obtain ⟨made, same⟩ := registerAll_next ran
    exact ⟨ranges, registerAll_boot apart fit made, same ▸ mem_cons_self⟩
  | alloc _ heeded positive ran ih =>
    obtain ⟨bs, consistent, onList⟩ := ih
    exact nextAllocPages_keeps consistent onList positive ran
  | free _ heeded positive held ran ih =>
    obtain ⟨bs, consistent, onList⟩ := ih
    obtain ⟨s₁, bs₁, ran₁, after, record⟩ := nextFreePages_spec consistent onList positive held
    rw [ran] at ran₁
    cases ran₁
    exact ⟨bs₁, after, record.mpr (heeds heeded)⟩

theorem recordOnList_iff (consistent : Consistent s.area boot registered allocated bs) :
    RecordOnList s ↔ s.record ∈ .freeList :: bs.map node := by
  constructor
  · rintro ⟨nodes, ring, member⟩
    rwa [ring.unique consistent.holds.ring] at member
  · exact fun member => ⟨_, consistent.holds.ring, member⟩

/-- In every run whose calls heed the condition `Record` is on the list. In each of its states an
allocation that heeds the condition comes back, a range of allocated pages can be given back,
and that leaves `Record` on the list exactly if it heeds the condition. -/
theorem record_stays_on_list (apart : ranges.Pairwise Apart)
    (run : Run Heeds start ranges s allocated) :
    RecordOnList s ∧
      (∀ front n, 0 < n → Heeds s (.alloc front n) → (nextAllocPages front s n).isSome) ∧
      ∀ base n, 0 < n → (∀ i, (⟨base, n⟩ : Block).Covers i → i ∈ allocated) →
        ∃ s', nextFreePages s base n = some s' ∧ (RecordOnList s' ↔ Heeds s (.free base n)) := by
  obtain ⟨bs, consistent, onList⟩ := run.consistent apart id
  refine ⟨(recordOnList_iff consistent).mpr onList, ?_, ?_⟩
  · rintro front n positive (small | sees)
    · exact nextAllocPages_returns consistent onList positive small
    · obtain ⟨nodes, -, serves⟩ := (serves_iff consistent onList positive).mpr sees
      obtain ⟨s', page, ran, -⟩ := serves front
      rw [ran]
      rfl
  · intro base n positive held
    obtain ⟨s', bs', ran, after, record⟩ := nextFreePages_spec consistent onList positive held
    exact ⟨s', ran, (recordOnList_iff after).trans record⟩

/-- Registered are `[1, 3)` and `[4, 8)`; one page and then two pages are allocated. -/
theorem run_two_allocs :
    ∃ s, Run Heeds eightPages [⟨1, 2⟩, ⟨4, 4⟩] s (∅ ∪ taken 1 (some 1) ∪ taken 2 (some 4)) ∧
      s.record = .pageLink 2 := by
  have boot : Run Heeds eightPages [⟨1, 2⟩, ⟨4, 4⟩] _ ∅ := .boot .freeList (by decide) rfl
  have first := Run.alloc boot (show Heeds _ (.alloc 0 1) from .inl Nat.zero_lt_one) Nat.zero_lt_one rfl
  exact ⟨_, .alloc first (show Heeds _ (.alloc 0 2) from .inl Nat.zero_lt_two) Nat.zero_lt_two rfl, rfl⟩

theorem record_stays_on_list_two :
    ∃ s, Run Heeds eightPages [⟨1, 2⟩, ⟨4, 4⟩] s (∅ ∪ taken 1 (some 1) ∪ taken 2 (some 4)) ∧
      s.record = .pageLink 2 ∧ RecordOnList s := by
  obtain ⟨s, run, record⟩ := run_two_allocs
  exact ⟨s, run, record, (record_stays_on_list (by decide) run).1⟩

theorem Run.weaken {P Q : NextFit → Call → Prop} (run : Run P start ranges s allocated)
    (weaker : ∀ s call, P s call → Q s call) : Run Q start ranges s allocated := by
  induction run with
  | boot record fit ran => exact .boot record fit ran
  | alloc _ heeded positive ran ih => exact .alloc ih (weaker _ _ heeded) positive ran
  | free _ heeded positive held ran ih => exact .free ih (weaker _ _ heeded) positive held ran

/-- Page 1 is given back in that state. Page 2 becomes part of its block and leaves the list,
with `Record` on it. -/
theorem record_merged_away : ∃ s allocated,
    Run (fun _ _ => True) eightPages [⟨1, 2⟩, ⟨4, 4⟩] s allocated ∧ ¬ RecordOnList s := by
  obtain ⟨s, run, onPage⟩ := run_two_allocs
  have held : ∀ i, (⟨1, 1⟩ : Block).Covers i → i ∈ (∅ ∪ taken 1 (some 1) ∪ taken 2 (some 4) : Set ℕ) :=
    fun i within => .inl (.inr within)
  obtain ⟨bs, consistent, onList⟩ := run.consistent (by decide) id
  obtain ⟨s', bs', ran, after, record⟩ := nextFreePages_spec consistent onList Nat.zero_lt_one held
  refine ⟨s', _, .free (run.weaken fun _ _ _ => trivial) trivial Nat.zero_lt_one held ran, ?_⟩
  exact fun listed => record.mp ((recordOnList_iff after).mp listed) onPage

/-- In every run whose calls heed the condition, a request is served if and only if the search
sees a block that is long enough before it passes the list head. -/
theorem nextfit_complete (apart : ranges.Pairwise Apart)
    (run : Run Heeds start ranges s allocated) (positive : 0 < n) : Serves s n ↔ Sees s n := by
  obtain ⟨bs, consistent, onList⟩ := run.consistent apart id
  exact serves_iff consistent onList positive

/-- After boot with `[1, 3)` and `[4, 8)` three pages are served. -/
theorem nextfit_complete_boot : ∃ s, Run Heeds eightPages [⟨1, 2⟩, ⟨4, 4⟩] s ∅ ∧ Serves s 3 := by
  have boot : Run Heeds eightPages [⟨1, 2⟩, ⟨4, 4⟩] _ ∅ := .boot .freeList (by decide) rfl
  exact ⟨_, boot, (nextfit_complete (by decide) boot (by decide)).mpr (.inr (.inl ⟨rfl, by decide⟩))⟩

/-- They leave `Record` on the block `[1, 3)`, which is not looked at: a request for two pages gets
`NULL`. -/
theorem nextfit_overlooks : ∃ s allocated,
    Run (fun _ _ => True) eightPages [⟨1, 2⟩, ⟨4, 4⟩] s allocated ∧ ¬ Serves s 2 := by
  have boot : Run (fun _ _ => True) eightPages [⟨1, 2⟩, ⟨4, 4⟩] _ ∅ := .boot .freeList (by decide) rfl
  refine ⟨_, _, .alloc boot trivial (by decide) (show nextAllocPages 0 _ 3 = some (_, some 4) from rfl), ?_⟩
  rintro ⟨nodes, ring, all⟩
  obtain ⟨s', page, ran, null, -⟩ := all 0
  cases ran
  have first : firstOf nodes .freeList = .pageLink 1 := ring.next_head.symm
  have listed : firstOf nodes .freeList ∈ nodes ++ [.freeList] := firstOf_mem
  rw [first] at listed
  exact absurd (null.mp rfl _ (by simpa using listed)) (by decide)

end Runs

end LiNos.NextfitPmm
