import LiNos.Slob

/-!
Runs of the SLOB heap.

The free list of `Slob` and the live blocks together make up the pages that the heap was given
(`Heap`). Every call keeps that, and so does anything that the owners of the live blocks write
to them.
-/

namespace LiNos.Slob

open Blocks NextCycle Function List

variable {arena i : ℕ} {s s' : Headers} {free live : List Block} {b : Block} {n size : ℕ}

/-- The pages that may be handed out: they overlap neither each other nor a page of the heap,
and do not touch the arena. -/
def Fresh (arena : ℕ) (pages offered : List ℕ) : Prop :=
  (offered.map pageBlock).Pairwise Beside ∧
    ∀ p ∈ offered, p ≠ 0 ∧ Apart ⟨arena, slobUnit⟩ (pageBlock p) ∧ ∀ q ∈ pages, Beside (pageBlock q)
      (pageBlock p)

/-- The block that a call of `slob_alloc` hands out. -/
def handedOut (size : ℕ) (block : Option ℕ) : List Block :=
  (block.map fun b => ⟨b, slobUnit * slobUnits size⟩).toList

/-- The states that any sequence of calls leads to, with the live blocks and the pages of the
heap. Between the calls the owners of the live blocks write to them. -/
inductive Run (arena : ℕ) : Headers → List Block → List ℕ → Prop
  | boot (units next : ℕ → ℕ) :
    Run arena ⟨update units arena 1, update next arena arena, arena⟩ [] []
  | alloc {s s' : Headers} {live : List Block} {pages offered used : List ℕ} {size fuel : ℕ}
    {block : Option ℕ}
    (run : Run arena s live pages) (more : slobUnit < size) (less : size + slobUnit < pageSize)
    (fresh : Fresh arena pages offered) (ran : slobAlloc fuel s size offered = some (s', block, used)) :
    Run arena s' (handedOut size block ++ live) (used ++ pages)
  | free {s s' : Headers} {live : List Block} {pages : List ℕ} {size fuel : ℕ} {b : Block}
    (run : Run arena s live pages) (member : b ∈ live) (sized : size ≠ 0)
    (own : b.len = slobUnit * slobUnits size) (ran : slobFree fuel s b.start size = some s') :
    Run arena s' (live.erase b) pages
  | write {s s' : Headers} {live : List Block} {pages : List ℕ} (run : Run arena s live pages)
    (rover : s'.slobfree = s.slobfree)
    (inside : ∀ a, ¬ Covered live a → s'.units a = s.units a ∧ s'.next a = s.next a) :
    Run arena s' live pages

/-- The free list and the live blocks make up the pages and the arena. -/
structure Heap (arena : ℕ) (s : Headers) (free live : List Block) (pages : List ℕ) : Prop where
  list : FreeList arena s free
  positive : ∀ b ∈ live, 0 < b.len
  apart : live.Pairwise Beside
  disjoint : ∀ i, Covered free i → ¬ Covered live i
  covers : ∀ i, Covered free i ∨ Covered live i ↔
    (⟨arena, slobUnit⟩ : Block).Covers i ∨ Covered (pages.map pageBlock) i
  clear : ∀ p ∈ pages, p ≠ 0 ∧ Apart ⟨arena, slobUnit⟩ (pageBlock p)

variable {pages offered : List ℕ}

theorem Heap.live_in_pages (heap : Heap arena s free live pages) (covered : Covered live i) :
    Covered (pages.map pageBlock) i := by
  rcases (heap.covers i).mp (.inr covered) with inArena | inPages
  · exact absurd covered (heap.disjoint i ⟨_, heap.list.arena, inArena⟩)
  · exact inPages

/-- What lies in the pages does not touch the arena, and does not start at 0. -/
theorem Heap.clear_block (heap : Heap arena s free live pages) (positive : 0 < b.len)
    (inside : ∀ i, b.Covers i → Covered (pages.map pageBlock) i) :
    b.start ≠ 0 ∧ Apart ⟨arena, slobUnit⟩ b := by
  simp only [covered_map] at inside
  constructor
  · intro zero
    obtain ⟨p, member, covers⟩ := inside b.start ⟨Nat.le_refl _, Nat.lt_add_of_pos_right positive⟩
    have nonnull := (heap.clear p member).1
    have low : p ≤ b.start := covers.1
    omega
  · -- a block that touches the arena has a byte next to it or in it
    by_contra touching
    have near : ∃ i, b.Covers i ∧ arena ≤ i + 1 ∧ i ≤ arena + slobUnit := by
      by_cases low : arena ≤ b.start + 1
      · refine ⟨b.start, ⟨Nat.le_refl _, Nat.lt_add_of_pos_right positive⟩, low, ?_⟩
        simp only [Apart, Block.stop] at touching
        omega
      · refine ⟨arena - 1, ?_, ?_, ?_⟩
        · simp only [Apart, Block.Covers, Block.stop] at *
          omega
        · omega
        · omega
    obtain ⟨i, covers, above, below⟩ := near
    obtain ⟨p, member, hit⟩ := inside i covers
    have gap := (heap.clear p member).2
    simp only [Apart, Block.Covers, Block.stop] at gap hit
    omega

theorem boot_heap (arena : ℕ) (units next : ℕ → ℕ) :
    Heap arena ⟨update units arena 1, update next arena arena,
      arena⟩ [⟨arena, slobUnit⟩] [] [] := by
  refine ⟨⟨⟨?_, ?_⟩, pairwise_singleton _ _, ?_, ?_, mem_singleton_self _,
    mem_singleton_self _⟩,
    ?_, List.Pairwise.nil, ?_, ?_, ?_⟩
  · exact update_self _ _ _
  · exact nodup_singleton _
  · intro f member
    rw [mem_singleton.mp member]
    simp
  · intro f member
    rw [mem_singleton.mp member]
    exact Nat.succ_pos _
  · intro b never
    cases never
  · intro i _
    exact covered_nil
  · intro i
    simp
  · intro p never
    cases never

section

variable (heap : Heap arena s free live pages)

include heap

/-- No page that may be handed out overlaps the heap. -/
theorem Heap.fresh_apart (fresh : Fresh arena pages offered) {p : ℕ}
    (member : p ∈ offered) (covers : (pageBlock p).Covers i) : ¬ Covered free i ∧ ¬ Covered live i := by
  obtain ⟨-, apart, beside⟩ := fresh.2 p member
  rw [← not_or, heap.covers, covered_map]
  rintro (inArena | ⟨q, inPages, hit⟩)
  · exact apart.beside.not_covers inArena covers
  · exact (beside q inPages).not_covers hit covers

theorem Heap.beside {f : Block} (isFree : f ∈ free) (isLive : b ∈ live) : Beside f b := by
  apply beside_of_not_covers (heap.list.positive f isFree) (heap.positive b isLive)
  exact fun i covers covers' => heap.disjoint i ⟨f, isFree, covers⟩ ⟨b, isLive, covers'⟩

theorem Heap.alloc_pages (fresh : Fresh arena pages offered) :
    ∀ p ∈ offered, p ≠ 0 ∧ Apart ⟨arena, slobUnit⟩ (pageBlock p) ∧ ∀ f ∈ free, Beside f
      (pageBlock p) := by
  intro p member
  obtain ⟨nonnull, apart, -⟩ := fresh.2 p member
  refine ⟨nonnull, apart, fun f inside => ?_⟩
  apply beside_of_not_covers (heap.list.positive f inside) (show 0 < pageSize by decide)
  intro i covers hit
  exact (heap.fresh_apart fresh member hit).1 ⟨f, inside, covers⟩

/-- A successful `slob_alloc` makes the front of a free block live. -/
theorem Heap.taken {block : ℕ} {used : List ℕ}
    (fresh : Fresh arena pages offered) (sub : used ⊆ offered) (positive : 0 < n)
    (taken : Taken arena s' free n block used) :
    ∃ free', Heap arena s' free' (⟨block, slobUnit * n⟩ :: live) (used ++ pages) := by
  obtain ⟨⟨lows, f, highs, rfl, long, ascending, grown, list⟩, -⟩ := taken
  have len : 0 < slobUnit * n := Nat.mul_pos (by decide) positive
  have rest : ∀ i, Covered (lows ++ split f (slobUnit * n) ++ highs) i ↔
      (Covered (used.map pageBlock) i ∨ Covered free i) ∧ ¬
        (⟨f.start, slobUnit * n⟩ : Block).Covers i := by
    intro i
    rw [covered_split_iff (ascending.imp Below.apart) long, grown]
  have inside : ∀ i, (⟨f.start, slobUnit * n⟩ : Block).Covers i →
      Covered (used.map pageBlock) i ∨ Covered free i := by
    intro i covers
    apply (grown i).mp
    refine ⟨f, by simp, ?_⟩
    simp only [Block.Covers, Block.stop] at *
    omega
  have apart : ∀ i, Covered (used.map pageBlock) i ∨ Covered free i → ¬ Covered live i := by
    rintro i (inUsed | covered)
    · obtain ⟨p, member, covers⟩ := covered_map.mp inUsed
      exact (heap.fresh_apart fresh (sub member) covers).2
    · exact heap.disjoint i covered
  refine ⟨_, list, ?_, ?_, ?_, ?_, ?_⟩
  · intro b member
    rcases mem_cons.mp member with rfl | old
    · exact len
    · exact heap.positive b old
  · refine pairwise_cons.mpr ⟨fun b member => ?_, heap.apart⟩
    apply beside_of_not_covers len (heap.positive b member)
    intro i covers hit
    exact apart i (inside i covers) ⟨b, member, hit⟩
  · intro i covered inUse
    obtain ⟨before, notFront⟩ := (rest i).mp covered
    rcases covered_cons.mp inUse with front | old
    · exact notFront front
    · exact apart i before old
  · intro i
    have before := heap.covers i
    have within := inside i
    rw [rest, covered_cons, map_append, covered_append]
    tauto
  · intro p member
    rcases mem_append.mp member with new | old
    · obtain ⟨nonnull, gap, -⟩ := fresh.2 p (sub new)
      exact ⟨nonnull, gap⟩
    · exact heap.clear p old

/-- `slob_free` makes a live block free. -/
theorem Heap.freed (member : b ∈ live) (sized : size ≠ 0)
    (own : b.len = slobUnit * slobUnits size) :
    ∃ s' free' k, (∀ fuel, k ≤ fuel → slobFree fuel s b.start size = some s') ∧
      Heap arena s' free' (live.erase b) pages := by
  have positive := heap.positive b member
  have inPages : ∀ i, b.Covers i → Covered (pages.map pageBlock) i :=
    fun i covers => heap.live_in_pages ⟨b, member, covers⟩
  obtain ⟨nonnull, apart⟩ := heap.clear_block positive inPages
  obtain ⟨s', free', ran, list, covers⟩ := slobFree_spec heap.list own sized positive nonnull
    (fun f inside => heap.beside inside member) apart
  have rest : ∀ i, Covered (live.erase b) i ↔ Covered live i ∧ ¬ b.Covers i :=
    fun i => covered_erase heap.apart member
  refine ⟨s', free', free.length, ran, list, ?_, ?_, ?_, ?_, heap.clear⟩
  · exact fun d inside => heap.positive d (mem_of_mem_erase inside)
  · exact heap.apart.sublist erase_sublist
  · intro i covered inUse
    obtain ⟨old, notBlock⟩ := (rest i).mp inUse
    rcases (covers i).mp covered with block | before
    · exact notBlock block
    · exact heap.disjoint i before old
  · intro i
    have before := heap.covers i
    have within : b.Covers i → Covered live i := fun covers => ⟨b, member, covers⟩
    rw [covers, rest]
    tauto

/-- What the owners of the live blocks write does not reach the free list. -/
theorem Heap.written (rover : s'.slobfree = s.slobfree)
    (inside : ∀ a, ¬ Covered live a → s'.units a = s.units a ∧ s'.next a = s.next a) :
    Heap arena s' free live pages := by
  have list := heap.list
  have kept : ∀ f ∈ free, s'.units f.start = s.units f.start ∧ s'.next f.start = s.next f.start := by
    intro f member
    apply inside
    apply heap.disjoint
    exact ⟨f, member, Nat.le_refl _, Nat.lt_add_of_pos_right (list.positive f member)⟩
  refine { heap with list := ⟨?_, list.ascending, ?_, list.positive, list.arena, ?_⟩ }
  · apply list.cycle.congr
    intro x member
    obtain ⟨f, inList, rfl⟩ := mem_map.mp member
    exact (kept f inList).2
  · intro f member
    rw [(kept f member).1]
    exact list.units f member
  · rw [rover]
    exact list.rover

end

theorem slobAlloc_more {fuel more : ℕ} {r : Headers × Option ℕ × List ℕ}
    (ran : slobAlloc fuel s size offered = some r) (enough : fuel ≤ more) :
    slobAlloc more s size offered = some r := by
  unfold slobAlloc at ran ⊢
  split
  · rename_i small
    rw [if_pos small] at ran
    exact allocLoop_more ran enough
  · rename_i large
    rw [if_neg large] at ran
    cases ran

theorem Run.heap (run : Run arena s live pages) : ∃ free, Heap arena s free live pages := by
  induction run with
  | boot units next => exact ⟨_, boot_heap arena units next⟩
  | @alloc s s' live pages offered used size fuel block _ more less fresh ran ih =>
    obtain ⟨free, heap⟩ := ih
    obtain ⟨s₁, block₁, used₁, k, ran₁, sub, -, result⟩ :=
      slobAlloc_spec heap.list more less (heap.alloc_pages fresh)
    have same := (slobAlloc_more ran (Nat.le_max_left fuel k)).symm.trans
      (ran₁ _ (Nat.le_max_right fuel k))
    cases same
    rcases result with ⟨rfl, -, rfl, rfl⟩ | ⟨b, rfl, taken⟩
    · exact ⟨free, heap⟩
    · have positive : 0 < slobUnits size :=
        Nat.lt_of_lt_of_le (by decide) (slobUnits_bounds more less).1
      exact heap.taken fresh sub positive taken
  | @free s s' live pages size fuel b _ member sized own ran ih =>
    obtain ⟨free, heap⟩ := ih
    obtain ⟨s₁, free₁, k, ran₁, heap₁⟩ := heap.freed member sized own
    have same := (slobFree_more ran (Nat.le_max_left fuel k)).symm.trans
      (ran₁ _ (Nat.le_max_right fuel k))
    cases same
    exact ⟨free₁, heap₁⟩
  | write _ rover inside ih =>
    obtain ⟨free, heap⟩ := ih
    exact ⟨free, heap.written rover inside⟩

/-- Apart from the arena, the free list and the live blocks make up the pages. -/
theorem Heap.covers_pages (heap : Heap arena s free live pages) (i : ℕ) :
    (∃ f ∈ free, f.start ≠ arena ∧ f.Covers i) ∨ Covered live i ↔ Covered (pages.map pageBlock) i := by
  have list := heap.list
  have notBoth : Covered (pages.map pageBlock) i → ¬ (⟨arena, slobUnit⟩ : Block).Covers i := by
    intro inPages inArena
    obtain ⟨p, member, covers⟩ := covered_map.mp inPages
    exact (heap.clear p member).2.beside.not_covers inArena covers
  constructor
  · rintro (⟨f, member, other, covers⟩ | covered)
    · rcases (heap.covers i).mp (.inl ⟨f, member, covers⟩) with inArena | inPages
      · have symm : Std.Symm Apart := ⟨fun _ _ apart => apart.symm⟩
        have gaps : free.Pairwise Apart := list.ascending.imp Below.apart
        have different : f ≠ ⟨arena, slobUnit⟩ := fun same => other (congrArg Block.start same)
        exact absurd inArena ((gaps.forall member list.arena different).beside.not_covers covers)
      · exact inPages
    · exact heap.live_in_pages covered
  · intro covered
    rcases (heap.covers i).mpr (.inr covered) with ⟨f, member, covers⟩ | inLive
    · refine .inl ⟨f, member, ?_, covers⟩
      intro same
      have isArena : f = ⟨arena, slobUnit⟩ :=
        inj_on_of_nodup_map list.cycle.nodup member list.arena same
      exact notBoth covered (isArena ▸ covers)
    · exact .inr inLive

/-- The heap as a walk from `slobfree` sees it: `free` has the blocks in the order of the
walk. -/
structure Intact (arena : ℕ) (s : Headers) (free live : List Block) (pages : List ℕ) : Prop where
  visits : ∃ first rest, free = first :: rest ∧ first.start = s.slobfree ∧
    Trail s.next s.slobfree (rest.map Block.start) s.slobfree
  once : (free.map Block.start).Nodup
  /-- The addresses ascend, with a single wrap. -/
  wraps : ∃ highs lows, free = highs ++ lows ∧ (lows ++ highs).Pairwise fun a b => a.start < b.start
  node : ⟨arena, slobUnit⟩ ∈ free
  units : ∀ f ∈ free, f.len = slobUnit * s.units f.start ∧ 0 < f.len
  gaps : free.Pairwise Apart
  disjoint : (free ++ live).Pairwise Beside
  covers : ∀ i, (∃ f ∈ free, f.start ≠ arena ∧ f.Covers i) ∨ Covered live i ↔ Covered
    (pages.map pageBlock) i

theorem Heap.intact (heap : Heap arena s free live pages) : ∃ free', Intact arena s free' live pages :=
    by
  have list := heap.list
  obtain ⟨f, member, start⟩ := mem_map.mp list.rover
  obtain ⟨lows, highs, rfl⟩ := append_of_mem member
  have perm : ((f :: highs) ++ lows).Perm (lows ++ f :: highs) := perm_append_comm
  rw [cons_append] at perm
  have cycle := list.cycle
  rw [map_append, map_cons] at cycle
  have turned : Cycle s.next (f.start :: (highs ++ lows).map Block.start) := by
    rw [map_append]
    exact cycle.rotate
  have rising : (lows ++ f :: highs).Pairwise fun a b => a.start < b.start := by
    apply list.ascending.imp
    intro a b below
    unfold Below Block.stop at below
    omega
  have gaps : (lows ++ f :: highs).Pairwise Apart := list.ascending.imp Below.apart
  refine ⟨f :: (highs ++ lows), ⟨f, highs ++ lows, rfl, start, ?_⟩, turned.nodup,
    ⟨f :: highs, lows, rfl, rising⟩,
    perm.mem_iff.mpr list.arena, ?_, ?_, ?_, ?_⟩
  · rw [← start]
    exact turned.1
  · intro d inside
    have listed := perm.mem_iff.mp inside
    exact ⟨list.units d listed, list.positive d listed⟩
  · exact (perm.pairwise_iff fun apart => Apart.symm apart).mpr gaps
  · refine pairwise_append.mpr ⟨?_, heap.apart, ?_⟩
    · exact (perm.pairwise_iff fun beside => Beside.symm beside).mpr (gaps.imp Apart.beside)
    · exact fun d inside b inside' => heap.beside (perm.mem_iff.mp inside) inside'
  · intro i
    rw [← heap.covers_pages i]
    simp only [perm.mem_iff]

/-- In every run of the heap the free list is a cycle in ascending order with a single wrap, free
and live blocks do not overlap and make up the pages, and no two free blocks touch. `slob_alloc`
comes back, with a block of the units asked for or with `NULL` when there is no page; and
`slob_free` comes back. -/
theorem slob_heap_intact (run : Run arena s live pages) :
    (∃ free, Intact arena s free live pages) ∧
      (∀ size offered, slobUnit < size → size + slobUnit < pageSize → Fresh arena pages offered →
        ∃ s' block used k, (∀ fuel, k ≤ fuel → slobAlloc fuel s size offered = some (s', block, used)) ∧
          (block = none → offered = []) ∧
          ∀ b, block = some b → slobUnits size ≤ s'.units b ∧
            ∀ i, (⟨b, slobUnit * slobUnits size⟩ : Block).Covers i →
              ¬ Covered live i ∧ Covered ((used ++ pages).map pageBlock) i) ∧
      ∀ b ∈ live, ∀ size, size ≠ 0 → b.len = slobUnit * slobUnits size →
        ∃ s' k, ∀ fuel, k ≤ fuel → slobFree fuel s b.start size = some s' := by
  obtain ⟨free, heap⟩ := run.heap
  refine ⟨heap.intact, ?_, ?_⟩
  · intro size offered more less fresh
    obtain ⟨s', block, used, k, ran, sub, -, result⟩ :=
      slobAlloc_spec heap.list more less (heap.alloc_pages fresh)
    refine ⟨s', block, used, k, ran, ?_, ?_⟩
    · rintro rfl
      rcases result with ⟨-, empty, -⟩ | ⟨b, never, -⟩
      · exact empty
      · cases never
    · rintro b rfl
      rcases result with ⟨never, -⟩ | ⟨c, same, taken⟩
      · cases never
      · cases same
        refine ⟨taken.units.ge, ?_⟩
        have positive : 0 < slobUnits size := Nat.lt_of_lt_of_le (by decide)
          (slobUnits_bounds more less).1
        obtain ⟨free', heap'⟩ := heap.taken fresh sub positive taken
        intro i covers
        have live' : Covered (⟨b, slobUnit * slobUnits size⟩ :: live) i := covered_cons.mpr
          (.inl covers)
        refine ⟨?_, heap'.live_in_pages live'⟩
        rintro ⟨d, member, hit⟩
        exact ((pairwise_cons.mp heap'.apart).1 d member).not_covers covers hit
  · intro b member size sized own
    obtain ⟨s', free', k, ran, -⟩ := heap.freed member sized own
    exact ⟨s', k, ran⟩

/-- 24 bytes are asked for, and a page is at hand. -/
theorem slob_heap_intact_first : ∃ s free,
    Run 8 s [⟨4096, 24⟩] [4096] ∧ Intact 8 s free [⟨4096, 24⟩] [4096] := by
  have boot : Run 8 _ [] [] := Run.boot (fun _ => 0) (fun _ => 0)
  have fresh : Fresh 8 [] [4096] := by
    refine ⟨pairwise_singleton _ _, ?_⟩
    intro p member
    rw [mem_singleton.mp member]
    exact ⟨by decide, by decide, fun q never => by cases never⟩
  have first := @Run.alloc 8 _ _ _ _ _ _ 24 9 _ boot (by decide) (by decide) fresh rfl
  obtain ⟨free, intact⟩ := (slob_heap_intact first).1
  exact ⟨_, free, first, intact⟩

end LiNos.Slob
