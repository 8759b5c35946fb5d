import LiNos.Blocks
import LiNos.NextCycle
import Mathlib.Tactic.Simps.Basic

/-!
The SLOB heap (`slob_alloc` and `slob_free` in kmalloc.c), as `kmalloc` uses it: without an
alignment.

Addresses are numbers of bytes. A free block has its length, in units of 8 bytes, and the
address of the next free block at its start; the memory of a live block is its owner's. The
pages that `__slob_get_free_page` would hand out during a call are a list, which is empty when
there are none left. Walks take fuel; a call without enough of it gives `none`, as does the
assertion of `slob_alloc`.
-/

namespace LiNos.Slob

open Blocks NextCycle Function List Option

/-- `SLOB_UNIT`, the size of a `slob_t`. -/
def slobUnit : ℕ := 8

def pageSize : ℕ := 4096

/-- `SLOB_UNITS`. -/
def slobUnits (size : ℕ) : ℕ := (size + slobUnit - 1) / slobUnit

/-- The headers of the blocks, by address, and `slobfree`. -/
structure Headers where
  units : ℕ → ℕ
  next : ℕ → ℕ
  slobfree : ℕ

@[simps -fullyApplied]
def Headers.setUnits (s : Headers) (b n : ℕ) : Headers :=
  { s with units := update s.units b n }

@[simps -fullyApplied]
def Headers.setNext (s : Headers) (b n : ℕ) : Headers := { s with next := update s.next b n }

/-- Where the loop of `slob_free` ends: behind `cur`, or at the place where the addresses
wrap around. -/
def Between (s : Headers) (b cur : ℕ) : Prop :=
  cur < b ∧ b < s.next cur ∨ s.next cur ≤ cur ∧ (cur < b ∨ b < s.next cur)

instance (s : Headers) (b cur : ℕ) : Decidable (Between s b cur) := inferInstanceAs (Decidable (_ ∨ _))

/-- The loop of `slob_free`. -/
def findPlace (fuel : ℕ) (s : Headers) (b : ℕ) : Option ℕ :=
  seek s.next (fun cur => decide (Between s b cur)) fuel s.slobfree

/-- `b` is joined with the block behind it, or linked to it. -/
def joinNext (s : Headers) (b cur : ℕ) : Headers :=
  if b + slobUnit * s.units b = s.next cur then
    (s.setUnits b (s.units b + s.units (s.next cur))).setNext b (s.next (s.next cur))
  else s.setNext b (s.next cur)

/-- The block `cur` is joined with `b`, or linked to it. -/
def joinPrev (s : Headers) (b cur : ℕ) : Headers :=
  if cur + slobUnit * s.units cur = b then
    (s.setUnits cur (s.units cur + s.units b)).setNext cur (s.next b)
  else s.setNext cur b

/-- `slob_free`. -/
def slobFree (fuel : ℕ) (s : Headers) (block size : ℕ) : Option Headers :=
  if block = 0 then some s
  else do
    let s := if size ≠ 0 then s.setUnits block (slobUnits size) else s
    let cur ← findPlace fuel s block
    some { joinPrev (joinNext s block cur) block cur with slobfree := cur }

/-- The block `cur` is long enough: its front is taken off the list. -/
def takeFront (s : Headers) (prev cur units : ℕ) : Headers :=
  if s.units cur = units then { s.setNext prev (s.next cur) with slobfree := prev }
  else
    let rest := cur + slobUnit * units
    let s := s.setNext prev rest
    let s := s.setUnits rest (s.units cur - units)
    let s := s.setNext rest (s.next cur)
    let s := s.setUnits cur units
    { s with slobfree := prev }

/-- The loop of `slob_alloc`. The result is the block, or none for `NULL`, and the pages that
were taken. -/
def allocLoop (size units : ℕ) : ℕ → Headers → ℕ → List ℕ → Option (Headers × Option ℕ × List ℕ)
  | 0, _, _, _ => none
  | fuel + 1, s, prev, offered =>
    if units ≤ s.units (s.next prev) then some
      (takeFront s prev (s.next prev) units, some (s.next prev), [])
    else if s.next prev = s.slobfree then
      if size = pageSize then some (s, none, [])
      else
        match offered with
        | [] => some (s, none, [])
        | page :: more => do
          let s ← slobFree fuel s page pageSize
          let (s, block, pages) ← allocLoop size units fuel s s.slobfree more
          some (s, block, page :: pages)
    else allocLoop size units fuel s (s.next prev) offered

/-- `slob_alloc(size, 0, 0)`. -/
def slobAlloc (fuel : ℕ) (s : Headers) (size : ℕ) (offered : List ℕ) : Option
  (Headers × Option ℕ × List ℕ) :=
  if size + slobUnit < pageSize then allocLoop size (slobUnits size) fuel s s.slobfree offered else none

/-! ## The free list -/

/-- The free blocks in address order. They are on one cycle, no two of them overlap or touch,
the arena is one of them, and their headers give their lengths. -/
structure FreeList (arena : ℕ) (s : Headers) (free : List Block) : Prop where
  cycle : Cycle s.next (free.map Block.start)
  ascending : free.Pairwise Below
  units : ∀ f ∈ free, f.len = slobUnit * s.units f.start
  positive : ∀ f ∈ free, 0 < f.len
  arena : ⟨arena, slobUnit⟩ ∈ free
  rover : s.slobfree ∈ free.map Block.start

variable {arena fuel more prev : ℕ} {s s' : Headers} {free lows highs gs live : List Block}
  {blk b d f l : Block} {n size : ℕ} {offered : List ℕ}

/-- Blocks beside each other are ordered by their starts. -/
theorem beside_iff (beside : Beside f blk) (positive : 0 < f.len) (positive' : 0 < blk.len) :
    f.start ≠ blk.start ∧ (f.start < blk.start ↔ f.stop ≤ blk.start) ∧
      (blk.start < f.start ↔ blk.stop ≤ f.start) := by
  simp only [Beside, Block.stop] at *
  omega

/-- The place of an address in an ascending list. -/
theorem exists_place (ascending : free.Pairwise Below) (apart : ∀ f ∈ free, f.start ≠ n) :
    ∃ lows highs, free = lows ++ highs ∧ (∀ f ∈ lows, f.start < n) ∧ ∀ f ∈ highs, n < f.start := by
  induction free with
  | nil => exact ⟨[], [], rfl, by simp, by simp⟩
  | cons f rest ih =>
    obtain ⟨fromFirst, ascendingTail⟩ := pairwise_cons.mp ascending
    obtain ⟨other, apart⟩ := forall_mem_cons.mp apart
    by_cases low : f.start < n
    · obtain ⟨lows, highs, rfl, below, above⟩ := ih ascendingTail apart
      exact ⟨f :: lows, highs, rfl, forall_mem_cons.mpr ⟨low, below⟩, above⟩
    · refine ⟨[], f :: rest, rfl, by simp, ?_⟩
      grind [Below, Block.stop]

/-- The entry behind one of the list: the next one, or the first. -/
theorem next_cases {xs ys : List Block} (cycle : Cycle s.next ((xs ++ l :: ys).map Block.start)) :
    (∃ h rest, ys = h :: rest ∧ s.next l.start = h.start) ∨
      ys = [] ∧ ∃ g rest, xs ++ [l] = g :: rest ∧ s.next l.start = g.start := by
  rw [map_append, map_cons] at cycle
  have turned : Cycle s.next (l.start :: (ys.map Block.start ++ xs.map Block.start)) := cycle.rotate
  cases ys with
  | cons h rest => exact .inl ⟨h, rest, rfl, turned.1.1⟩
  | nil =>
    right
    cases xs with
    | nil => exact ⟨rfl, l, [], rfl, turned.1⟩
    | cons g rest => exact ⟨rfl, g, rest ++ [l], rfl, turned.1.1⟩

/-- The first entry of an ascending list has the lowest address. -/
theorem first_le {g : Block} {rest : List Block} (ascending : (g :: rest).Pairwise Below)
    (member : l ∈ g :: rest) : g.start ≤ l.start := by
  have below := (pairwise_cons.mp ascending).1 l
  grind [Below, Block.stop]

theorem exists_between (list : FreeList arena s free) (apart : ∀ f ∈ free, f.start ≠ n) :
    ∃ c ∈ free.map Block.start, Between s n c := by
  obtain ⟨lows, highs, rfl, below, above⟩ := exists_place list.ascending apart
  rcases eq_nil_or_concat lows with rfl | ⟨xs, l, rfl⟩
  · rcases eq_nil_or_concat highs with rfl | ⟨hs, l, rfl⟩
    · cases list.arena
    · have cycle := list.cycle
      have ascending := list.ascending
      rw [nil_append, concat_eq_append] at cycle ascending
      rw [concat_eq_append] at above
      refine ⟨l.start, by simp, .inr ?_⟩
      rcases next_cases cycle with ⟨h, rest, ⟨⟩, -⟩ | ⟨-, g, rest, shape, step⟩
      rw [shape] at ascending above
      have member : l ∈ g :: rest := shape ▸ mem_append_right _ (mem_singleton_self l)
      rw [step]
      exact ⟨first_le ascending member, .inr (above g mem_cons_self)⟩
  · have low : l.start < n := below l (by simp)
    have cycle := list.cycle
    have ascending := list.ascending
    rw [concat_eq_append, append_assoc, singleton_append] at cycle ascending
    refine ⟨l.start, by simp, ?_⟩
    rcases next_cases cycle with ⟨h, rest, rfl, step⟩ | ⟨rfl, g, rest, shape, step⟩
    · exact .inl ⟨low, step ▸ above h mem_cons_self⟩
    · rw [shape] at ascending
      have member : l ∈ g :: rest := shape ▸ mem_append_right _ (mem_singleton_self l)
      exact .inr ⟨step ▸ first_le ascending member, .inl low⟩

/-- The loop ends at the block below the address, or at the last block if there is none. -/
theorem place_of_between (list : FreeList arena s free) (member : l ∈ free)
    (apart : ∀ f ∈ free, f.start ≠ n)
    (between : Between s n l.start) :
    ∃ lows highs, free = lows ++ highs ∧ (∀ f ∈ lows, f.start < n) ∧ (∀ f ∈ highs, n < f.start) ∧
      ((∃ xs, lows = xs ++ [l]) ∨ lows = [] ∧ ∃ hs, highs = hs ++ [l]) := by
  obtain ⟨xs, ys, rfl⟩ := append_of_mem member
  have ascending := list.ascending
  obtain ⟨-, rising, across⟩ := pairwise_append.mp ascending
  have fromLow : ∀ d ∈ xs, d.start < l.start := by grind [Below, Block.stop]
  have upTo : l.start < n → ∀ d ∈ xs ++ [l], d.start < n := by grind
  rcases next_cases list.cycle with ⟨h, rest, rfl, step⟩ | ⟨rfl, g, rest, shape, step⟩
  · have higher : l.start < h.start := by grind [Below, Block.stop]
    rw [Between, step] at between
    refine ⟨xs ++ [l], h :: rest, by simp, upTo (by omega), fun d inside => ?_, .inl ⟨xs, rfl⟩⟩
    have first := first_le (pairwise_cons.mp rising).2 inside
    omega
  · rw [shape] at ascending
    rw [Between, step] at between
    by_cases low : l.start < n
    · exact ⟨xs ++ [l], [], by simp, upTo low, by simp, .inl ⟨xs, rfl⟩⟩
    · refine ⟨[], xs ++ [l], rfl, by simp, fun d inside => ?_, .inr ⟨rfl, xs, rfl⟩⟩
      rw [shape] at inside
      have least := first_le ascending inside
      omega

/-! ## Joining in memory -/

section

variable (cycle : Cycle s.next (l.start :: gs.map Block.start))
  (fresh : blk.start ∉ l.start :: gs.map Block.start) (own : blk.len = slobUnit * s.units blk.start)
  (apart : blk.stop ≠ l.start)
include cycle fresh own apart

/-- The block in hand swallows the block behind `l` if it touches it. Skipping the block in
hand, `l` is followed by what is left. -/
theorem joinNext_spec (lens : ∀ f ∈ gs, f.len = slobUnit * s.units f.start)
    (made : s' = joinNext s blk.start l.start) :
    ∃ c rest, joinFront blk gs = c :: rest ∧ c.start = blk.start ∧
      c.len = slobUnit * s'.units blk.start ∧ rest ⊆ gs ∧
      Cycle (update s'.next l.start (s'.next blk.start)) (l.start :: rest.map Block.start) ∧
      ∀ x, x ≠ blk.start → s'.units x = s.units x ∧ s'.next x = s.next x := by
  have stop : blk.stop = blk.start + slobUnit * s.units blk.start := by
    rw [Block.stop, own]
  rw [joinNext, ← stop] at made
  cases gs with
  | nil =>
    rw [show s.next l.start = l.start from cycle.1, if_neg apart] at made
    subst made
    refine ⟨blk, [], rfl, rfl, own, List.Subset.refl _, ⟨?_, cycle.2⟩, fun x other => by simp [other]⟩
    change update _ _ _ _ = _
    simp
  | cons f gs =>
    have step : s.next l.start = f.start := cycle.1.1
    have distinct := cycle.nodup
    rw [step] at made
    split_ifs at made with touching
    · subst made
      refine ⟨⟨blk.start, blk.len + f.len⟩, gs, by rw [joinFront, if_pos touching], rfl, ?_,
        subset_cons_self _ _, cycle.remove (by simp) fun x member => ?_, fun x other => by simp [other]⟩
      · rw [own, lens f mem_cons_self, Headers.setNext_units, Headers.setUnits_units, update_self,
          Nat.mul_add]
      · have outside : x ≠ l.start ∧ x ≠ blk.start := by grind
        simp [outside]
    · subst made
      refine ⟨blk, f :: gs, by rw [joinFront, if_neg touching], rfl, own, List.Subset.refl _,
        cycle.congr fun x member => ?_, fun x other => by simp [other]⟩
      by_cases first : x = l.start
      · simp [first, step]
      · have other : x ≠ blk.start := fun same => fresh (same ▸ member)
        simp [first, other]

/-- Then `l` swallows the block in hand if it touches it, or is followed by it. -/
theorem join_spec (lens : ∀ f ∈ l :: gs, f.len = slobUnit * s.units f.start)
    (made : s' = joinPrev (joinNext s blk.start l.start) blk.start l.start) :
    Cycle s'.next ((joinFront l (joinFront blk gs)).map Block.start) ∧
      ∀ f ∈ joinFront l (joinFront blk gs), f.len = slobUnit * s'.units f.start := by
  obtain ⟨lenFirst, lens⟩ := forall_mem_cons.mp lens
  obtain ⟨s₁, first⟩ : ∃ s₁, s₁ = joinNext s blk.start l.start := ⟨_, rfl⟩
  obtain ⟨c, rest, joined, start, len, sub, skip, frame⟩ :=
    joinNext_spec cycle fresh own apart lens first
  rw [← first] at made
  have notFirst : l.start ≠ blk.start := fun same => fresh (same ▸ mem_cons_self)
  rw [← (frame l.start notFirst).1] at lenFirst
  have distinct := (nodup_cons.mp skip.nodup).1
  have lenRest : ∀ f ∈ rest, f.start ≠ blk.start ∧ f.start ≠ l.start ∧ f.len =
      slobUnit * s₁.units f.start := by
    intro f member
    have other : f.start ≠ blk.start :=
      fun same => fresh (mem_cons_of_mem _ (same ▸ mem_map_of_mem (sub member)))
    refine ⟨other, fun same => distinct (same ▸ mem_map_of_mem member), ?_⟩
    rw [(frame f.start other).1]
    exact lens f (sub member)
  rw [joined, joinFront, start]
  rw [joinPrev, ← lenFirst] at made
  change s' = if l.stop = blk.start then _ else _ at made
  split_ifs at made ⊢ with touching
  · subst made
    refine ⟨skip, forall_mem_cons.mpr ⟨by simp [lenFirst, len, Nat.mul_add], fun f later => ?_⟩⟩
    obtain ⟨-, other, length⟩ := lenRest f later
    simp [other, length]
  · subst made
    constructor
    · have notListed : blk.start ∉ l.start :: rest.map Block.start := by grind
      have linked : Cycle (s₁.setNext l.start blk.start).next
          (l.start :: blk.start :: rest.map Block.start) := by
        refine skip.insert notListed (by simp) (by simp [Ne.symm notFirst]) fun x member => ?_
        have other : x ≠ l.start := fun same => distinct (same ▸ member)
        simp [other]
      simpa [start] using linked
    · exact forall_mem_cons.mpr ⟨lenFirst, forall_mem_cons.mpr
        ⟨start ▸ len, fun f later => (lenRest f later).2.2⟩⟩

end

/-! ## Giving a block back -/

theorem FreeList.setUnits (list : FreeList arena s free) (fresh : n ∉ free.map Block.start) (k : ℕ) :
    FreeList arena (s.setUnits n k) free := by
  refine { list with units := ?_ }
  intro f member
  have other : f.start ≠ n := fun same => fresh (same ▸ mem_map_of_mem member)
  rw [list.units f member, Headers.setUnits_units, update_of_ne other]

section

variable (own : blk.len = slobUnit * s.units blk.start) (positive : 0 < blk.len)
  (apart : Apart ⟨arena, slobUnit⟩ blk)
  (made : s' = joinPrev (joinNext s blk.start l.start) blk.start l.start)
include own positive apart made

/-- The two joins, for a block that goes between `l` and what is above it. -/
theorem joined_between (list : FreeList arena s (lows ++ l :: highs)) (below : l.stop ≤ blk.start)
    (above : ∀ f ∈ highs, blk.stop ≤ f.start) (fresh : ∀ f ∈ lows ++ l :: highs, blk.start ≠ f.start) :
    FreeList arena { s' with slobfree := l.start } (lows ++ joinFront l (joinFront blk highs)) := by
  have ascending := list.ascending
  have cycle := list.cycle
  rw [map_append, map_cons] at cycle
  have turned : Cycle s.next (l.start :: (highs ++ lows).map Block.start) := by
    rw [map_append]
    exact cycle.rotate
  have members : ∀ f, f ∈ l :: (highs ++ lows) → f ∈ lows ++ l :: highs := by grind
  have notListed : blk.start ∉ l.start :: (highs ++ lows).map Block.start := by grind
  have notSelf : blk.stop ≠ l.start := by grind [Block.stop]
  obtain ⟨joined, lens⟩ := join_spec turned notListed own notSelf
    (fun f inside => list.units f (members f inside)) made
  -- the walk goes on at the lowest addresses, which nothing touches
  have lower : ∀ f ∈ lows, f.stop < l.start :=
    fun f inside => (pairwise_append.mp ascending).2.2 f inside l mem_cons_self
  have noWrap : ∀ f ∈ lows, blk.stop ≠ f.start := by grind [Block.stop]
  have noWrap' : ∀ f ∈ lows, l.stop ≠ f.start := by grind [Block.stop]
  rw [joinFront_append noWrap, joinFront_append noWrap'] at joined lens
  obtain ⟨positiveLow, positive'⟩ := forall_mem_append.mp list.positive
  obtain ⟨positiveFirst, positiveHigh⟩ := forall_mem_cons.mp positive'
  refine ⟨?_, joinBetween_below ascending below above, fun f inside => lens f ?_,
    forall_mem_append.mpr ⟨positiveLow, joinFront_len_pos positiveFirst
      (joinFront_len_pos positive positiveHigh)⟩,
    mem_joinBetween ascending below above list.arena apart, ?_⟩
  · rw [map_append] at joined ⊢
    exact joined.rotate
  · grind
  · obtain ⟨c, rest, shape, start⟩ := joinFront_cons l (joinFront blk highs)
    rw [shape]
    simp [start]

/-- The two joins, for a block below all others. -/
theorem joined_below (list : FreeList arena s (gs ++ [l]))
    (above : ∀ f ∈ gs ++ [l], blk.stop ≤ f.start) :
    FreeList arena { s' with slobfree := l.start } (joinFront blk (gs ++ [l])) := by
  have ascending := list.ascending
  obtain ⟨-, -, across⟩ := pairwise_append.mp ascending
  have cycle := list.cycle
  rw [map_append] at cycle
  have turned : Cycle s.next (l.start :: gs.map Block.start) := cycle.rotate
  have members : ∀ f, f ∈ l :: gs → f ∈ gs ++ [l] := by grind
  have fresh : blk.start ∉ l.start :: gs.map Block.start := by grind [Block.stop]
  -- the last block is not the one right above, unless it is the arena
  have notSelf : ∀ f ∈ [l], blk.stop ≠ f.start := by
    refine forall_mem_singleton.mpr ?_
    cases gs with
    | nil =>
      obtain rfl : ⟨arena, slobUnit⟩ = l := by simpa using list.arena
      grind [Apart, Block.stop]
    | cons g rest =>
      have first := above g (by simp)
      have later := across g mem_cons_self l (mem_singleton_self l)
      grind [Below, Block.stop]
  obtain ⟨joined, lens⟩ := join_spec turned fresh own (notSelf l (mem_singleton_self l))
    (fun f inside => list.units f (members f inside)) made
  have noTouch : ∀ f ∈ joinFront blk gs, l.stop ≠ f.start := by
    intro f inside
    have beyond := above l (by simp)
    rcases mem_joinFront inside with old | rfl | ⟨-, -, -, rfl⟩
    · have later := across f old l (mem_singleton_self l)
      grind [Below, Block.stop]
    · grind [Block.stop]
    · grind [Block.stop]
  rw [joinFront_of_ne noTouch] at joined lens
  refine ⟨?_, joinFront_below above ascending, fun f inside => ?_, joinFront_len_pos positive list.positive,
    mem_joinFront_of_ne list.arena (by grind [Apart, Block.stop]), ?_⟩
  · rw [joinFront_append notSelf, map_append]
    have whole : Cycle s'.next ([l.start] ++ (joinFront blk gs).map Block.start) := joined
    exact whole.rotate
  · rw [joinFront_append notSelf] at inside
    exact lens f (by grind)
  · rw [joinFront_append notSelf]
    simp

end

/-- `slob_free` comes back, and the free list then covers the block as well. -/
theorem slobFree_spec (list : FreeList arena s free) (own : blk.len = slobUnit * slobUnits size)
    (sized : size ≠ 0) (positive : 0 < blk.len) (nonnull : blk.start ≠ 0)
      (beside : ∀ f ∈ free, Beside f blk)
    (apart : Apart ⟨arena, slobUnit⟩ blk) :
    ∃ s' free', (∀ fuel, free.length ≤ fuel → slobFree fuel s blk.start size = some s') ∧
      FreeList arena s' free' ∧ ∀ i, Covered free' i ↔ blk.Covers i ∨ Covered free i := by
  have sides : ∀ f ∈ free, f.start ≠ blk.start ∧ (f.start < blk.start ↔ f.stop ≤ blk.start) ∧
      (blk.start < f.start ↔ blk.stop ≤ f.start) :=
    fun f inside => beside_iff (beside f inside) (list.positive f inside) positive
  have fresh : blk.start ∉ free.map Block.start := by grind
  obtain ⟨s₀, header⟩ : ∃ s₀, s₀ = s.setUnits blk.start (slobUnits size) := ⟨_, rfl⟩
  have list₀ : FreeList arena s₀ free := header ▸ list.setUnits fresh _
  have own₀ : blk.len = slobUnit * s₀.units blk.start := by
    rw [header, Headers.setUnits_units, update_self, own]
  -- the walk
  obtain ⟨c, member, between⟩ := exists_between list₀ fun f inside => (sides f inside).1
  obtain ⟨xs, ys, turned, cycle⟩ := list₀.cycle.turn list₀.rover
  have lengths : (xs ++ ys).length < free.length := by
    have total := congrArg length turned
    grind
  obtain ⟨cur, curListed, found, stops⟩ := seek_trail
    (fun cur => decide (Between s₀ blk.start cur)) cycle.1 (by grind) (decide_eq_true between) lengths
  have listed : cur ∈ free.map Block.start := by grind
  obtain ⟨l, inList, rfl⟩ := mem_map.mp listed
  obtain ⟨s₂, made⟩ : ∃ s₂, s₂ = joinPrev (joinNext s₀ blk.start l.start) blk.start l.start := ⟨_, rfl⟩
  have ran : ∀ fuel, free.length ≤ fuel →
      slobFree fuel s blk.start size = some { s₂ with slobfree := l.start } := by
    intro fuel enough
    have reached : findPlace fuel s₀ blk.start = some l.start := seek_more found enough
    rw [slobFree, if_neg nonnull, if_pos sized, ← header]
    dsimp only
    rw [reached, made]
    rfl
  obtain ⟨lows, highs, rfl, below, above, spot⟩ :=
    place_of_between list₀ inList (fun f inside => (sides f inside).1) (of_decide_eq_true stops)
  have behind : ∀ f ∈ highs, blk.stop ≤ f.start :=
    fun f inside => (sides f (mem_append_right _ inside)).2.2.mp (above f inside)
  rcases spot with ⟨lows, rfl⟩ | ⟨rfl, hs, rfl⟩
  · rw [append_assoc, singleton_append] at *
    refine ⟨_, _, ran, joined_between own₀ positive apart made list₀
      ((sides l inList).2.1.mp (below l (by simp)))
      behind (fun f inside => Ne.symm (sides f inside).1), ?_⟩
    intro i
    simp only [covered_append, covered_joinFront, covered_cons]
    tauto
  · exact ⟨_, _, ran, joined_below own₀ positive apart made list₀ behind, fun i => covered_joinFront⟩

theorem slobFree_more {block : ℕ} (ran : slobFree fuel s block size = some s')
    (enough : fuel ≤ more) :
    slobFree more s block size = some s' := by
  unfold slobFree at ran ⊢
  by_cases null : block = 0
  · rwa [if_pos null] at ran ⊢
  · rw [if_neg null] at ran ⊢
    simp only [bind_eq_bind, bind_eq_some_iff] at ran ⊢
    obtain ⟨cur, found, made⟩ := ran
    exact ⟨cur, seek_more found enough, made⟩

/-! ## Taking the front of a block -/

/-- Nothing is left of a block that is taken whole. -/
theorem split_units {k : ℕ} (own : f.len = slobUnit * k) (fits : n ≤ k) :
    split f (slobUnit * n) = if k = n then [] else [remainder f (slobUnit * n)] := by
  unfold Blocks.split slobUnit at *
  split
  · rw [if_neg (by omega)]
  · rw [if_pos (by omega)]

/-- The block behind `prev` loses its front, or leaves the cycle. -/
theorem takeFront_cycle {gs : List ℕ} (cycle : Cycle s.next (prev :: f.start :: gs))
    (own : f.len = slobUnit * s.units f.start) (fits : n ≤ s.units f.start)
    (fresh : ∀ d ∈ split f (slobUnit * n), d.start ∉ prev :: f.start :: gs) :
    Cycle (takeFront s prev f.start n).next
      (prev :: ((split f (slobUnit * n)).map Block.start ++ gs)) := by
  have distinct := cycle.nodup
  have apart : f.start ≠ prev := by grind
  have outside : ∀ x ∈ gs, x ≠ prev := by grind
  have short : Cycle (update s.next prev (s.next f.start)) (prev :: gs) :=
    cycle.remove (by simp) fun x member => by simp [outside x member]
  rw [split_units own fits] at fresh ⊢
  unfold takeFront
  split_ifs at fresh ⊢ with whole
  · exact short
  · have new : f.start + slobUnit * n ∉ prev :: f.start :: gs := fresh _ (mem_singleton_self _)
    have notPrev : prev ≠ f.start + slobUnit * n := by grind
    have newHead : f.start + slobUnit * n ∉ prev :: gs := by grind
    apply short.insert newHead
    · simp [notPrev]
    · simp [apart]
    · intro x member
      have other : x ≠ f.start + slobUnit * n := by grind
      simp [outside x member, other]

theorem takeFront_units (prev : ℕ) (fits : n ≤ s.units f.start)
    (own : f.len = slobUnit * s.units f.start)
    (positive : 0 < n) :
    (takeFront s prev f.start n).units f.start = n ∧
      (∀ d ∈ split f (slobUnit * n), d.len = slobUnit * (takeFront s prev f.start n).units d.start) ∧
      ∀ x, x ≠ f.start → (∀ d ∈ split f (slobUnit * n), x ≠ d.start) →
        (takeFront s prev f.start n).units x = s.units x := by
  have inside : f.start + slobUnit * n ≠ f.start := by
    unfold slobUnit
    omega
  rw [split_units own fits]
  unfold takeFront
  split_ifs with whole
  · exact ⟨whole, by simp, fun _ _ _ => rfl⟩
  · refine ⟨by simp, forall_mem_singleton.mpr ?_, ?_⟩
    · change f.len - slobUnit * n = slobUnit * update (update s.units _ _) f.start n
        (f.start + slobUnit * n)
      rw [update_of_ne inside, update_self, own]
      exact (Nat.mul_sub _ _ _).symm
    · intro x other apart
      have apartNew : x ≠ f.start + slobUnit * n := apart _ (mem_singleton_self _)
      simp [other, apartNew]

/-- The rest of a block starts where no block did. -/
theorem split_start_ne (ascending : (lows ++ f :: highs).Pairwise Below) (positive : 0 < n)
    (member : d ∈ split f n) (member' : b ∈ lows ++ f :: highs) : d.start ≠ b.start := by
  obtain ⟨-, ascendingHigh, across⟩ := pairwise_append.mp ascending
  unfold Blocks.split at member
  split_ifs at member with long
  · obtain rfl := mem_singleton.mp member
    have below := fun low => across b low f mem_cons_self
    have above := (pairwise_cons.mp ascendingHigh).1 b
    simp only [remainder, Below, Block.stop, mem_append, mem_cons] at *
    grind
  · cases member

theorem takeFront_list (list : FreeList arena s (lows ++ f :: highs)) (other : b ∈ lows ++ highs)
    (two : 2 ≤ n)
    (fits : n ≤ s.units f.start)
    (cycle : Cycle (takeFront s b.start f.start n).next
      ((lows ++ split f (slobUnit * n) ++ highs).map Block.start)) :
    FreeList arena (takeFront s b.start f.start n) (lows ++ split f (slobUnit * n) ++ highs) := by
  have own := list.units f (by simp)
  obtain ⟨-, rest, others⟩ := takeFront_units b.start fits own (by omega)
  have ascending := list.ascending
  have apart : ∀ d ∈ lows ++ highs, d.start ≠ f.start := by
    have distinct := list.cycle.nodup
    grind
  have members : ∀ d, d ∈ lows ++ split f (slobUnit * n) ++ highs ↔ d ∈ lows ++ highs ∨ d ∈ split f
    (slobUnit * n) := by grind
  have old : ∀ d, d ∈ lows ++ highs → d ∈ lows ++ f :: highs := by grind
  have slack : 0 < slobUnit * n := by
    unfold slobUnit
    omega
  refine ⟨cycle, below_split ascending, ?_, ?_, ?_, ?_⟩
  · intro d member
    rcases (members d).mp member with stays | new
    · rw [others d.start (apart d stays) fun e new => Ne.symm
      (split_start_ne ascending slack new (old d stays))]
      exact list.units d (old d stays)
    · exact rest d new
  · intro d member
    exact ((members d).mp member).elim (fun stays => list.positive d (old d stays)) split_len_pos
  · have listed := list.arena
    have long : f.len ≠ slobUnit := by
      unfold slobUnit at own ⊢
      omega
    grind
  · have slobfree : (takeFront s b.start f.start n).slobfree = b.start := by
      unfold takeFront
      split_ifs <;> rfl
    rw [slobfree]
    exact mem_map_of_mem ((members b).mpr (.inl other))

/-- The list around the entry behind `p`, and the cycle turned to begin at `p`. -/
theorem FreeList.around {p : Block} (list : FreeList arena s free) (member : p ∈ free)
    (two : 2 ≤ s.units (s.next p.start)) :
    ∃ lows f highs gs, free = lows ++ f :: highs ∧ f.start = s.next p.start ∧ p ∈ lows ++ highs ∧
      Cycle s.next (p.start :: f.start :: gs.map Block.start) ∧ p :: f :: gs ⊆ free ∧
      ∀ next ds, Cycle next (p.start :: (ds ++ gs).map Block.start) →
        Cycle next ((lows ++ ds ++ highs).map Block.start) := by
  obtain ⟨xs, ys, rfl⟩ := append_of_mem member
  have cycle := list.cycle
  rcases next_cases cycle with ⟨f, highs, rfl, step⟩ | ⟨rfl, f, rest, shape, step⟩
  · refine ⟨xs ++ [p], f, highs, highs ++ xs, by simp, step.symm, by simp, ?_, by grind, ?_⟩
    · rw [map_append] at cycle ⊢
      exact cycle.rotate
    · intro next ds cycle
      have whole : Cycle next ((p.start :: (ds ++ highs).map Block.start) ++ xs.map Block.start) := by
        simpa using cycle
      simpa using whole.rotate
  · cases xs with
    | nil =>
      obtain ⟨rfl, rfl⟩ : p = f ∧ [] = rest := by simpa using shape
      have own := list.units p (by simp)
      have isArena : ⟨arena, slobUnit⟩ = p := by simpa using list.arena
      have len : p.len = slobUnit := by rw [← isArena]
      rw [step] at two
      unfold slobUnit at own len
      omega
    | cons g xs =>
      obtain ⟨rfl, rfl⟩ : g = f ∧ xs ++ [p] = rest := by simpa using shape
      refine ⟨[], g, xs ++ [p], xs, rfl, step.symm, by simp, ?_, by grind, ?_⟩
      · rw [map_append] at cycle
        exact cycle.rotate
      · intro next ds cycle
        have whole : Cycle next ([p.start] ++ (ds ++ xs).map Block.start) := cycle
        simpa using whole.rotate

/-- The front of a free block is taken: the rest stays on the list, with `slobfree` in front of
it. -/
theorem takeFront_spec (list : FreeList arena s free) (member : prev ∈ free.map Block.start)
    (two : 2 ≤ n) (fits : n ≤ s.units (s.next prev)) :
    ∃ lows f highs, free = lows ++ f :: highs ∧ f.start = s.next prev ∧ slobUnit * n ≤ f.len ∧
      FreeList arena (takeFront s prev f.start n) (lows ++ split f (slobUnit * n) ++ highs) ∧
      (takeFront s prev f.start n).units f.start = n := by
  have slack : 0 < slobUnit * n := by
    unfold slobUnit
    omega
  obtain ⟨p, inList, rfl⟩ := mem_map.mp member
  obtain ⟨lows, f, highs, gs, rfl, start, other, turned, sub, back⟩ := list.around inList (two.trans fits)
  rw [← start] at fits
  have own := list.units f (by simp)
  have fresh : ∀ d ∈ split f (slobUnit * n), d.start ∉ p.start :: f.start :: gs.map Block.start := by
    intro d new inside
    rw [← map_cons, ← map_cons] at inside
    obtain ⟨e, inside, same⟩ := mem_map.mp inside
    exact split_start_ne list.ascending slack new (sub inside) same.symm
  have after := takeFront_cycle turned own fits fresh
  rw [← map_append] at after
  exact ⟨lows, f, highs, rfl, start, own ▸ Nat.mul_le_mul_left _ fits,
    takeFront_list list other two fits (back _ _ after), (takeFront_units _ fits own (by omega)).1⟩

/-! ## The search -/

/-- The walk from `prev` on ends at a block that is long enough, or at `slobfree` if no block on
the way is. -/
theorem allocLoop_walk (size n : ℕ) (offered : List ℕ) {rest : List ℕ}
    (trail : Trail s.next prev rest s.slobfree)
    (absent : s.slobfree ∉ rest) (k : ℕ) :
    ∃ p ∈ prev :: rest, ∃ j, k ≤ j ∧
      allocLoop size n (k + rest.length + 1) s prev offered = allocLoop size n (j + 1) s p offered ∧
      (n ≤ s.units (s.next p) ∨
        s.next p = s.slobfree ∧ ∀ q ∈ prev :: rest, s.units (s.next q) < n) := by
  induction rest generalizing prev with
  | nil =>
    refine ⟨prev, mem_cons_self, k, Nat.le_refl _, rfl, ?_⟩
    exact (le_or_gt _ _).imp_right fun short => ⟨trail, forall_mem_singleton.mpr short⟩
  | cons x rest ih =>
    by_cases fits : n ≤ s.units (s.next prev)
    · exact ⟨prev, mem_cons_self, k + (rest.length + 1), Nat.le_add_right _ _, rfl, .inl fits⟩
    · rw [mem_cons, not_or] at absent
      obtain ⟨p, member, j, enough, same, ending⟩ := ih trail.2 absent.2
      have step : allocLoop size n (k + (x :: rest).length + 1) s prev offered =
          allocLoop size n (k + rest.length + 1) s x offered := by
        unfold allocLoop
        rw [if_neg fits, trail.1, if_neg (Ne.symm absent.1)]
        rfl
      exact ⟨p, mem_cons_of_mem _ member, j, enough, step.trans same, ending.imp_right
        fun ⟨round, short⟩ => ⟨round, forall_mem_cons.mpr ⟨not_le.mp fits, short⟩⟩⟩

/-- A whole round from `slobfree`. -/
theorem allocLoop_round (list : FreeList arena s free) (size n : ℕ) (offered : List ℕ) (k : ℕ) :
    ∃ p ∈ free.map Block.start, ∃ j, k ≤ j ∧
      allocLoop size n (k + free.length) s s.slobfree offered = allocLoop size n (j + 1) s p offered ∧
      (n ≤ s.units (s.next p) ∨ s.next p = s.slobfree ∧ ∀ f ∈ free, s.units f.start < n) := by
  obtain ⟨xs, ys, turned, cycle⟩ := list.cycle.turn list.rover
  have members : ∀ q, q ∈ s.slobfree :: (xs ++ ys) ↔ q ∈ free.map Block.start := by grind
  have lengths : free.length = (xs ++ ys).length + 1 := by
    have total := congrArg length turned
    grind
  obtain ⟨p, member, j, enough, same, ending⟩ :=
    allocLoop_walk size n offered cycle.1 (nodup_cons.mp cycle.nodup).1 k
  refine ⟨p, (members p).mp member, j, enough, by rw [lengths, ← same]; rfl,
    ending.imp_right fun ⟨round, short⟩ => ⟨round, fun f inside => ?_⟩⟩
  obtain ⟨q, inCycle, step⟩ := list.cycle.exists_prev (mem_map_of_mem inside)
  rw [← step]
  exact short q ((members q).mpr inCycle)

theorem allocLoop_more {r : Headers × Option ℕ × List ℕ}
    (ran : allocLoop size n fuel s prev offered = some r) (enough : fuel ≤ more) :
    allocLoop size n more s prev offered = some r := by
  induction fuel generalizing s prev offered more r with
  | zero => cases ran
  | succ fuel ih =>
    obtain ⟨more, rfl⟩ : ∃ k, more = k + 1 := ⟨more - 1, by omega⟩
    have enoughMore : fuel ≤ more := Nat.le_of_succ_le_succ enough
    unfold allocLoop at ran ⊢
    split_ifs at ran ⊢
    · exact ran
    · exact ran
    · cases offered with
      | nil => exact ran
      | cons page rest =>
        simp only [bind_eq_bind, bind_eq_some_iff] at ran ⊢
        obtain ⟨s₁, freed, r₁, looped, result⟩ := ran
        exact ⟨s₁, slobFree_more freed enoughMore, r₁, ih looped enoughMore, result⟩
    · exact ih ran enoughMore

/-- The pages as blocks. -/
def pageBlock (page : ℕ) : Block := ⟨page, pageSize⟩

/-- What a successful search does: some free block, of the list as it was or with a new page
added, loses its front. -/
structure Taken (arena : ℕ) (s' : Headers) (free : List Block) (n block : ℕ)
  (used : List ℕ) : Prop where
  taken : ∃ lows f highs, f.start = block ∧ slobUnit * n ≤ f.len ∧ (lows ++ f :: highs).Pairwise Below ∧
    (∀ i, Covered (lows ++ f :: highs) i ↔ Covered (used.map pageBlock) i ∨ Covered free i) ∧
    FreeList arena s' (lows ++ split f (slobUnit * n) ++ highs)
  units : s'.units block = n

theorem allocLoop_take (size fuel : ℕ) (offered : List ℕ) {p : ℕ} (list : FreeList arena s free)
    (member : p ∈ free.map Block.start) (two : 2 ≤ n) (fits : n ≤ s.units (s.next p)) :
    ∃ s', allocLoop size n (fuel + 1) s p offered = some (s', some (s.next p), []) ∧
      Taken arena s' free n (s.next p) [] := by
  obtain ⟨lows, f, highs, shape, start, long, list', units⟩ := takeFront_spec list member two fits
  rw [start] at list' units
  refine ⟨takeFront s p (s.next p) n, ?_,
    ⟨lows, f, highs, start, long, shape ▸ list.ascending, ?_, list'⟩, units⟩
  · unfold allocLoop
    rw [if_pos fits]
  · intro i
    rw [← shape]
    simp

/-- The request is at least two units, and less than a page. -/
theorem slobUnits_bounds (more : slobUnit < size) (less : size + slobUnit < pageSize) :
    2 ≤ slobUnits size ∧ slobUnit * slobUnits size ≤ pageSize ∧ size ≠ pageSize := by
  unfold slobUnits slobUnit pageSize at *
  omega

/-- `slob_alloc` comes back: with a block, or with `NULL` if it had to ask for a page and there
was none. -/
theorem slobAlloc_spec (list : FreeList arena s free) (more : slobUnit < size)
    (less : size + slobUnit < pageSize)
    (pages : ∀ p ∈ offered, p ≠ 0 ∧ Apart ⟨arena, slobUnit⟩ (pageBlock p) ∧ ∀ f ∈ free, Beside f
      (pageBlock p)) :
    ∃ s' block used k, (∀ fuel, k ≤ fuel → slobAlloc fuel s size offered = some (s', block, used)) ∧
      used ⊆ offered ∧ used.length ≤ 1 ∧
      (block = none ∧ offered = [] ∧ used = [] ∧ s' = s ∨
        ∃ b, block = some b ∧ Taken arena s' free (slobUnits size) b used) := by
  obtain ⟨two, whole, notPage⟩ := slobUnits_bounds more less
  have start : ∀ fuel, slobAlloc fuel s size offered =
      allocLoop size (slobUnits size) fuel s s.slobfree offered := fun fuel => if_pos less
  -- either a block is long enough, or the walk comes round whatever the fuel is
  obtain ⟨p, member, j, -, walked, ending⟩ := allocLoop_round list size (slobUnits size) offered 0
  by_cases fits : slobUnits size ≤ s.units (s.next p)
  · obtain ⟨s', ran, taken⟩ := allocLoop_take size j offered list member two fits
    refine ⟨s', some (s.next p), [], 0 + free.length, ?_, nil_subset _, Nat.zero_le _,
      .inr ⟨_, rfl, taken⟩⟩
    intro fuel enough
    rw [start]
    exact allocLoop_more (walked.trans ran) enough
  · have short : ∀ f ∈ free, s.units f.start < slobUnits size := by
      rcases ending with long | ⟨-, short⟩
      · exact absurd long fits
      · exact short
    have round : ∀ k, ∃ p j, k ≤ j ∧ allocLoop size (slobUnits size)
      (k + free.length) s s.slobfree offered =
        allocLoop size (slobUnits size) (j + 1) s p offered ∧ s.next p = s.slobfree ∧
          ¬ slobUnits size ≤ s.units (s.next p) := by
      intro k
      obtain ⟨p, member, j, enough, walked, ending⟩ := allocLoop_round list size
        (slobUnits size) offered k
      obtain ⟨f, inside, step⟩ := mem_map.mp (list.cycle.next_mem member)
      have less := short f inside
      rw [step] at less
      rcases ending with long | ⟨round, -⟩
      · exact absurd long (not_le.mpr less)
      · exact ⟨p, j, enough, walked, round, not_le.mpr less⟩
    cases offered with
    | nil =>
      refine ⟨s, none, [], 0 + free.length, ?_, nil_subset _, Nat.zero_le _, .inl
        ⟨rfl, rfl, rfl, rfl⟩⟩
      intro fuel enough
      obtain ⟨p, j, -, walked, back, less⟩ := round 0
      rw [start]
      refine allocLoop_more (walked.trans ?_) enough
      unfold allocLoop
      rw [if_neg less, if_pos back, if_neg notPage]
    | cons page rest =>
      obtain ⟨nonnull, apart, beside⟩ := pages page mem_cons_self
      have own : (pageBlock page).len = slobUnit * slobUnits pageSize := rfl
      have positive : 0 < (pageBlock page).len := show 0 < pageSize by decide
      obtain ⟨s₁, free₁, freed, list₁, covers⟩ :=
        slobFree_spec list own (by decide) positive nonnull beside apart
      -- the block that holds the new page is long enough for any request
      obtain ⟨d, inside, within⟩ := within_of_covered list₁.ascending positive
        fun i inPage => (covers i).mpr (.inl inPage)
      have long : slobUnits size ≤ s₁.units d.start := by
        have len := list₁.units d inside
        simp only [Within, Block.stop, pageBlock] at within
        unfold slobUnit at whole len
        omega
      obtain ⟨p₁, member₁, j₁, -, walked₁, ending₁⟩ := allocLoop_round list₁ size
        (slobUnits size) rest 0
      have fits₁ : slobUnits size ≤ s₁.units (s₁.next p₁) := by
        rcases ending₁ with fits | ⟨-, short₁⟩
        · exact fits
        · exact absurd long (not_le.mpr (short₁ d inside))
      obtain ⟨s', ran₁, ⟨⟨lows, f, highs, first, length, ascending, covers', list'⟩, units⟩⟩ :=
        allocLoop_take size j₁ rest list₁ member₁ two fits₁
      refine ⟨s', some (s₁.next p₁), [page], (free.length + free₁.length) + free.length, ?_, by simp,
        by simp,
        .inr ⟨_, rfl, ⟨lows, f, highs, first, length, ascending, ?_, list'⟩, units⟩⟩
      · intro fuel enough
        obtain ⟨p, j, further, walked, back, less⟩ := round (free.length + free₁.length)
        rw [start]
        refine allocLoop_more (walked.trans ?_) enough
        unfold allocLoop
        rw [if_neg less, if_pos back, if_neg notPage]
        have freedThere : slobFree j s page pageSize = some s₁ := freed j (by omega)
        have looped : allocLoop size (slobUnits size) j s₁ s₁.slobfree rest = some
          (s', some (s₁.next p₁), []) :=
          allocLoop_more (walked₁.trans ran₁) (by omega)
        simp only [freedThere, looped, bind_eq_bind, bind_some]
      · intro i
        rw [covers', covers]
        simp

end LiNos.Slob
