import LiNos.Blocks
import LiNos.CircularList
import Mathlib.Data.Set.Basic
import Mathlib.Data.List.Perm.Subperm
import Mathlib.Tactic.Simps.Basic

/-!
`struct Page` and `free_area_t` (memlayout.h), and the two operations that the
list-based physical memory managers have word for word in common:
`*_init_memmap` and `*_free_pages`.

A page is its index in `pages`, so `base + n` is pointer arithmetic. Counts are
plain numbers: every one of them is bounded by `npage`. `none` means that the kernel did not
come back from the call: an assertion failed, or a walk over the list did not
return to `&free_list`.
-/

namespace LiNos.Pmm

open CircularList Blocks Function List Option

/-- The two bits of `flags` in use. -/
structure PageFlags where
  /-- `PG_reserved` -/
  reserved : Bool := false
  /-- `PG_property` -/
  property : Bool := false
  deriving DecidableEq, Repr

structure Page where
  ref : ℤ := 0
  flags : PageFlags := {}
  property : ℕ := 0
  deriving DecidableEq, Repr

/-- Where a list pointer of the allocator can point. -/
inductive Entry where
  /-- `&free_list` -/
  | freeList
  /-- `&(p->page_link)` -/
  | pageLink (p : ℕ)
  deriving DecidableEq, Repr

/-- `KMEMSIZE / PGSIZE` -/
def kmemPages : ℕ := 0x38000000 / 4096

/-- `pages[0 .. npage)`, their `page_link`s and `free_area`. -/
structure FreeArea where
  pages : ℕ → Page
  npage : ℕ
  links : Links Entry
  nrFree : ℕ
  /-- `page_init` cuts `maxpa` off at `KMEMSIZE`. -/
  npage_le : npage ≤ kmemPages

namespace FreeArea

@[simps -fullyApplied] def setPage (s : FreeArea) (p : ℕ) (page : Page) : FreeArea :=
  { s with pages := update s.pages p page }

/-- `p->property = n` -/
def setProperty (s : FreeArea) (p n : ℕ) : FreeArea :=
  s.setPage p { s.pages p with property := n }

/-- `SetPageProperty(p)` and `ClearPageProperty(p)`. -/
def setPageProperty (s : FreeArea) (p : ℕ) (value : Bool) : FreeArea :=
  s.setPage p { s.pages p with flags := { (s.pages p).flags with property := value } }

@[simps -fullyApplied] def setLinks (s : FreeArea) (links : Links Entry) : FreeArea := { s with links := links }

variable (s : FreeArea) (p n : ℕ) (page : Page) (value : Bool) (links : Links Entry)

@[simp] theorem setProperty_npage : (s.setProperty p n).npage = s.npage := rfl
@[simp] theorem setProperty_links : (s.setProperty p n).links = s.links := rfl
@[simp] theorem setProperty_nrFree : (s.setProperty p n).nrFree = s.nrFree := rfl
@[simp] theorem setPageProperty_npage : (s.setPageProperty p value).npage = s.npage := rfl
@[simp] theorem setPageProperty_links : (s.setPageProperty p value).links = s.links := rfl
@[simp] theorem setPageProperty_nrFree : (s.setPageProperty p value).nrFree = s.nrFree := rfl

@[simp] theorem setProperty_property (i : ℕ) :
    ((s.setProperty p n).pages i).property = if i = p then n else (s.pages i).property := by
  by_cases same : i = p <;> simp [setProperty, same]

@[simp] theorem setProperty_flags (i : ℕ) :
    ((s.setProperty p n).pages i).flags = (s.pages i).flags := by
  by_cases same : i = p <;> simp [setProperty, same]

@[simp] theorem setPageProperty_property (i : ℕ) :
    ((s.setPageProperty p value).pages i).property = (s.pages i).property := by
  by_cases same : i = p <;> simp [setPageProperty, same]

@[simp] theorem setPageProperty_flag (i : ℕ) :
    ((s.setPageProperty p value).pages i).flags.property =
      if i = p then value else (s.pages i).flags.property := by
  by_cases same : i = p <;> simp [setPageProperty, same]

@[simp] theorem setPageProperty_reserved (i : ℕ) :
    ((s.setPageProperty p value).pages i).flags.reserved = (s.pages i).flags.reserved := by
  by_cases same : i = p <;> simp [setPageProperty, same]

theorem setProperty_other {i : ℕ} (other : i ≠ p) : (s.setProperty p n).pages i = s.pages i := by
  simp [setProperty, other]

theorem setPageProperty_other {i : ℕ} (other : i ≠ p) :
    (s.setPageProperty p value).pages i = s.pages i := by
  simp [setPageProperty, other]

end FreeArea

variable {s : FreeArea} {boot : ℕ → Page} {base n p i fuel : ℕ}

/-- `*_init`: an empty list and no free page. -/
def init (s : FreeArea) : FreeArea :=
  { s with links := listInit s.links .freeList, nrFree := 0 }

/-- `for (; p != base + n; p ++)` over an assertion and a reset of the page, with
`count` pages to go. -/
def forPages (check : Page → Bool) (reset : Page → Page) (s : FreeArea) (p : ℕ) :
    ℕ → Option FreeArea
  | 0 => some s
  | count + 1 =>
    if check (s.pages p) then
      forPages check reset (s.setPage p (reset (s.pages p))) (p + 1) count
    else none

/-- The loop of `*_init_memmap`. -/
def initLoop (s : FreeArea) (base n : ℕ) : Option FreeArea :=
  forPages (fun page => page.flags.reserved) (fun _ => {}) s base n

/-- `*_init_memmap(base, n)`. -/
def initMemmap (s : FreeArea) (base n : ℕ) : Option FreeArea :=
  if n = 0 then none
  else do
    let s ← initLoop s base n
    let s := (s.setProperty base n).setPageProperty base true
    let s := { s with nrFree := s.nrFree + n }
    some (s.setLinks (listAddBefore s.links .freeList (.pageLink base)))

/-- The loop of `*_free_pages`: only `flags` and `ref` are reset. -/
def freeLoop (s : FreeArea) (base n : ℕ) : Option FreeArea :=
  forPages (fun page => !page.flags.reserved && !page.flags.property)
    (fun page => { page with flags := {}, ref := 0 }) s base n

/-- `keep->property += gone->property; ClearPageProperty(gone);` and
`list_del` of the entry `p`, which is one of the two. -/
def join (s : FreeArea) (keep gone p : ℕ) : FreeArea :=
  let s := s.setProperty keep ((s.pages keep).property + (s.pages gone).property)
  let s := s.setPageProperty gone false
  s.setLinks (listDel s.links (.pageLink p))

/-- The first `while (le != &free_list)` of `*_free_pages`. The cursor moves on
before the list changes under it, and `base` becomes the left neighbour when
there is one. -/
def mergeLoop : ℕ → FreeArea → ℕ → Entry → Option (FreeArea × ℕ)
  | 0, _, _, _ => none
  | _ + 1, s, base, .freeList => some (s, base)
  | fuel + 1, s, base, .pageLink p =>
    let le := s.links.next (.pageLink p)
    if base + (s.pages base).property = p then mergeLoop fuel (join s base p p) base le
    else if p + (s.pages p).property = base then mergeLoop fuel (join s p base p) p le
    else mergeLoop fuel s base le

/-- The second `while (le != &free_list)` of `*_free_pages`: the entry in front
of which `base` goes. -/
def findPlace (s : FreeArea) (base : ℕ) : ℕ → Entry → Option Entry
  | 0, _ => none
  | _ + 1, .freeList => some .freeList
  | fuel + 1, .pageLink p =>
    if base + (s.pages base).property ≤ p then
      if base + (s.pages base).property = p then none else some (.pageLink p)
    else findPlace s base fuel (s.links.next (.pageLink p))

/-- `*_free_pages(base, n)`. A walk meets each page at most once, so `npage`
steps and the one that finds `&free_list` are enough. -/
def freePages (s : FreeArea) (base n : ℕ) : Option FreeArea :=
  if n = 0 then none
  else do
    let s ← freeLoop s base n
    let s := (s.setProperty base n).setPageProperty base true
    let (s, base) ← mergeLoop (s.npage + 1) s base (s.links.next .freeList)
    let s := { s with nrFree := s.nrFree + n }
    let le ← findPlace s base (s.npage + 1) (s.links.next .freeList)
    some (s.setLinks (listAddBefore s.links le (.pageLink base)))

/-! ## Loops over a range of pages -/

section Loops

variable {check : Page → Bool} {reset : Page → Page} {s' : FreeArea}

/-- Every page of the range reset, the others as they are. -/
def mapRange (reset : Page → Page) (p n : ℕ) (pages : ℕ → Page) : ℕ → Page :=
  fun i => if p ≤ i ∧ i < p + n then reset (pages i) else pages i

/-- The loop comes back when every page of the range passes the assertion, and
then resets exactly these pages. -/
theorem forPages_eq_some : forPages check reset s p n = some s' ↔
    (∀ i, p ≤ i → i < p + n → check (s.pages i) = true) ∧
      s' = { s with pages := mapRange reset p n s.pages } := by
  induction n generalizing s p with
  | zero =>
    have empty : mapRange reset p 0 s.pages = s.pages := by
      funext i
      exact if_neg (by omega)
    simp only [forPages, some.injEq, empty]
    exact ⟨fun same => ⟨fun i low high => absurd low (by omega), same.symm⟩, fun both => both.2.symm⟩
  | succ count ih =>
    have shifted : mapRange reset (p + 1) count (s.setPage p (reset (s.pages p))).pages =
        mapRange reset p (count + 1) s.pages := by
      funext i
      simp only [mapRange, FreeArea.setPage_pages, update_apply]
      grind
    have later : ∀ i, p + 1 ≤ i → (s.setPage p (reset (s.pages p))).pages i = s.pages i :=
      fun i low => update_of_ne (by omega) _ _
    rw [forPages]
    split_ifs with here
    · rw [ih, shifted]
      refine and_congr_left' ⟨fun rest i low high => ?_, fun all i low high => ?_⟩
      · by_cases same : i = p
        · exact same ▸ here
        · have passes := rest i (by omega) (by omega)
          rwa [later i (by omega)] at passes
      · rw [later i low]
        exact all i (by omega) (by omega)
    · exact iff_of_false (by simp) fun both => here (both.1 p (Nat.le_refl _) (by omega))

end Loops

/-! ## What a free list stands for -/

/-- The list entry of a block. -/
def node (b : Block) : Entry := .pageLink b.start

/-- The free list holds the blocks `bs`, in list order, while a running call has
the blocks `hand` in its hands (none between calls). Among the registered pages
the `PG_property` bit marks block heads and nothing else; the other pages are as
they were at boot. -/
structure Holds (s : FreeArea) (boot : ℕ → Page) (registered : Set ℕ) (hand bs : List Block) :
    Prop where
  ring : Ring s.links .freeList (bs.map node)
  distinct : ((hand ++ bs).map Block.start).Nodup
  property : ∀ b ∈ hand ++ bs, (s.pages b.start).property = b.len
  known : ∀ b ∈ hand ++ bs, b.start ∈ registered
  heads : ∀ i ∈ registered,
    (s.pages i).flags.property = true ↔ i ∈ (hand ++ bs).map Block.start
  usable : ∀ i ∈ registered, (s.pages i).flags.reserved = false
  untouched : ∀ i ∉ registered, s.pages i = boot i

/-- The state of the allocator between two calls: the blocks on the free list
keep a gap from each other, cover exactly the registered pages that are not
allocated, and add up to `nr_free`. -/
structure Consistent (s : FreeArea) (boot : ℕ → Page) (registered allocated : Set ℕ)
    (bs : List Block) : Prop where
  holds : Holds s boot registered [] bs
  positive : ∀ b ∈ bs, 0 < b.len
  apart : bs.Pairwise Apart
  covers : ∀ i, Covered bs i ↔ i ∈ registered ∧ i ∉ allocated
  counted : s.nrFree = total bs
  owned : allocated ⊆ registered
  inside : ∀ i ∈ registered, i < s.npage

section Walks

variable {registered allocated : Set ℕ} {b : Block} {hand bs done rest : List Block}

theorem Holds.next_head (holds : Holds s boot registered hand bs) :
    s.links.next .freeList = firstOf (bs.map node) .freeList :=
  holds.ring.next_head

theorem Holds.next_node (holds : Holds s boot registered hand (done ++ b :: rest)) :
    s.links.next (node b) = firstOf (rest.map node) .freeList := by
  have ring := holds.ring
  rw [map_append, map_cons] at ring
  exact ring.next_node

theorem Holds.next_last (holds : Holds s boot registered hand (done ++ rest)) :
    s.links.next (lastOf .freeList (done.map node)) = firstOf (rest.map node) .freeList := by
  have ring := holds.ring
  rw [map_append] at ring
  exact (linked_cut _ _ ring.linked).1

section

variable (consistent : Consistent s boot registered allocated bs)

include consistent

theorem Consistent.covers_start (member : b ∈ bs) : b.start ∈ registered ∧ b.start ∉ allocated :=
  (consistent.covers b.start).mp
    ⟨b, member, Nat.le_refl _, Nat.lt_add_of_pos_right (consistent.positive b member)⟩

theorem Consistent.len_le (member : b ∈ bs) : b.len ≤ s.nrFree :=
  (len_le_total member).trans_eq consistent.counted.symm

theorem Consistent.stop_le (member : b ∈ bs) : b.stop ≤ s.npage := by
  have len := consistent.positive b member
  have last : b.Covers (b.stop - 1) := by
    simp only [Block.Covers, Block.stop]
    omega
  have below := consistent.inside _ ((consistent.covers _).mp ⟨b, member, last⟩).1
  omega

/-- `nr_free` is the sum of the `property` fields. -/
theorem Consistent.nrFree_eq :
    s.nrFree = (bs.map fun b => (s.pages b.start).property).sum := by
  have lengths : bs.map (fun b => (s.pages b.start).property) = bs.map Block.len :=
    map_congr_left consistent.holds.property
  rw [consistent.counted, lengths]
  rfl

/-- Walks over the free list end within `npage` steps. -/
theorem Consistent.length_le :
    bs.length ≤ s.npage := by
  have subset : bs.map Block.start ⊆ range s.npage := by
    intro start member
    obtain ⟨b, inList, rfl⟩ := mem_map.mp member
    exact mem_range.mpr (consistent.inside _ (consistent.covers_start inList).1)
  simpa using (consistent.holds.distinct.subperm subset).length_le

end

end Walks

/-! ## A range in hand -/

section Hand

variable {s' : FreeArea} {registered : Set ℕ} {blk : Block} {bs us vs done rest : List Block}

/-- A range that holds no block head is reset and registered. -/
theorem Holds.reset_range (holds : Holds s boot registered [] bs)
    (noHead : ∀ i, blk.Covers i → i ∉ bs.map Block.start) (links : s'.links = s.links)
    (reset : ∀ i, blk.Covers i → (s'.pages i).flags = {})
    (others : ∀ i, ¬ blk.Covers i → s'.pages i = s.pages i) :
    Holds s' boot (registered ∪ {i | blk.Covers i}) [] bs := by
  refine ⟨links ▸ holds.ring, holds.distinct, fun b member => ?_,
    fun b member => .inl (holds.known b member), fun i inside => ?_, fun i inside => ?_,
    fun i unknown => ?_⟩
  · rw [others _ fun within => noHead _ within (mem_map_of_mem member)]
    exact holds.property b member
  · by_cases within : blk.Covers i
    · simpa [reset i within] using noHead i within
    · simpa [others i within] using holds.heads i (inside.resolve_right within)
  · by_cases within : blk.Covers i
    · simp [reset i within]
    · simpa [others i within] using holds.usable i (inside.resolve_right within)
  · rw [others i fun within => unknown (.inr within)]
    exact holds.untouched i fun known => unknown (.inl known)

/-- A page that is no head becomes one, and its block is in hand. -/
theorem Holds.mark (holds : Holds s boot registered [] bs) (known : blk.start ∈ registered)
    (fresh : blk.start ∉ bs.map Block.start) :
    Holds ((s.setProperty blk.start blk.len).setPageProperty blk.start true) boot registered
      [blk] bs := by
  refine ⟨holds.ring, nodup_cons.mpr ⟨fresh, holds.distinct⟩,
    forall_mem_cons.mpr ⟨by simp, fun d member => ?_⟩, forall_mem_cons.mpr ⟨known, holds.known⟩,
    fun i inside => ?_, fun i inside => ?_, fun i unknown => ?_⟩
  · have other : d.start ≠ blk.start := fun same => fresh (same ▸ mem_map_of_mem member)
    simpa [other] using holds.property d member
  · by_cases same : i = blk.start
    · simp [same]
    · simpa [same] using holds.heads i inside
  · simpa using holds.usable i inside
  · have other : i ≠ blk.start := fun same => unknown (same ▸ known)
    rw [FreeArea.setPageProperty_other _ _ _ other, FreeArea.setProperty_other _ _ _ other]
    exact holds.untouched i unknown

/-- A range that holds no block head is reset, its first page becomes a head and
gets the length: the list is as it was, with the range in hand. Both
`*_init_memmap` and `*_free_pages` begin so. -/
theorem Holds.take_range (holds : Holds s boot registered [] bs) (positive : 0 < blk.len)
    (noHead : ∀ i, blk.Covers i → i ∉ bs.map Block.start) (links : s'.links = s.links)
    (reset : ∀ i, blk.Covers i → (s'.pages i).flags = {})
    (others : ∀ i, ¬ blk.Covers i → s'.pages i = s.pages i) :
    Holds ((s'.setProperty blk.start blk.len).setPageProperty blk.start true)
      boot (registered ∪ {i | blk.Covers i}) [blk] bs :=
  have first : blk.Covers blk.start := ⟨Nat.le_refl _, Nat.lt_add_of_pos_right positive⟩
  (holds.reset_range noHead links reset others).mark (.inr first) (noHead _ first)

theorem Holds.fresh_node (holds : Holds s boot registered [blk] (us ++ vs)) :
    node blk ∉ Entry.freeList :: (us.map node ++ vs.map node) := by
  have outside := (nodup_cons.mp holds.distinct).1
  rw [← map_append, mem_cons, List.mem_map]
  rintro (same | ⟨d, inList, same⟩)
  · cases same
  · exact outside (mem_map.mpr ⟨d, inList, Entry.pageLink.inj same⟩)

/-- The block in hand is on the list. -/
theorem Holds.put {links : Links Entry} (holds : Holds s boot registered [blk] (us ++ vs))
    (ring : Ring links .freeList (us.map node ++ node blk :: vs.map node)) :
    Holds (s.setLinks links) boot registered [] (us ++ blk :: vs) := by
  have permuted : (us ++ blk :: vs).Perm ([blk] ++ (us ++ vs)) := perm_middle
  refine ⟨by rwa [map_append, map_cons], (permuted.map Block.start).nodup_iff.mpr holds.distinct,
    fun b member => holds.property b (permuted.mem_iff.mp member),
    fun b member => holds.known b (permuted.mem_iff.mp member), fun i inside => ?_, holds.usable,
    holds.untouched⟩
  rw [nil_append, (permuted.map Block.start).mem_iff]
  exact holds.heads i inside

theorem Holds.ring_append (holds : Holds s boot registered [blk] (us ++ vs)) :
    Ring s.links .freeList (us.map node ++ vs.map node) := by
  rw [← map_append]
  exact holds.ring

/-- The block in hand goes back on the list in front of the cursor. -/
theorem Holds.insert (holds : Holds s boot registered [blk] (done ++ rest)) :
    Holds (s.setLinks (listAddBefore s.links (firstOf (rest.map node) .freeList) (node blk)))
      boot registered [] (done ++ blk :: rest) :=
  holds.put (ring_listAddBefore holds.ring_append holds.fresh_node)

end Hand

/-! ## `*_init` and `*_init_memmap` -/

section Init

variable {s' : FreeArea} {registered allocated : Set ℕ} {blk : Block} {bs : List Block}

/-- Before any range is registered the list is empty. -/
theorem init_consistent (s : FreeArea) : Consistent (init s) s.pages ∅ ∅ [] where
  holds := ⟨ring_init _ _, by simp, by simp, by simp, by simp, by simp, fun i _ => rfl⟩
  positive := by simp
  apart := List.Pairwise.nil
  covers := by simp
  counted := rfl
  owned := by simp
  inside := by simp

/-- Registering a range that keeps a gap from everything registered before
appends it to the free list as one block. -/
theorem initMemmap_consistent (consistent : Consistent s boot registered allocated bs)
    (gaps : ∀ b ∈ bs, Apart b blk) (unused : ∀ i, blk.Covers i → i ∉ registered)
    (fits : blk.stop ≤ s.npage) (ran : initMemmap s blk.start blk.len = some s') :
    Consistent s' boot (registered ∪ {i | blk.Covers i}) allocated (bs ++ [blk]) ∧
      s'.npage = s.npage := by
  unfold initMemmap at ran
  split_ifs at ran with empty
  obtain ⟨s₁, loop, ran⟩ := bind_eq_some_iff.mp ran
  obtain ⟨-, rfl⟩ := forPages_eq_some.mp loop
  cases ran
  have noHead : ∀ i, blk.Covers i → i ∉ bs.map Block.start := by
    intro i within member
    obtain ⟨b, inList, rfl⟩ := mem_map.mp member
    exact unused _ within (consistent.covers_start inList).1
  let s₁ : FreeArea := { s with pages := mapRange (fun _ => {}) blk.start blk.len s.pages }
  have links : s₁.links = s.links := rfl
  have inHand := consistent.holds.take_range (Nat.pos_of_ne_zero empty) noHead links
    (fun i within => congrArg Page.flags (if_pos within)) fun i outside => if_neg outside
  rw [← append_nil bs] at inHand
  refine ⟨⟨{ inHand.insert with }, ?_, ?_, ?_, ?_, ?_, ?_⟩, rfl⟩
  · exact forall_mem_append.mpr ⟨consistent.positive, by simpa using Nat.pos_of_ne_zero empty⟩
  · exact pairwise_append.mpr ⟨consistent.apart, pairwise_singleton _ _, by simpa using gaps⟩
  · intro i
    have free : blk.Covers i → i ∉ allocated :=
      fun within member => unused i within (consistent.owned member)
    simp only [covered_append, covered_cons, covered_nil, or_false, consistent.covers,
      Set.mem_union, Set.mem_ofPred_eq]
    tauto
  · simp [consistent.counted]
  · exact fun i member => .inl (consistent.owned member)
  · rintro i (inside | inside)
    · exact consistent.inside i inside
    · exact lt_of_lt_of_le inside.2 fits

end Init

/-! ## `*_free_pages` coalesces and puts the block in its place -/

section Free

variable {registered allocated : Set ℕ} {blk b : Block} {bs done rest : List Block}

/-- Joining the block in hand with a neighbouring entry: the entry leaves the
list, and the head that goes on standing for both is `keep`. -/
theorem Holds.join (holds : Holds s boot registered [blk] (done ++ b :: rest))
    {keep gone : Block} (sides : keep = blk ∧ gone = b ∨ keep = b ∧ gone = blk) :
    Holds (join s keep.start gone.start b.start) boot registered
      [⟨keep.start, keep.len + gone.len⟩] (done ++ rest) := by
  have permuted : ([blk] ++ (done ++ b :: rest)).Perm (keep :: gone :: (done ++ rest)) := by
    rcases sides with ⟨rfl, rfl⟩ | ⟨rfl, rfl⟩
    · exact perm_middle.cons _
    · exact (perm_middle.cons _).trans (List.Perm.swap _ _ _)
  have starts := permuted.map Block.start
  obtain ⟨keepOut, goneOut⟩ := nodup_cons.mp (starts.nodup_iff.mp holds.distinct)
  have ring := holds.ring
  rw [map_append, map_cons] at ring
  obtain ⟨keepLen, goneLen, lengths⟩ : (s.pages keep.start).property = keep.len ∧
      (s.pages gone.start).property = gone.len ∧
      ∀ d ∈ done ++ rest, (s.pages d.start).property = d.len := by
    simpa only [permuted.mem_iff, forall_mem_cons] using holds.property
  obtain ⟨keepKnown, goneKnown, known⟩ : keep.start ∈ registered ∧ gone.start ∈ registered ∧
      ∀ d ∈ done ++ rest, d.start ∈ registered := by
    simpa only [permuted.mem_iff, forall_mem_cons] using holds.known
  refine ⟨?_, ?_, ?_, forall_mem_cons.mpr ⟨keepKnown, known⟩, ?_, ?_, ?_⟩
  · rw [map_append]
    exact ring_listDel ring
  · refine nodup_cons.mpr ⟨?_, (nodup_cons.mp goneOut).2⟩
    exact fun member => keepOut (mem_cons_of_mem _ member)
  · refine forall_mem_cons.mpr ⟨by simp [Pmm.join, keepLen, goneLen], fun d member => ?_⟩
    have apart : d.start ≠ keep.start := fun same =>
      keepOut (mem_cons_of_mem _ (same ▸ mem_map_of_mem member))
    simp [Pmm.join, apart, lengths d member]
  · intro i inside
    have heads := holds.heads i inside
    rw [starts.mem_iff] at heads
    have apart : keep.start ≠ gone.start := fun same => keepOut (by simp [same])
    by_cases same : i = gone.start
    · subst same
      simpa [Pmm.join, apart.symm] using (nodup_cons.mp goneOut).1
    · simp only [Pmm.join, FreeArea.setLinks_pages, FreeArea.setPageProperty_flag, same,
        FreeArea.setProperty_flags, ↓reduceIte, heads]
      simp [same]
  · exact fun i inside => by simpa [Pmm.join] using holds.usable i inside
  · intro i unknown
    have notKeep : i ≠ keep.start := fun same => unknown (same ▸ keepKnown)
    have notGone : i ≠ gone.start := fun same => unknown (same ▸ goneKnown)
    simp only [Pmm.join, FreeArea.setLinks_pages]
    rw [FreeArea.setPageProperty_other _ _ _ notGone, FreeArea.setProperty_other _ _ _ notKeep]
    exact holds.untouched i unknown

/-- The merging walk does to the list exactly what `coalesce` does to the
blocks not yet visited. -/
theorem mergeLoop_spec (holds : Holds s boot registered [blk] (done ++ rest))
    (enough : rest.length < fuel) :
    ∃ s', mergeLoop fuel s blk.start (firstOf (rest.map node) .freeList) =
        some (s', (coalesce blk rest).1.start) ∧
      Holds s' boot registered [(coalesce blk rest).1] (done ++ (coalesce blk rest).2) ∧
      s'.npage = s.npage ∧ s'.nrFree = s.nrFree := by
  induction fuel generalizing s blk done rest with
  | zero => cases enough
  | succ fuel ih =>
    cases rest with
    | nil => exact ⟨s, rfl, holds, rfl, rfl⟩
    | cons b rest =>
      have enough : rest.length < fuel := by simpa using enough
      simp only [map_cons, firstOf_cons, node, mergeLoop, holds.property blk (by simp),
        holds.property b (by simp), coalesce, Block.stop]
      rw [show Entry.pageLink b.start = node b from rfl, holds.next_node]
      split_ifs with right left
      · simp only [right, ↓reduceIte]
        exact ih (holds.join (.inl ⟨rfl, rfl⟩)) enough
      · simp only [right, left, ↓reduceIte]
        exact ih (holds.join (.inr ⟨rfl, rfl⟩)) enough
      · simp only [right, left, ↓reduceIte]
        rw [append_cons] at holds ⊢
        exact ih holds enough

/-- The placing walk stops at the entry in front of which `place` puts the
block, and its assertion holds because nothing on the list touches the block. -/
theorem findPlace_spec (holds : Holds s boot registered [blk] (done ++ rest))
    (apart : ∀ b ∈ rest, Apart b blk) (enough : rest.length < fuel) :
    ∃ before after, rest = before ++ after ∧ place blk rest = before ++ blk :: after ∧
      findPlace s blk.start fuel (firstOf (rest.map node) .freeList) =
        some (firstOf (after.map node) .freeList) := by
  induction fuel generalizing done rest with
  | zero => cases enough
  | succ fuel ih =>
    cases rest with
    | nil => exact ⟨[], [], rfl, rfl, rfl⟩
    | cons b rest =>
      obtain ⟨gap, apart⟩ := forall_mem_cons.mp apart
      simp only [map_cons, firstOf_cons, node, findPlace, holds.property blk (by simp), place]
      rw [show Entry.pageLink b.start = node b from rfl, holds.next_node]
      by_cases above : blk.start + blk.len ≤ b.start
      · have strict : blk.start + blk.len ≠ b.start := by
          simp only [Apart, Block.stop] at gap
          omega
        exact ⟨[], b :: rest, rfl, if_pos above, by simp [above, strict, node]⟩
      · rw [append_cons] at holds
        obtain ⟨before, after, split, placed, found⟩ := ih holds apart (by simpa using enough)
        exact ⟨b :: before, after, by rw [split]; rfl, (if_neg above).trans (by rw [placed]; rfl),
          (if_neg above).trans found⟩

section

variable (consistent : Consistent s boot registered allocated bs)

include consistent

/-- Resetting an allocated range and marking its first page leaves the list as
it was, with the range in hand. -/
theorem Consistent.take_back
    (positive : 0 < n) (live : ∀ i, (⟨base, n⟩ : Block).Covers i → i ∈ allocated) :
    ∃ s', freeLoop s base n = some s' ∧
      Holds ((s'.setProperty base n).setPageProperty base true) boot registered [⟨base, n⟩] bs ∧
      s'.npage = s.npage ∧ s'.nrFree = s.nrFree := by
  have holds := consistent.holds
  have noHead : ∀ i, (⟨base, n⟩ : Block).Covers i → i ∉ bs.map Block.start := by
    intro i within member
    obtain ⟨b, inList, rfl⟩ := mem_map.mp member
    exact (consistent.covers_start inList).2 (live _ within)
  have clean : ∀ i, base ≤ i → i < base + n →
      (!(s.pages i).flags.reserved && !(s.pages i).flags.property) = true := by
    intro i low high
    have inside := consistent.owned (live i ⟨low, high⟩)
    have unmarked : (s.pages i).flags.property ≠ true := by
      rw [ne_eq, holds.heads i inside]
      exact noHead i ⟨low, high⟩
    simp [holds.usable i inside, unmarked]
  have already : registered ∪ {i | (⟨base, n⟩ : Block).Covers i} = registered :=
    Set.union_eq_self_of_subset_right fun i within => consistent.owned (live i within)
  refine ⟨_, forPages_eq_some.mpr ⟨clean, rfl⟩, ?_, rfl, rfl⟩
  rw [← already]
  refine holds.take_range positive noHead rfl ?_ ?_
  · exact fun i within => congrArg Page.flags (if_pos within)
  · exact fun i outside => if_neg outside

/-- A range of allocated pages overlaps no block of the free list. -/
theorem Consistent.beside_live (positive : 0 < blk.len) (live : ∀ i, blk.Covers i → i ∈ allocated) :
    ∀ b ∈ bs, Beside b blk := by
  intro b member
  apply beside_of_not_covers (consistent.positive b member) positive
  intro i inside inside'
  exact ((consistent.covers i).mp ⟨b, member, inside⟩).2 (live i inside')

/-- `*_free_pages` on a contiguous range of allocated pages comes back, and
leaves the list that coalescing and placing the range give. No order of the
list is assumed. -/
theorem freePages_spec
    (positive : 0 < n) (live : ∀ i, (⟨base, n⟩ : Block).Covers i → i ∈ allocated) :
    ∃ s', freePages s base n = some s' ∧
      Consistent s' boot registered (allocated \ {i | (⟨base, n⟩ : Block).Covers i})
        (place (coalesce ⟨base, n⟩ bs).1 (coalesce ⟨base, n⟩ bs).2) := by
  obtain ⟨s₁, reset, inHand, npage₁, nrFree₁⟩ := consistent.take_back positive live
  have short := consistent.length_le
  have enough : bs.length < s₁.npage + 1 := by omega
  have walked : Holds ((s₁.setProperty base n).setPageProperty base true) boot registered
      [⟨base, n⟩] ([] ++ bs) := inHand
  obtain ⟨s₂, merged, holds, npage₂, nrFree₂⟩ := mergeLoop_spec walked enough
  have gaps := coalesce_apart consistent.apart (consistent.beside_live positive live)
  have sublist := coalesce_sublist ⟨base, n⟩ bs
  have kept : (coalesce ⟨base, n⟩ bs).2.length < s₂.npage + 1 := by
    have := sublist.length_le
    simp only [FreeArea.setPageProperty_npage, FreeArea.setProperty_npage] at npage₂
    omega
  rw [nil_append] at holds
  let s₃ : FreeArea := { s₂ with nrFree := s₂.nrFree + n }
  have counted : Holds s₃ boot registered
      [(coalesce ⟨base, n⟩ bs).1] ([] ++ (coalesce ⟨base, n⟩ bs).2) :=
    { holds with }
  obtain ⟨before, after, split, placed, found⟩ := findPlace_spec counted gaps kept
  rw [nil_append, split] at counted
  have inserted := counted.insert
  rw [← placed] at inserted
  refine ⟨_, ?_, ⟨inserted, ?_, ?_, ?_, ?_, ?_, ?_⟩⟩
  · have first : s₃.links.next .freeList =
        firstOf ((coalesce ⟨base, n⟩ bs).2.map node) .freeList := holds.next_head
    simp only [freePages, positive.ne', ↓reduceIte, reset, bind_eq_bind, bind_some,
      inHand.next_head, FreeArea.setPageProperty_npage, FreeArea.setProperty_npage]
    rw [show base = (⟨base, n⟩ : Block).start from rfl, merged]
    simp only [bind_some]
    rw [show { s₂ with nrFree := s₂.nrFree + n } = s₃ from rfl, first, found]
    rfl
  · intro b member
    rcases mem_place.mp member with rfl | member
    · exact coalesce_len_pos positive
    · exact consistent.positive b (sublist.subset member)
  · exact place_apart (consistent.apart.sublist sublist) gaps
  · intro i
    rw [covered_place, coalesce_covers, consistent.covers]
    have owned : (⟨base, n⟩ : Block).Covers i → i ∈ registered :=
      fun within => consistent.owned (live i within)
    simp only [Set.mem_sdiff, Set.mem_ofPred_eq]
    tauto
  · have sums := coalesce_total ⟨base, n⟩ bs
    have count := consistent.counted
    rw [total_place, sums]
    simp only [FreeArea.setPageProperty_nrFree, FreeArea.setProperty_nrFree] at nrFree₂
    change s₂.nrFree + n = n + total bs
    omega
  · exact fun i member => consistent.owned member.1
  · intro i inside
    have bound := consistent.inside i inside
    simp only [FreeArea.setPageProperty_npage, FreeArea.setProperty_npage] at npage₂
    change i < s₂.npage
    omega

end

end Free

end LiNos.Pmm
