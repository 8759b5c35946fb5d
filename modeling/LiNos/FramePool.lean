import Mathlib.Data.Finset.Max
import LiNos.FirstfitPmm
import LiNos.Paging

/-!
The first-fit manager as a pool of frames.

Paging asks the physical memory manager for single frames. For such requests the
state of first fit comes down to the set of free frames (`Manages`): it hands out
the lowest one (`lowest`), and a frame that is given back is in the set again. So a run of
such requests is answered as by the pool (`firstfit_refines_lowest`).
-/

namespace LiNos.Paging

open Blocks Pmm FirstfitPmm

/-- The lowest free frame is handed out. -/
def lowest : Policy where
  pick free := free.min
  pick_mem _ _ := Finset.mem_of_min
  pick_none _ := Finset.min_eq_top.mp

variable {s : FreeArea} {boot : ℕ → Page} {registered : Set ℕ} {free : Finset ℕ} {bs : List Block}
  {f : ℕ}

/-- The list of the manager covers the frames `free`, in ascending order. -/
structure Manages (s : FreeArea) (boot : ℕ → Page) (registered : Set ℕ) (free : Finset ℕ)
    (bs : List Block) : Prop where
  consistent : Consistent s boot registered (registered \ free) bs
  ascending : bs.Pairwise Below
  known : (free : Set ℕ) ⊆ registered

theorem Manages.covered (manages : Manages s boot registered free bs) : Covered bs f ↔ f ∈ free := by
  rw [manages.consistent.covers f, Set.mem_sdiff, not_and_not_right]
  exact ⟨fun ⟨known, inside⟩ => inside known, fun member => ⟨manages.known member, fun _ => member⟩⟩

/-- The first page of the list is the lowest free one. -/
theorem Manages.lowest_eq {b : Block} {ys : List Block}
    (manages : Manages s boot registered free (b :: ys)) : lowest.pick free = some b.start := by
  have positive := manages.consistent.positive b (by simp)
  have member : b.start ∈ free :=
    manages.covered.mp ⟨b, by simp, Nat.le_refl _, by unfold Block.stop; omega⟩
  have least : free.min = (b.start : WithTop ℕ) := by
    refine le_antisymm (Finset.min_le member) (Finset.le_min fun i inside => ?_)
    obtain ⟨b', listed, low, -⟩ := manages.covered.mpr inside
    have above : b.start ≤ i := by
      rcases List.mem_cons.mp listed with rfl | later
      · exact low
      · have below := List.rel_of_pairwise_cons manages.ascending later
        unfold Below Block.stop at below
        omega
    exact WithTop.coe_le_coe.mpr above
  exact least

/-- `firstfit_alloc_pages(1)` takes the lowest free frame, or there is none. -/
theorem Manages.alloc_one (manages : Manages s boot registered free bs) :
    (lowest.pick free = none ∧ firstfitAllocPages s 1 = some (s, none)) ∨
      ∃ f s' bs', lowest.pick free = some f ∧ firstfitAllocPages s 1 = some (s', some f) ∧
        Manages s' boot registered (free.erase f) bs' := by
  rcases firstfitAllocPages_spec manages.consistent (Nat.zero_lt_one) with
    ⟨refused, short⟩ | ⟨xs, b, ys, parts, before, -, granted, carved⟩
  · refine Or.inl ⟨Finset.min_eq_top.mpr (Finset.eq_empty_of_forall_notMem fun f member => ?_), refused⟩
    obtain ⟨b, listed, -⟩ := manages.covered.mpr member
    have positive := manages.consistent.positive b listed
    have := short b listed
    omega
  · have first : xs = [] := by
      refine List.eq_nil_iff_forall_not_mem.mpr fun x member => ?_
      have positive := manages.consistent.positive x (by simp [parts, member])
      have := before x member
      omega
    subst first
    subst parts
    have pick := manages.lowest_eq
    refine Or.inr ⟨b.start, _, split b 1 ++ ys, pick, granted, ?_, ?_, ?_⟩
    · rw [List.nil_append] at carved
      convert carved using 1
      ext i
      have known := manages.known (lowest.pick_mem _ _ pick)
      simp only [Finset.coe_erase, Set.mem_sdiff, Set.mem_singleton_iff, Set.mem_union,
        Finset.mem_coe, Set.mem_ofPred_eq, Block.Covers, Block.stop]
      by_cases here : i = b.start
      · subst here
        simp [known]
      · have apart : ¬ (b.start ≤ i ∧ i < b.start + 1) := by omega
        tauto
    · simpa using below_split manages.ascending
    · exact fun i inside => manages.known (Finset.mem_of_mem_erase inside)

/-- `firstfit_free_pages(page, 1)` on a frame that is not free puts it back. -/
theorem Manages.free_one (manages : Manages s boot registered free bs) (known : f ∈ registered)
    (used : f ∉ free) :
    ∃ s' bs', freePages s f 1 = some s' ∧ Manages s' boot registered (insert f free) bs' := by
  have only : ∀ i, (⟨f, 1⟩ : Block).Covers i ↔ i = f := by
    intro i
    simp only [Block.Covers, Block.stop]
    omega
  have live : ∀ i, (⟨f, 1⟩ : Block).Covers i → i ∈ registered \ (free : Set ℕ) := by
    intro i covers
    rw [(only i).mp covers]
    exact ⟨known, used⟩
  obtain ⟨s', freed, consistent⟩ := freePages_spec manages.consistent Nat.zero_lt_one live
  refine ⟨s', place (coalesce ⟨f, 1⟩ bs).1 (coalesce ⟨f, 1⟩ bs).2, freed, ?_, ?_, ?_⟩
  · convert consistent using 1
    ext i
    simp only [Finset.coe_insert, Set.mem_sdiff, Set.mem_insert_iff, Set.mem_ofPred_eq, only,
      Finset.mem_coe]
    tauto
  · exact place_below (manages.ascending.sublist (coalesce_sublist _ bs))
      (coalesce_apart manages.consistent.apart
        (manages.consistent.beside_live Nat.zero_lt_one live))
  · intro i inside
    rcases Finset.mem_insert.mp inside with rfl | member
    · exact known
    · exact manages.known member

/-! ## Runs -/

/-- What paging asks the manager for. -/
inductive Request where
  | alloc
  | free (f : ℕ)

/-- What the allocations among the calls of first fit return. -/
def serve (s : FreeArea) : List Request → Option (List (Option ℕ))
  | [] => some []
  | .alloc :: rest => do
    let (s, page) ← firstfitAllocPages s 1
    return page :: (← serve s rest)
  | .free f :: rest => do serve (← freePages s f 1) rest

/-- What the pool answers; a frame that is free is not given back. -/
def Policy.serve (policy : Policy) (free : Finset ℕ) : List Request → Option (List (Option ℕ))
  | [] => some []
  | .alloc :: rest => do
    return policy.pick free :: (← policy.serve ((policy.pick free).elim free free.erase) rest)
  | .free f :: rest => if f ∈ free then none else policy.serve (insert f free) rest

variable {requests : List Request} {pages : List (Option ℕ)}

theorem Manages.serve (manages : Manages s boot registered free bs)
    (known : ∀ f, .free f ∈ requests → f ∈ registered)
    (served : lowest.serve free requests = some pages) : serve s requests = some pages := by
  induction requests generalizing s free bs pages with
  | nil => exact served
  | cons request rest ih =>
    have later := fun f member => known f (List.mem_cons_of_mem _ member)
    cases request with
    | alloc =>
      obtain ⟨tail, after, ⟨⟩⟩ := Option.bind_eq_some_iff.mp served
      rcases manages.alloc_one with ⟨picked, ran⟩ | ⟨f, s', bs', picked, ran, manages'⟩
      · rw [picked] at after ⊢
        simp [Paging.serve, ran, ih manages later after]
      · rw [picked] at after ⊢
        simp [Paging.serve, ran, ih manages' later after]
    | free f =>
      rw [Policy.serve] at served
      split_ifs at served with used
      obtain ⟨s', bs', ran, manages'⟩ := manages.free_one (known f List.mem_cons_self) used
      simp [Paging.serve, ran, ih manages' later served]

/-- From every state of a run of the first-fit manager, requests for single frames are answered
as by the pool that hands out the lowest free frame. -/
theorem firstfit_refines_lowest {start : FreeArea} {ranges : List Block} {allocated : Set ℕ}
    (ascending : ranges.Pairwise Below)
    (reached : Reachable firstfitPmmManager start ranges s allocated)
    (same : ∀ i, i ∈ free ↔ Covered ranges i ∧ i ∉ allocated)
    (known : ∀ f, .free f ∈ requests → Covered ranges f)
    (served : lowest.serve free requests = some pages) : serve s requests = some pages := by
  obtain ⟨bs, consistent, ordered⟩ := reachable_ascending ascending reached
  have taken : {i | Covered ranges i} \ (free : Set ℕ) = allocated := by
    ext i
    have owned := @consistent.owned i
    simp only [Set.mem_sdiff, Set.mem_ofPred_eq, Finset.mem_coe, same] at owned ⊢
    tauto
  have manages : Manages s start.pages {i | Covered ranges i} free bs :=
    ⟨by rwa [taken], ordered, fun i member => ((same i).mp member).1⟩
  exact manages.serve known served

/-- Right after boot, with a frame given back in between. -/
theorem firstfit_refines_lowest_boot :
    ∃ s, Reachable firstfitPmmManager eightPages [⟨1, 2⟩, ⟨4, 4⟩] s ∅ ∧
      serve s [.alloc, .alloc, .alloc, .free 2, .alloc] = some [some 1, some 2, some 4, some 2] := by
  have booted : Reachable firstfitPmmManager eightPages [⟨1, 2⟩, ⟨4, 4⟩] _ ∅ :=
    .boot (by decide) rfl
  refine ⟨_, booted, @firstfit_refines_lowest _ {1, 2, 4, 5, 6, 7} _ _ _ _ _ (by decide) booted ?_
    (by simp [Block.Covers, Block.stop]) rfl⟩
  intro i
  simp [Block.Covers, Block.stop]
  omega

end LiNos.Paging
