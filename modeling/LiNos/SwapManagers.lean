import LiNos.VmmSpaces

/-!
The swappable pages of several address spaces (swap_fifo.c and swap_clock.c).

Both managers keep the pages that may be written out on a list whose head,
`pra_list_head`, is one global variable: `sm_priv` of every `mm_struct` points to
it, and `swap_init_mm` empties it again. A `Registry` records beside the kernel
which page was registered for which address space and has not been chosen yet.
As long as the pages of two address spaces do not wait at the same time the list
is the record (`victims_own_pages`). What the clock chooses from the list is
`clock_swap_out_victim_choice`.
-/

namespace LiNos.Paging

open CircularList List

/-! ## The clock -/

def pteA : ℕ := 0x020
def pteD : ℕ := 0x040

/-- What `_clock_swap_out_victim` does in pass `i` to an entry that is not chosen. -/
def clockMark (i pte : ℕ) : ℕ :=
  if i = 0 then pte &&& 0xFFFFFFDF else if i = 1 then pte &&& 0xFFFFFFBF else pte

/-- One pass of `_clock_swap_out_victim`, from `le` towards the head. -/
def clockPass (mm i : ℕ) (head : PraEntry) : ℕ → Kernel → PraEntry → Option (Kernel × Option ℕ)
  | 0, _, _ => none
  | fuel + 1, s, le =>
    if le = head then some (s, none)
    else
      match le with
      | .praListHead => none
      | .praPageLink page => do
        let found ← findPte s (s.mms mm).pgdir (s.praVaddr page)
        let ptep ← found
        if s.pte ptep &&& pteA = 0 ∧ s.pte ptep &&& pteD = 0 then
          some ({ s with praLinks := listDel s.praLinks le }, some page)
        else
          let s := s.poke ptep.1 ptep.2 (clockMark i (s.pte ptep))
          clockPass mm i head fuel s (s.praLinks.prev le)

/-- The passes of `_clock_swap_out_victim` from the `i`th on; `none` for the
returned page stands for the return value -1. A pass has a round for every page
on the list at most, so as many rounds as frames are enough (`clockPass_enough`). -/
def clockPasses (mm : ℕ) (head : PraEntry) : List ℕ → Kernel → Option (Kernel × Option ℕ)
  | [], s => some (s, none)
  | i :: rest, s =>
    if s.praLinks.prev head = head then none
    else do
      match ← clockPass mm i head (s.npage + 1) s (s.praLinks.prev head) with
      | (s, some page) => some (s, some page)
      | (s, none) => clockPasses mm head rest s

/-- `_clock_swap_out_victim`. -/
def clockSwapOutVictim (s : Kernel) (mm : ℕ) : Option (Kernel × Option ℕ) := do
  let head ← (s.mms mm).smPriv
  clockPasses mm head [0, 1, 2] s

/-! ## Calls -/

inductive SwapManager where
  | fifo
  | clock
deriving DecidableEq, Repr

/-- `_fifo_init_mm` and `_clock_init_mm`. -/
def swapManagerInitMm (s : Kernel) (mm : ℕ) : Kernel :=
  { s with
    praLinks := listInit s.praLinks .praListHead
    mms := Function.update s.mms mm { s.mms mm with smPriv := some .praListHead } }

/-- `sm->swap_out_victim`. -/
def SwapManager.swapOutVictim (s : Kernel) (mm : ℕ) : SwapManager → Option (Kernel × Option ℕ)
  | .fifo => do
    let (s, page) ← fifoSwapOutVictim s mm
    some (s, some page)
  | .clock => clockSwapOutVictim s mm

/-- A kernel, the address spaces that were initialised, and the pages that were
registered and not chosen since, each with its address space. -/
structure Registry where
  kernel : Kernel
  inited : Finset ℕ
  waiting : List (ℕ × ℕ)

inductive SwapCall where
  | initMm (mm : ℕ)
  | mapSwappable (mm page : ℕ)
  | swapOutVictim (mm : ℕ)

def SwapCall.mm : SwapCall → ℕ
  | .initMm mm => mm
  | .mapSwappable mm _ => mm
  | .swapOutVictim mm => mm

/-- How the rest of the kernel calls: an address space is initialised once and
first, and a frame is registered while it is not on the list. -/
def SwapCall.Allowed (r : Registry) : SwapCall → Prop
  | .initMm mm => mm ∉ r.inited
  | .mapSwappable mm page => mm ∈ r.inited ∧ page < r.kernel.npage ∧ ∀ m, (m, page) ∉ r.waiting
  | .swapOutVictim mm => mm ∈ r.inited

/-- No page of another address space is waiting. -/
def SwapCall.Alone (r : Registry) (call : SwapCall) : Prop := ∀ x ∈ r.waiting, x.1 = call.mm

/-- A call, with the victim it returns. -/
def SwapCall.run (manager : SwapManager) (r : Registry) : SwapCall → Option (Registry × Option ℕ)
  | .initMm mm =>
    some (⟨swapManagerInitMm r.kernel mm, insert mm r.inited, r.waiting⟩, none)
  | .mapSwappable mm page => do
    let s ← fifoMapSwappable r.kernel mm page
    some (⟨s, r.inited, (mm, page) :: r.waiting⟩, none)
  | .swapOutVictim mm => do
    let (s, victim) ← manager.swapOutVictim r.kernel mm
    some (⟨s, r.inited, r.waiting.filter fun x => some x.2 ≠ victim⟩, victim)

/-- The calls that happen in the run all satisfy `Condition`. -/
inductive Registry.Reachable (manager : SwapManager) (Condition : Registry → SwapCall → Prop) :
    Registry → Prop
  | boot (s : Kernel) : Registry.Reachable manager Condition ⟨s, ∅, []⟩
  | step {r r' : Registry} {victim : Option ℕ} (before : Registry.Reachable manager Condition r)
    (call : SwapCall) (allowed : call.Allowed r) (condition : Condition r call)
    (ran : call.run manager r = some (r', victim)) : Registry.Reachable manager Condition r'

/-- Every registered page is on the list that `pra_list_head` leads. -/
def Registry.Listed (r : Registry) : Prop :=
  ∀ x ∈ r.waiting, ∃ nodes, Ring r.kernel.praLinks .praListHead nodes ∧
    PraEntry.praPageLink x.2 ∈ nodes

/-! ## Victims -/

variable {s s' : Kernel} {head : PraEntry} {nodes : List PraEntry} {mm p : ℕ} {victim : Option ℕ}
  {passed passes : List ℕ}

/-- What choosing a victim does: the chosen page was on the list and is taken off. -/
structure Chosen (s s' : Kernel) (nodes : List PraEntry) (victim : Option ℕ) : Prop where
  mms : s'.mms = s.mms
  npage : s'.npage = s.npage
  kept : victim = none → s'.praLinks = s.praLinks
  taken : ∀ page, victim = some page → PraEntry.praPageLink page ∈ nodes ∧
    s'.praLinks = listDel s.praLinks (.praPageLink page)

theorem clockPass_chosen {i fuel : ℕ} {le : PraEntry} (ring : Ring s.praLinks head nodes)
    (member : le ∈ head :: nodes) (ran : clockPass mm i head fuel s le = some (s', victim)) :
    Chosen s s' nodes victim := by
  induction fuel generalizing s le with
  | zero => cases ran
  | succ fuel ih =>
    unfold clockPass at ran
    split_ifs at ran with done
    · cases ran
      exact ⟨rfl, rfl, fun _ => rfl, nofun⟩
    · cases le with
      | praListHead => cases ran
      | praPageLink page =>
        simp only [Option.bind_eq_bind, Option.bind_eq_some_iff] at ran
        obtain ⟨found, -, ptep, -, ran⟩ := ran
        split_ifs at ran
        · cases ran
          refine ⟨rfl, rfl, nofun, ?_⟩
          rintro _ ⟨⟩
          exact ⟨(mem_cons.mp member).resolve_left done, rfl⟩
        · have chosen := ih (s := s.poke ptep.1 ptep.2 (clockMark i (s.pte ptep))) ring
            (ring.prev_mem member) ran
          exact { chosen with }

theorem clockPasses_chosen (ring : Ring s.praLinks head nodes)
    (ran : clockPasses mm head passes s = some (s', victim)) : Chosen s s' nodes victim := by
  induction passes generalizing s with
  | nil =>
    cases ran
    exact ⟨rfl, rfl, fun _ => rfl, nofun⟩
  | cons i rest ih =>
    rw [clockPasses] at ran
    split_ifs at ran
    simp only [Option.bind_eq_bind, Option.bind_eq_some_iff] at ran
    obtain ⟨⟨s₁, chosen₁⟩, passed, ran⟩ := ran
    have first := clockPass_chosen ring (ring.prev_mem mem_cons_self) passed
    cases chosen₁ with
    | some page =>
      cases ran
      exact first
    | none =>
      have links := first.kept rfl
      have second := ih (links ▸ ring) ran
      exact ⟨second.mms.trans first.mms, second.npage.trans first.npage,
        fun none => (second.kept none).trans links, fun page is => links ▸ second.taken page is⟩

theorem SwapManager.swapOutVictim_chosen {manager : SwapManager} (ring : Ring s.praLinks head nodes)
    (smPriv : (s.mms mm).smPriv = some head)
    (ran : manager.swapOutVictim s mm = some (s', victim)) : Chosen s s' nodes victim := by
  cases manager with
  | fifo =>
    simp only [SwapManager.swapOutVictim, fifoSwapOutVictim, smPriv, Option.bind_eq_bind,
      Option.bind_some, Option.bind_eq_some_iff] at ran
    obtain ⟨⟨s₁, page⟩, chose, ran⟩ := ran
    cases ran
    have member := ring.prev_mem mem_cons_self
    split_ifs at chose with empty
    have inside := (mem_cons.mp member).resolve_left empty
    cases last : s.praLinks.prev head with
    | praListHead => simp [last] at chose
    | praPageLink p =>
      rw [last] at chose inside
      cases chose
      refine ⟨rfl, rfl, nofun, ?_⟩
      rintro _ ⟨⟩
      exact ⟨inside, rfl⟩
  | clock =>
    simp only [SwapManager.swapOutVictim, clockSwapOutVictim, smPriv, Option.bind_eq_bind,
      Option.bind_some] at ran
    exact clockPasses_chosen ring ran

/-- The rounds of a pass: once there are more of them than pages on the rest of the
list, their number does not matter. -/
theorem clockPass_enough {i fuel : ℕ} {rest done : List PraEntry}
    (ring : Ring s.praLinks head (rest ++ done)) (more : rest.length < fuel) :
    clockPass mm i head fuel s (lastOf head rest) =
      clockPass mm i head (rest.length + 1) s (lastOf head rest) := by
  induction rest using reverseRecOn generalizing s fuel done with
  | nil =>
    obtain ⟨fuel, rfl⟩ := Nat.exists_eq_succ_of_ne_zero (Nat.ne_of_gt more)
    simp [clockPass]
  | append_singleton rest last ih =>
    obtain ⟨fuel, rfl⟩ := Nat.exists_eq_succ_of_ne_zero (Nat.ne_zero_of_lt more)
    rw [append_assoc, singleton_append] at ring
    rw [length_append, length_singleton] at more ⊢
    rw [lastOf_concat]
    have previous := ring.prev_node
    unfold clockPass
    congr 1
    cases last with
    | praListHead => rfl
    | praPageLink page =>
      refine bind_congr fun found => bind_congr fun ptep => ?_
      split_ifs
      · rfl
      · have left : rest.length < fuel := by omega
        have step := ih (s := s.poke ptep.1 ptep.2 (clockMark i (s.pte ptep))) ring left
        rw [← previous] at step
        exact step

/-! ## The list is the record -/

/-- The list of swappable pages is the record of the pages that wait. -/
structure Registry.Faithful (r : Registry) : Prop where
  ring : r.inited.Nonempty → Ring r.kernel.praLinks .praListHead (r.waiting.map fun x => .praPageLink x.2)
  smPriv : ∀ mm ∈ r.inited, (r.kernel.mms mm).smPriv = some .praListHead
  known : ∀ x ∈ r.waiting, x.1 ∈ r.inited
  frame : ∀ x ∈ r.waiting, x.2 < r.kernel.npage

variable {r r' : Registry} {manager : SwapManager}

theorem Registry.Faithful.nonempty (faithful : r.Faithful) {x : ℕ × ℕ} (member : x ∈ r.waiting) :
    r.inited.Nonempty := ⟨x.1, faithful.known x member⟩

/-- Taking the chosen page off the list and off the record. -/
theorem Registry.Faithful.choose (faithful : r.Faithful) (mm : ℕ) (inited : mm ∈ r.inited)
    (ran : manager.swapOutVictim r.kernel mm = some (s', victim)) :
    Registry.Faithful ⟨s', r.inited, r.waiting.filter fun x => some x.2 ≠ victim⟩ ∧
      ∀ page, victim = some page → ∃ m, (m, page) ∈ r.waiting := by
  have ring := faithful.ring ⟨mm, inited⟩
  have chosen := SwapManager.swapOutVictim_chosen ring (faithful.smPriv mm inited) ran
  have found : ∀ page, victim = some page → ∃ m, (m, page) ∈ r.waiting := by
    intro page is
    obtain ⟨⟨m, p⟩, member, same⟩ := mem_map.mp (chosen.taken page is).1
    cases same
    exact ⟨m, member⟩
  refine ⟨⟨fun _ => ?_, fun m member => ?_, fun x member => ?_, fun x member => ?_⟩, found⟩
  · cases victim with
    | none =>
      have all : (r.waiting.filter fun x => some x.2 ≠ none) = r.waiting := by simp
      rw [all, chosen.kept rfl]
      exact ring
    | some page =>
      obtain ⟨m, member⟩ := found page rfl
      obtain ⟨xs, ys, parts⟩ := append_of_mem member
      have distinct := ring.nodup
      rw [parts, map_append, map_cons] at ring distinct
      have apart : ∀ x ∈ xs ++ ys, x.2 ≠ page := by
        intro x inside same
        have away := (nodup_middle.mp distinct)
        rw [← map_append, nodup_cons] at away
        exact away.1 (mem_map.mpr ⟨x, inside, by rw [same]⟩)
      have others : (r.waiting.filter fun x => some x.2 ≠ some page) = xs ++ ys := by
        rw [parts, filter_append, filter_cons_of_neg (by simp), ← filter_append,
          filter_eq_self.mpr]
        intro x inside
        simpa using apart x inside
      rw [others, (chosen.taken page rfl).2, map_append]
      exact ring_listDel ring
  · rw [chosen.mms]
    exact faithful.smPriv m member
  · exact faithful.known x (mem_filter.mp member).1
  · rw [chosen.npage]
    exact faithful.frame x (mem_filter.mp member).1

/-- The rounds that `clockPasses` allows for are enough. -/
theorem Registry.Faithful.clock_enough (faithful : r.Faithful) {i fuel : ℕ}
    (nonempty : r.inited.Nonempty) (more : r.kernel.npage < fuel) :
    clockPass mm i .praListHead fuel r.kernel (r.kernel.praLinks.prev .praListHead) =
      clockPass mm i .praListHead (r.kernel.npage + 1) r.kernel
        (r.kernel.praLinks.prev .praListHead) := by
  have ring := faithful.ring nonempty
  have bound : (r.waiting.map fun x => PraEntry.praPageLink x.2).length ≤ r.kernel.npage := by
    have distinct : (r.waiting.map Prod.snd).Nodup := by
      have nodup : ((r.waiting.map Prod.snd).map PraEntry.praPageLink).Nodup := by
        rw [map_map]
        exact ring.nodup
      exact nodup.of_map _
    have inside : r.waiting.map Prod.snd ⊆ range r.kernel.npage := by
      intro page member
      obtain ⟨x, waits, rfl⟩ := mem_map.mp member
      exact mem_range.mpr (faithful.frame x waits)
    simpa using (distinct.subperm inside).length_le
  rw [ring.prev_head]
  have whole : Ring r.kernel.praLinks .praListHead
      ((r.waiting.map fun x => .praPageLink x.2) ++ []) := by rwa [append_nil]
  rw [clockPass_enough whole (by omega), ← clockPass_enough whole (Nat.lt_succ_of_le bound)]

theorem SwapCall.faithful {call : SwapCall} (faithful : r.Faithful) (allowed : call.Allowed r)
    (alone : call.Alone r) (ran : call.run manager r = some (r', victim)) : r'.Faithful := by
  cases call with
  | initMm mm =>
    -- the pages that wait are those of a new address space, so there are none
    have nothing : r.waiting = [] := by
      refine eq_nil_iff_forall_not_mem.mpr fun x member => ?_
      have same : x.1 = mm := alone x member
      exact allowed (same ▸ faithful.known x member)
    cases ran
    refine ⟨fun _ => ?_, fun m member => ?_, by simp [nothing], by simp [nothing]⟩
    · rw [nothing]
      exact ring_init _ _
    · by_cases same : m = mm
      · simp [swapManagerInitMm, same]
      · have before := Finset.mem_of_mem_insert_of_ne member same
        simpa [swapManagerInitMm, same] using faithful.smPriv m before
  | mapSwappable mm page =>
    obtain ⟨inited, small, fresh⟩ := allowed
    simp only [SwapCall.run, fifoMapSwappable, faithful.smPriv mm inited, Option.bind_eq_bind,
      Option.bind_some] at ran
    cases ran
    refine ⟨fun nonempty => ring_listAdd (faithful.ring nonempty) ?_, faithful.smPriv, ?_, ?_⟩
    · simpa using fun m => fresh m
    · intro x member
      rcases mem_cons.mp member with rfl | before
      · exact inited
      · exact faithful.known x before
    · intro x member
      rcases mem_cons.mp member with rfl | before
      · exact small
      · exact faithful.frame x before
  | swapOutVictim mm =>
    simp only [SwapCall.run, Option.bind_eq_bind, Option.bind_eq_some_iff] at ran
    obtain ⟨⟨s, chosen⟩, chose, ran⟩ := ran
    cases ran
    exact (faithful.choose mm allowed chose).1

theorem Registry.Reachable.faithful (reached : Registry.Reachable manager SwapCall.Alone r) :
    r.Faithful := by
  induction reached with
  | boot s => exact ⟨fun nonempty => absurd nonempty (by simp), by simp, by simp, by simp⟩
  | step before call allowed alone ran ih => exact SwapCall.faithful ih allowed alone ran

/-- In runs where the pages of two address spaces never wait at the same time, every
registered page is on the list until it is chosen, and the page that is chosen for
an address space was registered for it. -/
theorem victims_own_pages (reached : Registry.Reachable manager SwapCall.Alone r) :
    r.Listed ∧ ∀ mm, (SwapCall.swapOutVictim mm).Allowed r → (SwapCall.swapOutVictim mm).Alone r →
      ∀ s page, manager.swapOutVictim r.kernel mm = some (s, some page) → (mm, page) ∈ r.waiting := by
  have faithful := reached.faithful
  constructor
  · intro x member
    exact ⟨_, faithful.ring (faithful.nonempty member), mem_map.mpr ⟨x, member, rfl⟩⟩
  · intro mm inited alone s page chose
    obtain ⟨m, member⟩ := (faithful.choose mm inited chose).2 page rfl
    obtain rfl : m = mm := alone _ member
    exact member

/-- Frames 0 to 7, with an empty list. -/
def eightFrames : Kernel where
  npage := 8
  mem := fun _ _ => 0
  ref := fun _ => 0
  free := ∅
  mms := fun _ => ⟨[], none, 0, 0, none, 0⟩
  bootPgdir := 0
  praVaddr := fun _ => 0
  praLinks := ⟨id, id⟩
  swapInitOk := true
  checkMm := none
  maxSwapOffset := 8
  disk := fun _ _ => 0

/-- One address space registers two pages; the first of them is the victim. -/
theorem victims_own_pages_two :
    ∃ r s, Registry.Reachable .fifo SwapCall.Alone r ∧
      SwapManager.fifo.swapOutVictim r.kernel 0 = some (s, some 5) ∧ (0, 5) ∈ r.waiting := by
  have inited : Registry.Reachable .fifo SwapCall.Alone _ :=
    .step (.boot eightFrames) (.initMm 0) (by simp [SwapCall.Allowed]) (by simp [SwapCall.Alone]) rfl
  have first := Registry.Reachable.step inited (.mapSwappable 0 5)
    ⟨Finset.mem_insert_self 0 _, by decide, by simp⟩ (by simp [SwapCall.Alone]) rfl
  have second := Registry.Reachable.step first (.mapSwappable 0 6)
    ⟨Finset.mem_insert_self 0 _, by decide, by simp⟩ (by simp [SwapCall.Alone, SwapCall.mm]) rfl
  have own := (victims_own_pages second).2 0 (Finset.mem_insert_self 0 _)
    (by simp [SwapCall.Alone, SwapCall.mm]) _ 5 rfl
  exact ⟨_, _, second, rfl, own⟩

/-- Initialising a second address space drops the registered page of the first;
and with two address spaces a victim is a page of the other one. -/
theorem second_address_space_breaks_list :
    (∃ r, Registry.Reachable .fifo (fun _ _ => True) r ∧ ¬ r.Listed) ∧
      ∃ r s, Registry.Reachable .fifo (fun _ _ => True) r ∧ 1 ∈ r.inited ∧
        SwapManager.fifo.swapOutVictim r.kernel 1 = some (s, some 5) ∧ (0, 5) ∈ r.waiting ∧
        (1, 5) ∉ r.waiting := by
  have zero : Registry.Reachable .fifo (fun _ _ => True) _ :=
    .step (.boot eightFrames) (.initMm 0) (by simp [SwapCall.Allowed]) trivial rfl
  constructor
  · have mapped := Registry.Reachable.step zero (.mapSwappable 0 5)
      ⟨Finset.mem_insert_self 0 _, by decide, by simp⟩ trivial rfl
    have one := Registry.Reachable.step mapped (.initMm 1) (by simp [SwapCall.Allowed]) trivial rfl
    refine ⟨_, one, fun listed => ?_⟩
    obtain ⟨nodes, ring, member⟩ := listed (0, 5) (by simp)
    rw [ring.unique (ring_init _ _)] at member
    cases member
  · have one := Registry.Reachable.step zero (.initMm 1) (by simp [SwapCall.Allowed]) trivial rfl
    have mapped := Registry.Reachable.step one (.mapSwappable 0 5)
      ⟨by simp, by decide, by simp⟩ trivial rfl
    exact ⟨_, _, mapped, by simp, rfl, by simp, by simp⟩

/-! ## The choice of the clock -/

section Choice

variable {ptep : ℕ → PtePtr} {pages : List ℕ} {s₁ : Kernel} {i fuel : ℕ}

/-- The pages on the list from its tail to its head, each with its entry. Their
virtual pages are distinct; a page table serves one slot of the directory. -/
structure Clocked (s : Kernel) (mm : ℕ) (ptep : ℕ → PtePtr) (pages : List ℕ) : Prop where
  smPriv : (s.mms mm).smPriv = some .praListHead
  ring : Ring s.praLinks .praListHead (pages.reverse.map .praPageLink)
  frame : ∀ p ∈ pages, p < s.npage
  entry : ∀ p ∈ pages, findPte s (s.mms mm).pgdir (s.praVaddr p) = some (some (ptep p))
  apart : (pages.map fun p => s.praVaddr p / pgSize).Nodup
  address : ∀ p ∈ pages, s.praVaddr p < 2 ^ 32
  table : ∀ p ∈ pages, ∀ q ∈ pages, (ptep p).1 = (ptep q).1 → pdx (s.praVaddr p) = pdx (s.praVaddr q)
  directory : ∀ p ∈ pages, (ptep p).1 ≠ (s.mms mm).pgdir

/-- The page was used (written) since its bit was cleared last. -/
def Used (s : Kernel) (e : PtePtr) : Prop := s.pte e &&& pteA ≠ 0
def Dirty (s : Kernel) (e : PtePtr) : Prop := s.pte e &&& pteD ≠ 0

/-- A pass marks the entries of the pages it leaves behind. -/
structure Marked (ptep : ℕ → PtePtr) (i : ℕ) (passed : List ℕ) (s s' : Kernel) : Prop where
  marked : ∀ p ∈ passed, s'.pte (ptep p) = clockMark i (s.pte (ptep p))
  kept : ∀ e, (∀ p ∈ passed, ptep p ≠ e) → s'.pte e = s.pte e
  rest : s' = { s with mem := s'.mem }

/-- The page between `before` and `after` is chosen, once the first pass left the pages
`first` behind and the second the pages `second`. -/
inductive Choice (used dirty : ℕ → Prop) : List ℕ → ℕ → List ℕ → List ℕ → List ℕ → Prop
  | unused {before after : List ℕ} {page : ℕ} (idle : ¬ used page) (clean : ¬ dirty page)
    (earlier : ∀ p ∈ before, used p ∨ dirty p) : Choice used dirty before page after before []
  | clean {before after : List ℕ} {page : ℕ} (busy : ∀ p ∈ before ++ page :: after, used p ∨ dirty p)
    (clean : ¬ dirty page) (earlier : ∀ p ∈ before, dirty p) :
    Choice used dirty before page after (before ++ page :: after) before
  | oldest {after : List ℕ} {page : ℕ} (all : ∀ p ∈ page :: after, dirty p) :
    Choice used dirty [] page after (page :: after) (page :: after)

section

variable (clocked : Clocked s mm ptep pages)

include clocked

theorem Clocked.ptep_inj {q : ℕ} (here : p ∈ pages)
    (there : q ∈ pages) (same : ptep p = ptep q) : p = q := by
  refine inj_on_of_nodup_map clocked.apart here there ?_
  have index : ∀ p ∈ pages, (ptep p).2 = ptx (s.praVaddr p) := by
    intro p member
    have found := clocked.entry p member
    rw [findPte] at found
    split at found
    · cases found
    · obtain ⟨t, -, last⟩ := Option.bind_eq_some_iff.mp found
      grind
  have slot := clocked.table p here q there (congrArg Prod.fst same)
  have entry : ptx (s.praVaddr p) = ptx (s.praVaddr q) := by
    rw [← index p here, ← index q there, same]
  rw [ptx_eq, ptx_eq] at entry
  rw [pdx_eq (clocked.address p here), pdx_eq (clocked.address q there)] at slot
  omega

theorem Clocked.nodup : pages.Nodup :=
  clocked.apart.of_map _

theorem Clocked.length_le : pages.length ≤ s.npage := by
  have inside : pages ⊆ range s.npage := fun p member => mem_range.mpr (clocked.frame p member)
  simpa using (clocked.nodup.subperm inside).length_le

theorem Clocked.mark (subset : passed ⊆ pages)
    (marked : Marked ptep i passed s s') : Clocked s' mm ptep pages := by
  have words : s'.mem (s.mms mm).pgdir = s.mem (s.mms mm).pgdir := by
    funext j
    exact marked.kept ((s.mms mm).pgdir, j) fun p member same =>
      clocked.directory p (subset member) (congrArg Prod.fst same)
  obtain ⟨smPriv, ring, frame, entry, apart, address, table, directory⟩ := clocked
  rw [marked.rest]
  refine ⟨smPriv, ring, frame, fun p member => ?_, apart, address, table, directory⟩
  rw [← entry p member]
  simp only [findPte, words]
  rfl

end

theorem poke_pte_other {e e' : PtePtr} {w : ℕ} (other : e ≠ e') : (s.poke e'.1 e'.2 w).pte e = s.pte e := by
  obtain ⟨⟨f, j⟩, f', j'⟩ := e, e'
  rw [Kernel.pte, Kernel.poke_mem, if_neg (by grind)]
  rfl

/-- One pass stops at the first page that is neither used nor dirty. -/
theorem clockPass_eq {done rest : List ℕ} (clocked : Clocked s mm ptep (done ++ rest))
    (more : rest.length < fuel) :
    ∃ s' passed left, rest = passed ++ left ∧ Marked ptep i passed s s' ∧
      (∀ p ∈ passed, Used s (ptep p) ∨ Dirty s (ptep p)) ∧
      (∀ p ∈ left.head?, ¬ Used s (ptep p) ∧ ¬ Dirty s (ptep p)) ∧
      clockPass mm i .praListHead fuel s (lastOf .praListHead (rest.reverse.map .praPageLink)) =
        some (left.head?.elim (s', none) fun p =>
          ({ s' with praLinks := listDel s.praLinks (.praPageLink p) }, some p)) := by
  induction rest generalizing s fuel done with
  | nil =>
    obtain ⟨fuel, rfl⟩ := Nat.exists_eq_succ_of_ne_zero (Nat.ne_of_gt more)
    exact ⟨s, [], [], rfl, ⟨by simp, fun _ _ => rfl, rfl⟩, by simp, by simp, by simp [clockPass]⟩
  | cons p rest ih =>
    obtain ⟨fuel, rfl⟩ := Nat.exists_eq_succ_of_ne_zero (Nat.ne_zero_of_lt more)
    have ring := clocked.ring
    simp only [reverse_append, reverse_cons, append_assoc, map_append, singleton_append, map_cons] at ring
    have start : lastOf .praListHead ((p :: rest).reverse.map PraEntry.praPageLink) = .praPageLink p := by
      simp
    simp only [start, clockPass, reduceCtorEq, if_false, clocked.entry p (by simp), Option.bind_eq_bind,
      Option.bind_some]
    by_cases stop : s.pte (ptep p) &&& pteA = 0 ∧ s.pte (ptep p) &&& pteD = 0
    · rw [if_pos stop]
      exact ⟨s, [], p :: rest, rfl, ⟨by simp, fun _ _ => rfl, rfl⟩, by simp,
        by simpa [Used, Dirty] using stop, rfl⟩
    · rw [if_neg stop]
      generalize marks : s.poke (ptep p).1 (ptep p).2 (clockMark i (s.pte (ptep p))) = s₁
      have one : Marked ptep i [p] s s₁ := by
        subst marks
        refine ⟨forall_mem_singleton.mpr (by simp [Kernel.pte, Kernel.poke]), fun e other => ?_, rfl⟩
        exact poke_pte_other (other p (mem_singleton_self p)).symm
      have links : s₁.praLinks = s.praLinks := by rw [one.rest]
      have next := clocked.mark (by simp) one
      rw [append_cons] at next
      obtain ⟨s', passed, left, rfl, later, busy, idle, ran⟩ := ih next (Nat.lt_of_succ_lt_succ more)
      rw [links, ← ring.prev_node] at ran
      have apart : ∀ q ∈ passed ++ left, ptep p ≠ ptep q := by
        intro q member same
        obtain rfl := clocked.ptep_inj (by simp) (by simp [mem_append.mp member]) same
        exact (nodup_cons.mp (nodup_append.mp clocked.nodup).2.1).1 member
      have same : ∀ q ∈ passed ++ left, s₁.pte (ptep q) = s.pte (ptep q) := by
        intro q member
        exact one.kept _ (forall_mem_singleton.mpr (apart q member))
      refine ⟨s', p :: passed, left, rfl, ⟨?_, ?_, ?_⟩, ?_, ?_, links ▸ ran⟩
      · have marked := later.marked
        have kept := later.kept (ptep p)
        have first := one.marked p (mem_singleton_self p)
        grind
      · grind [later.kept, one.kept]
      · rw [later.rest, one.rest]
      · have here : Used s (ptep p) ∨ Dirty s (ptep p) := by
          simpa [Used, Dirty, ← not_and_or] using stop
        exact forall_mem_cons.mpr ⟨here, by grind [Used, Dirty]⟩
      · grind [Used, Dirty]

theorem clockPasses_eq (clocked : Clocked s mm ptep pages) (nonempty : pages ≠ []) :
    ∃ s' passed left, pages = passed ++ left ∧ Marked ptep i passed s s' ∧
      (∀ p ∈ passed, Used s (ptep p) ∨ Dirty s (ptep p)) ∧
      (∀ p ∈ left.head?, ¬ Used s (ptep p) ∧ ¬ Dirty s (ptep p)) ∧
      clockPasses mm .praListHead (i :: passes) s =
        left.head?.elim (clockPasses mm .praListHead passes s') fun p =>
          some ({ s' with praLinks := listDel s.praLinks (.praPageLink p) }, some p) := by
  obtain ⟨s', passed, left, parts, marked, busy, idle, ran⟩ :=
    @clockPass_eq s mm ptep i (s.npage + 1) [] pages clocked (Nat.lt_succ_of_le clocked.length_le)
  refine ⟨s', passed, left, parts, marked, busy, idle, ?_⟩
  have start := clocked.ring.prev_head
  have inside : lastOf .praListHead (pages.reverse.map PraEntry.praPageLink) ≠ .praListHead := by
    obtain ⟨p, rest, rfl⟩ := exists_cons_of_ne_nil nonempty
    simp
  rw [← start] at ran inside
  rw [clockPasses, if_neg inside, ran]
  cases left <;> rfl

theorem Marked.pte_eq (marked : Marked ptep i passed s s')
    (clocked : Clocked s mm ptep pages) (subset : passed ⊆ pages) :
    ∀ p ∈ pages, s'.pte (ptep p) = (if p ∈ passed then clockMark i else id) (s.pte (ptep p)) := by
  intro p member
  split_ifs with passes
  · exact marked.marked p passes
  · refine marked.kept _ fun q passed same => passes ?_
    rwa [← clocked.ptep_inj (subset passed) member same]

theorem Marked.used_dirty (first : Marked ptep 0 passed s s')
    (member : p ∈ passed) : ¬ Used s' (ptep p) ∧ (Dirty s' (ptep p) ↔ Dirty s (ptep p)) := by
  simp [Used, Dirty, first.marked p member, clockMark, pteA, pteD, Nat.and_assoc]

theorem Marked.dirty (second : Marked ptep 1 passed s s')
    (member : p ∈ passed) : (Used s' (ptep p) ↔ Used s (ptep p)) ∧ ¬ Dirty s' (ptep p) := by
  simp [Used, Dirty, second.marked p member, clockMark, pteA, pteD, Nat.and_assoc]

/-- `_clock_swap_out_victim` chooses the first page from the tail that is neither used
nor dirty, or else the first that is not dirty, or else the one at the tail. It takes
that page off the list and clears no more than the bits of the pages it passed. -/
theorem clock_swap_out_victim_choice (clocked : Clocked s mm ptep pages) (nonempty : pages ≠ []) :
    ∃ s' before page after first second, clockSwapOutVictim s mm = some (s', some page) ∧
      pages = before ++ page :: after ∧
      Choice (fun p => Used s (ptep p)) (fun p => Dirty s (ptep p)) before page after first second ∧
      Ring s'.praLinks .praListHead ((before ++ after).reverse.map .praPageLink) ∧
      (∀ p ∈ pages, s'.pte (ptep p) = (if p ∈ second then clockMark 1 else id)
        ((if p ∈ first then clockMark 0 else id) (s.pte (ptep p)))) ∧
      (∀ e, (∀ p ∈ pages, ptep p ≠ e) → s'.pte e = s.pte e) ∧
      s' = { s with mem := s'.mem, praLinks := s'.praLinks } := by
  have removed : ∀ before page after, pages = before ++ page :: after →
      Ring (listDel s.praLinks (.praPageLink page)) .praListHead
        ((before ++ after).reverse.map .praPageLink) := by
    rintro before page after rfl
    have ring := clocked.ring
    simp only [reverse_append, reverse_cons, append_assoc, map_append, singleton_append, map_cons] at ring
    simpa using ring_listDel ring
  simp only [clockSwapOutVictim, clocked.smPriv, Option.bind_eq_bind, Option.bind_some]
  obtain ⟨s₁, passed, left, parts, first, busy, idle, ran⟩ :=
    @clockPasses_eq s mm [1, 2] ptep pages 0 clocked nonempty
  have words := first.pte_eq clocked (by simp [parts])
  rw [ran]
  cases left with
  | cons page after =>
    obtain ⟨unused, clean⟩ := idle page rfl
    refine ⟨_, passed, page, after, passed, [], rfl, parts, .unused unused clean busy,
      removed _ _ _ parts, words, fun e away => first.kept e (by grind), ?_⟩
    rw [first.rest]
  | nil =>
    obtain rfl : pages = passed := by simpa using parts
    have clocked₁ := clocked.mark (by simp) first
    have links₁ : s₁.praLinks = s.praLinks := by rw [first.rest]
    obtain ⟨s₂, passed, left, parts, second, busy₁, idle, ran⟩ :=
      @clockPasses_eq s₁ mm [2] ptep pages 1 clocked₁ nonempty
    have words₁ := second.pte_eq clocked₁ (by simp [parts])
    have dirty : ∀ p ∈ passed, Dirty s (ptep p) := by
      intro p member
      obtain ⟨unused, same⟩ := first.used_dirty (parts ▸ mem_append_left left member)
      exact same.mp ((busy₁ p member).resolve_left unused)
    rw [head?_nil, Option.elim_none, ran]
    cases left with
    | cons page after =>
      obtain ⟨-, clean⟩ := idle page rfl
      refine ⟨_, passed, page, after, pages, passed, rfl, parts, ?_, links₁ ▸ removed _ _ _ parts,
        fun p member => (words₁ p member).trans (by rw [words p member]), fun e away => ?_, ?_⟩
      · have unwritten := mt (first.used_dirty (by simp [parts])).2.mpr clean
        exact parts ▸ .clean (parts ▸ busy) unwritten dirty
      · exact (second.kept e (by grind)).trans (first.kept e away)
      · rw [second.rest, first.rest]
    | nil =>
      obtain rfl : pages = passed := by simpa using parts
      have clocked₂ := clocked₁.mark (by simp) second
      have links₂ : s₂.praLinks = s.praLinks := by rw [second.rest, links₁]
      obtain ⟨s₃, passed, left, parts, third, busy₂, -, ran⟩ :=
        @clockPasses_eq s₂ mm [] ptep pages 2 clocked₂ nonempty
      obtain rfl : passed = [] := by
        refine eq_nil_iff_forall_not_mem.mpr fun p member => ?_
        have inside : p ∈ pages := parts ▸ mem_append_left left member
        obtain ⟨unused, -⟩ := first.used_dirty inside
        obtain ⟨same, clean⟩ := second.dirty inside
        exact (busy₂ p member).elim (fun used => unused (same.mp used)) clean
      obtain rfl : pages = left := parts
      obtain ⟨page, after, rfl⟩ := exists_cons_of_ne_nil nonempty
      rw [head?_nil, Option.elim_none, ran]
      refine ⟨_, [], page, after, page :: after, page :: after, rfl, rfl, .oldest dirty,
        links₂ ▸ removed [] page after rfl, fun p member => ?_, fun e away => ?_, ?_⟩
      · exact (third.kept _ (by simp)).trans ((words₁ p member).trans (by rw [words p member]))
      · exact (third.kept e (by simp)).trans ((second.kept e away).trans (first.kept e away))
      · rw [third.rest, second.rest, first.rest]

/-- Two pages that were used; the one at the tail of the list is dirty. -/
def twoUsed : Kernel :=
  { eightFrames with
    mem := fun frame i => if frame = 0 then pdeWord 1 else if i = 5 then 0x5067 else 0x6027
    mms := fun _ => ⟨[], none, 0, 0, some .praListHead, 0⟩
    praVaddr := fun p => p * 0x1000
    praLinks := listAdd (listAdd (listInit ⟨id, id⟩ .praListHead) .praListHead (.praPageLink 5))
      .praListHead (.praPageLink 6) }

/-- The page that is not dirty is chosen. -/
theorem clock_swap_out_victim_choice_two :
    Clocked twoUsed 0 (fun p => (1, p)) [5, 6] ∧
      ∃ s' before page after, clockSwapOutVictim twoUsed 0 = some (s', some page) ∧
        [5, 6] = before ++ page :: after := by
  have clocked : Clocked twoUsed 0 (fun p => (1, p)) [5, 6] := by
    refine ⟨rfl, ring_listAdd (ring_listAdd (ring_init _ _) (by simp)) (by simp), by decide, ?_,
      by decide, by decide, ?_, by decide⟩
    · decide
    · decide
  obtain ⟨s', before, page, after, -, -, ran, parts, -⟩ := clock_swap_out_victim_choice clocked (by simp)
  exact ⟨clocked, s', before, page, after, ran, parts⟩

end Choice

end LiNos.Paging
