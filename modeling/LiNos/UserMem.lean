import LiNos.VmmSpaces

/-!
Checking user pointers (`user_mem_check` in vmm.c), and copying a string from user
memory page by page (`copy_string`).

The check looks at one address of each region on its way: it starts at `addr`, finds
the region there and goes on at its end. Each round moves on, because a region that is
found ends behind the address it was looked up for.
-/

namespace LiNos.Paging

open List

def vmStack : ℕ := 0x8
def kernTop : ℕ := kernBase + 0x38000000

/-- `KERN_ACCESS`. -/
def KernAccess (start stop : ℕ) : Prop := kernBase ≤ start ∧ start < stop ∧ stop ≤ kernTop

instance (start stop : ℕ) : Decidable (KernAccess start stop) :=
  inferInstanceAs (Decidable (_ ∧ _ ∧ _))

/-- The tests of one round on the region that was found: it may be read or written, and
a write does not begin in the first page of a stack. -/
def hopAllowed (vma : Vma) (write : Bool) (start : ℕ) : Bool :=
  decide (vma.vmStart ≤ start) && decide (vma.vmFlags &&& (if write then vmWrite else vmRead) ≠ 0) &&
    !(write && decide (vma.vmFlags &&& vmStack ≠ 0) && decide (start < wrap (vma.vmStart + pgSize)))

/-- The loop of `user_mem_check`. -/
def checkHops (write : Bool) (stop : ℕ) (m : Mm) (start : ℕ) : Mm × Bool :=
  if start < stop then
    match _found : lookupVma m start with
    | none => ((findVma m start).1, false)
    | some vma =>
      if hopAllowed vma write start then checkHops write stop (findVma m start).1 vma.vmEnd
      else ((findVma m start).1, false)
  else (m, true)
termination_by stop - start
decreasing_by
  have behind := (lookupVma_spec _found).2.2
  omega

/-- `user_mem_check`; with the result comes the address space, whose cache may have
changed. -/
def userMemCheck (mm : Option Mm) (addr len : ℕ) (write : Bool) : Option Mm × Bool :=
  match mm with
  | some m =>
    if UserAccess addr (wrap (addr + len)) then
      let checked := checkHops write (wrap (addr + len)) m addr
      (some checked.1, checked.2)
    else (some m, false)
  | none => (none, decide (KernAccess addr (wrap (addr + len))))

section Rounds

variable {m : Mm} {vma : Vma} {write : Bool} {start stop : ℕ}

theorem checkHops_done (done : ¬ start < stop) : checkHops write stop m start = (m, true) := by
  rw [checkHops, if_neg done]

theorem checkHops_none (more : start < stop) (here : lookupVma m start = none) :
    checkHops write stop m start = ((findVma m start).1, false) := by
  rw [checkHops, if_pos more]
  split
  · rfl
  · rename_i found
    rw [here] at found
    cases found

theorem checkHops_some (more : start < stop) (here : lookupVma m start = some vma) :
    checkHops write stop m start =
      if hopAllowed vma write start then checkHops write stop (findVma m start).1 vma.vmEnd
      else ((findVma m start).1, false) := by
  rw [checkHops, if_pos more]
  split
  · rename_i found
    rw [here] at found
    cases found
  · rename_i found
    rw [here] at found
    cases found
    rfl

theorem lookupVma_none (here : lookupVma m start = none) (v : Vma) (member : v ∈ m.mmap) :
    ¬ v.Contains start := by
  have notFound : m.mmap.find? (fun v => v.Contains start) = none := by
    unfold lookupVma at here
    split at here
    · split at here
      · cases here
      · exact here
    · exact here
  simpa using find?_eq_none.mp notFound v member

end Rounds

/-! ## Byte by byte -/

variable {m : Mm} {vma : Vma} {write : Bool} {addr start stop a : ℕ}

/-- What a byte of the range must satisfy. -/
def ByteAllowed (mmap : List Vma) (write : Bool) (a : ℕ) : Prop :=
  ∃ vma ∈ mmap, vma.Contains a ∧ vma.vmFlags &&& (if write then vmWrite else vmRead) ≠ 0 ∧
    (write = true → vma.vmFlags &&& vmStack ≠ 0 → vma.vmStart + pgSize ≤ a)

/-- The regions are in order and have no address in common, and the cache is one of
them or empty. -/
structure Mm.Disjoint (m : Mm) : Prop where
  sorted : m.mmap.Pairwise fun v w => v.vmStart ≤ w.vmStart
  apart : m.mmap.Pairwise fun v w => ∀ a, v.Contains a → ¬ w.Contains a
  cache : ∀ v, m.mmapCache = some v → v ∈ m.mmap

theorem Mm.Disjoint.unique (disjoint : m.Disjoint) {v w : Vma} (one : v ∈ m.mmap) (two : w ∈ m.mmap)
    (inOne : v.Contains a) (inTwo : w.Contains a) : v = w := by
  have symm : Std.Symm fun v w : Vma => ∀ a, v.Contains a → ¬ w.Contains a :=
    ⟨fun v w apart a inW inV => apart a inV inW⟩
  by_contra other
  exact disjoint.apart.forall one two other a inOne inTwo

/-- The lookup finds the region of an address, cached or not. -/
theorem Mm.Disjoint.lookup_iff (disjoint : m.Disjoint) :
    lookupVma m a = some vma ↔ vma ∈ m.mmap ∧ vma.Contains a := by
  have found : ∀ v, lookupVma m a = some v → v ∈ m.mmap ∧ v.Contains a := by
    intro v here
    obtain ⟨known, contains⟩ := lookupVma_spec here
    exact ⟨known.elim id (disjoint.cache v), contains⟩
  constructor
  · exact found vma
  · rintro ⟨member, contains⟩
    cases here : lookupVma m a with
    | none => exact absurd contains (lookupVma_none here vma member)
    | some v =>
      obtain ⟨member', contains'⟩ := found v here
      rw [disjoint.unique member' member contains' contains]

theorem Mm.Disjoint.findVma (disjoint : m.Disjoint) : (Paging.findVma m a).1.Disjoint := by
  refine ⟨by rw [findVma_mmap]; exact disjoint.sorted, by rw [findVma_mmap]; exact disjoint.apart, ?_⟩
  intro v cached
  rw [findVma_mmap]
  unfold Paging.findVma at cached
  cases here : lookupVma m a with
  | none =>
    rw [here] at cached
    exact disjoint.cache v cached
  | some w =>
    rw [here] at cached
    cases cached
    exact (disjoint.lookup_iff.mp here).1

/-- The tests on the region at `start` decide whether that byte is allowed, and then
the rest of the region is allowed as well. -/
theorem Mm.Disjoint.hop (disjoint : m.Disjoint) (here : lookupVma m start = some vma)
    (below : start < userTop) :
    (hopAllowed vma write start = true ↔ ByteAllowed m.mmap write start) ∧
      (hopAllowed vma write start = true → ∀ a, start ≤ a → a < vma.vmEnd → ByteAllowed m.mmap write a) := by
  obtain ⟨member, contains⟩ := disjoint.lookup_iff.mp here
  have noWrap : wrap (vma.vmStart + pgSize) = vma.vmStart + pgSize := by
    have first := contains.1
    unfold wrap pgSize userTop at *
    omega
  have allowed : hopAllowed vma write start = true ↔
      vma.vmFlags &&& (if write then vmWrite else vmRead) ≠ 0 ∧
        (write = true → vma.vmFlags &&& vmStack ≠ 0 → vma.vmStart + pgSize ≤ start) := by
    unfold hopAllowed
    rw [noWrap]
    simp only [Bool.and_eq_true, decide_eq_true_eq, Bool.not_eq_true', Bool.and_eq_false_imp,
      decide_eq_false_iff_not, not_lt, contains.1, true_and, and_imp]
  refine ⟨?_, ?_⟩
  · rw [allowed]
    constructor
    · rintro ⟨access, stack⟩
      exact ⟨vma, member, contains, access, stack⟩
    · rintro ⟨v, inside, holds, access, stack⟩
      rw [disjoint.unique inside member holds contains] at access stack
      exact ⟨access, stack⟩
  · intro passed a later inside
    obtain ⟨access, stack⟩ := allowed.mp passed
    exact ⟨vma, member, ⟨contains.1.trans later, inside⟩, access, fun w flag => (stack w flag).trans later⟩

/-- The loop accepts the rest of a range if and only if every byte of it is allowed. -/
theorem checkHops_iff (disjoint : m.Disjoint) (user : stop ≤ userTop) :
    (checkHops write stop m start).2 = true ↔ ∀ a, start ≤ a → a < stop → ByteAllowed m.mmap write a := by
  -- the induction follows the loop, which moves from one region to the end of it
  induction distance : stop - start using Nat.strong_induction_on generalizing m start with
  | _ n ih =>
    by_cases more : start < stop
    · cases here : lookupVma m start with
      | none =>
        rw [checkHops_none more here]
        simp only [Bool.false_eq_true, false_iff, not_forall]
        refine ⟨start, le_rfl, more, ?_⟩
        rintro ⟨v, member, contains, -⟩
        exact lookupVma_none here v member contains
      | some vma =>
        obtain ⟨first, rest⟩ := disjoint.hop here (more.trans_le user)
        by_cases passed : hopAllowed vma write start = true
        · have behind := (disjoint.lookup_iff.mp here).2.2
          rw [checkHops_some more here, if_pos passed,
            ih (stop - vma.vmEnd) (by omega) disjoint.findVma rfl, findVma_mmap]
          constructor
          · intro later a lower upper
            by_cases inside : a < vma.vmEnd
            · exact rest passed a lower inside
            · exact later a (not_lt.mp inside) upper
          · intro all a lower upper
            exact all a (behind.le.trans lower) upper
        · rw [checkHops_some more here, if_neg passed]
          simp only [Bool.false_eq_true, false_iff, not_forall]
          exact ⟨start, le_rfl, more, fun ok => passed (first.mpr ok)⟩
    · rw [checkHops_done more]
      simp only [true_iff]
      intro a lower upper
      omega

/-- `user_mem_check` says yes exactly to a nonempty range that does not wrap around, lies
in user memory, and of which every byte may be accessed. -/
theorem userMemCheck_iff (disjoint : m.Disjoint) (addr len : UInt32) (write : Bool) :
    (userMemCheck (some m) addr.toNat len.toNat write).2 = true ↔
      0 < len.toNat ∧ addr.toNat + len.toNat < 2 ^ 32 ∧ userBase ≤ addr.toNat ∧
        addr.toNat + len.toNat ≤ userTop ∧
        ∀ a, addr.toNat ≤ a → a < addr.toNat + len.toNat → ByteAllowed m.mmap write a := by
  have short := len.toNat_lt
  unfold userMemCheck
  split_ifs with access
  · obtain ⟨base, order, top⟩ := access
    -- a sum that wraps around would not be larger than `addr`
    have sum : wrap (addr.toNat + len.toNat) = addr.toNat + len.toNat := by
      unfold wrap at *
      omega
    rw [sum] at order top ⊢
    rw [checkHops_iff disjoint top]
    constructor
    · intro bytes
      refine ⟨by omega, ?_, base, top, bytes⟩
      unfold userTop at top
      omega
    · rintro ⟨-, -, -, -, bytes⟩
      exact bytes
  · simp only [false_iff]
    rintro ⟨nonempty, fits, base, top, -⟩
    apply access
    have sum : wrap (addr.toNat + len.toNat) = addr.toNat + len.toNat := Nat.mod_eq_of_lt fits
    rw [sum]
    exact ⟨base, by omega, top⟩

/-- A heap and a stack of two pages right behind it; the cache is the heap. -/
def heapAndStack : Mm :=
  ⟨[⟨0x800000, 0x801000, vmRead ||| vmWrite⟩, ⟨0x801000, 0x803000, vmRead ||| vmWrite ||| vmStack⟩],
    some ⟨0x800000, 0x801000, vmRead ||| vmWrite⟩, 0, 2, none, 1⟩

theorem heapAndStack_disjoint : heapAndStack.Disjoint := by
  refine ⟨by decide, ?_, ?_⟩
  · unfold heapAndStack
    rw [pairwise_pair]
    rintro a ⟨-, below⟩ ⟨above, -⟩
    exact absurd above (not_le.mpr below)
  · intro v cached
    cases cached
    exact mem_cons_self

/-- Reading from the heap on into the stack is allowed. -/
theorem userMemCheck_iff_heapAndStack : heapAndStack.Disjoint ∧
    (userMemCheck (some heapAndStack) 0x800FF0 32 false).2 = true := by
  refine ⟨heapAndStack_disjoint, (userMemCheck_iff heapAndStack_disjoint 0x800FF0 32 false).mpr ⟨by decide, by decide, by decide, by decide, ?_⟩⟩
  intro a lower upper
  by_cases heap : a < 0x801000
  · exact ⟨_, mem_cons_self, ⟨(by decide : 0x800000 ≤ 0x800FF0).trans lower, heap⟩, by decide, fun w => by cases w⟩
  · refine ⟨_, mem_cons_of_mem _ mem_cons_self, ⟨not_lt.mp heap, ?_⟩, by decide, fun w => by cases w⟩
    exact upper.trans (by decide)

/-! ## Copying a string -/

/-- What a copy leaves behind: the address space, whose cache may have changed, the
bytes of the kernel, and the addresses it read and wrote. -/
structure UserCopy where
  mm : Option Mm
  mem : ℕ → ℕ
  reads : List ℕ
  writes : List ℕ

/-- `strnlen`, with the addresses it reads. -/
def strnlen (user : ℕ → ℕ) (s : ℕ) : ℕ → ℕ × List ℕ
  | 0 => (0, [])
  | len + 1 =>
    if user s = 0 then (0, [s])
    else
      let rest := strnlen user (s + 1) len
      (rest.1 + 1, s :: rest.2)

/-- `memcpy` from user memory. -/
def UserCopy.memcpy (user : ℕ → ℕ) (c : UserCopy) (dst src n : ℕ) : UserCopy :=
  { c with
    mem := fun a => if dst ≤ a ∧ a < dst + n then user (src + (a - dst)) else c.mem a
    reads := c.reads ++ range' src n
    writes := c.writes ++ range' dst n }

theorem userMemCheck_pos {mm : Option Mm} {len : ℕ} (ok : (userMemCheck mm addr len write).2 = true) :
    0 < len := by
  by_contra zero
  obtain rfl : len = 0 := by omega
  have wraps : ¬ addr < wrap addr := not_lt.mpr (Nat.mod_le addr _)
  cases mm <;> simp [userMemCheck, wraps, UserAccess, KernAccess] at ok

/-- The loop of `copy_string`. -/
def copyStringLoop (user : ℕ → ℕ) (c : UserCopy) (dst src maxn part : ℕ) : UserCopy × Bool :=
  let part := min part maxn
  let checked := userMemCheck c.mm src part false
  let c := { c with mm := checked.1 }
  if _ok : checked.2 = true then
    let alen := strnlen user src part
    let c := { c with reads := c.reads ++ alen.2 }
    if alen.1 < part then (c.memcpy user dst src (alen.1 + 1), true)
    else if part = maxn then (c, false)
    else copyStringLoop user (c.memcpy user dst src part) (dst + part) (wrap (src + part)) (maxn - part)
      pgSize
  else (c, false)
termination_by maxn
decreasing_by
  have nonempty := userMemCheck_pos _ok
  omega

/-- `copy_string`. -/
def copyString (user : ℕ → ℕ) (mm : Option Mm) (mem : ℕ → ℕ) (dst src maxn : ℕ) : UserCopy × Bool :=
  copyStringLoop user ⟨mm, mem, [], []⟩ dst src maxn
    (wrap (roundDown (wrap (src + pgSize)) pgSize + 2 ^ 32 - src))

/-- A byte of user memory in a region that may be read. -/
def Mm.Readable (m : Mm) (a : ℕ) : Prop :=
  userBase ≤ a ∧ a < userTop ∧ ∃ vma ∈ m.mmap, vma.Contains a ∧ vma.vmFlags &&& vmRead ≠ 0

/-- The string at `s` has `k` characters. -/
def StringLength (user : ℕ → ℕ) (s k : ℕ) : Prop := user (s + k) = 0 ∧ ∀ i < k, user (s + i) ≠ 0

def Mm.Aligned (m : Mm) : Prop := ∀ v ∈ m.mmap, v.vmStart % pgSize = 0 ∧ v.vmEnd % pgSize = 0

/-- The regions consist of whole pages. -/
theorem Mm.Aligned.readable (aligned : m.Aligned) {b : ℕ} (page : a / pgSize = b / pgSize)
    (readable : m.Readable a) : m.Readable b := by
  obtain ⟨base, top, vma, member, ⟨low, high⟩, flag⟩ := readable
  obtain ⟨first, last⟩ := aligned vma member
  unfold userBase at base
  unfold userTop at top
  unfold pgSize at *
  exact ⟨by unfold userBase; omega, by unfold userTop; omega, vma, member, ⟨by omega, by omega⟩, flag⟩

theorem checkHops_mm (disjoint : m.Disjoint) :
    (checkHops write stop m start).1.Disjoint ∧ (checkHops write stop m start).1.mmap = m.mmap := by
  fun_induction checkHops write stop m start <;> grind [Mm.Disjoint.findVma, findVma_mmap]

/-- The check of a part that ends with its page looks at one byte. -/
theorem userMemCheck_part {src part : ℕ} (disjoint : m.Disjoint) (aligned : m.Aligned)
    (address : src < 2 ^ 32) (fits : part ≤ pgSize - src % pgSize) :
    ((userMemCheck (some m) src part false).2 = true ↔ 0 < part ∧ m.Readable src) ∧
      ∃ m', (userMemCheck (some m) src part false).1 = some m' ∧ m'.Disjoint ∧ m'.mmap = m.mmap := by
  rw [userMemCheck]
  split_ifs with access
  · obtain ⟨base, order, top⟩ := access
    have sum : wrap (src + part) = src + part := by
      unfold wrap at *
      unfold pgSize at fits
      omega
    rw [sum] at order top ⊢
    refine ⟨?_, _, rfl, checkHops_mm disjoint⟩
    rw [checkHops_iff disjoint top]
    constructor
    · intro bytes
      obtain ⟨vma, member, inside, flag, -⟩ := bytes src le_rfl order
      exact ⟨by omega, base, by omega, vma, member, inside, flag⟩
    · rintro ⟨-, readable⟩ b low high
      obtain ⟨-, -, vma, member, inside, flag⟩ := aligned.readable (b := b) (by unfold pgSize at *; omega) readable
      exact ⟨vma, member, inside, flag, nofun⟩
  · refine ⟨iff_of_false not_false ?_, m, rfl, disjoint, rfl⟩
    rintro ⟨nonempty, base, top, -⟩
    refine access ⟨base, ?_, ?_⟩
    all_goals
      unfold wrap userTop at *
      unfold pgSize at fits
      omega

theorem strnlen_spec {user : ℕ → ℕ} (s len : ℕ) :
    (strnlen user s len).1 ≤ len ∧ (∀ i < (strnlen user s len).1, user (s + i) ≠ 0) ∧
      ((strnlen user s len).1 < len → user (s + (strnlen user s len).1) = 0) ∧
      ∀ a ∈ (strnlen user s len).2, s ≤ a ∧ a < s + len := by
  induction len generalizing s with
  | zero => simp [strnlen]
  | succ len ih =>
    obtain ⟨short, before, stop, read⟩ := ih (s + 1)
    rw [strnlen]
    split_ifs with nul
    · simp [nul]
    · refine ⟨Nat.succ_le_succ short, fun i below => ?_, fun less => ?_, ?_⟩
      · cases i with
        | zero => exact nul
        | succ i => exact Nat.succ_add_eq_add_succ s i ▸ before i (Nat.lt_of_succ_lt_succ below)
      · exact Nat.succ_add_eq_add_succ s _ ▸ stop (Nat.lt_of_succ_lt_succ less)
      · refine forall_mem_cons.mpr ⟨by omega, fun a member => ?_⟩
        have inside := read a member
        omega

/-- A string goes on behind characters that are not NUL. -/
theorem stringLength_add {user : ℕ → ℕ} {s p k : ℕ} (before : ∀ i < p, user (s + i) ≠ 0) :
    StringLength user s k ↔ p ≤ k ∧ StringLength user (s + p) (k - p) := by
  constructor
  · rintro ⟨nul, earlier⟩
    have behind : p ≤ k := not_lt.mp fun inside => before k inside nul
    refine ⟨behind, by rwa [Nat.add_assoc, Nat.add_sub_cancel' behind], fun i below => ?_⟩
    exact Nat.add_assoc s p i ▸ earlier (p + i) (by omega)
  · rintro ⟨behind, nul, earlier⟩
    rw [Nat.add_assoc, Nat.add_sub_cancel' behind] at nul
    refine ⟨nul, fun i below => ?_⟩
    by_cases inside : i < p
    · exact before i inside
    · have char := earlier (i - p) (by omega)
      rwa [Nat.add_assoc, Nat.add_sub_cancel' (not_lt.mp inside)] at char

/-- What the loop does from `src` on. -/
structure CopiedString (user : ℕ → ℕ) (m : Mm) (c : UserCopy) (dst src maxn : ℕ) (r : UserCopy × Bool) : Prop where
  iff : r.2 = true ↔ ∃ k < maxn, StringLength user src k ∧ ∀ i ≤ k, m.Readable (src + i)
  copied : r.2 = true → ∀ k < maxn, StringLength user src k → ∀ i ≤ k, r.1.mem (dst + i) = user (src + i)
  reads : ∀ a ∈ r.1.reads, a ∈ c.reads ∨ m.Readable a
  writes : ∀ a ∈ r.1.writes, a ∈ c.writes ∨ dst ≤ a ∧ a < dst + maxn
  outside : ∀ a, ¬ (dst ≤ a ∧ a < dst + maxn) → r.1.mem a = c.mem a

theorem CopiedString.behind {user : ℕ → ℕ} {c c' : UserCopy} {dst src maxn p : ℕ} {r : UserCopy × Bool}
    (next : CopiedString user m (c'.memcpy user dst src p) (dst + p) (src + p) (maxn - p) r)
    (before : ∀ i < p, user (src + i) ≠ 0) (page : ∀ a, src ≤ a → a < src + p → m.Readable a)
    (small : p ≤ maxn) (reads : ∀ a ∈ c'.reads, a ∈ c.reads ∨ m.Readable a)
    (writes : c'.writes = c.writes) (mem : c'.mem = c.mem) : CopiedString user m c dst src maxn r := by
  refine ⟨next.iff.trans ⟨?_, ?_⟩, fun done k small nul i below => ?_, fun a member => ?_, fun a member => ?_,
    fun a away => ?_⟩
  · rintro ⟨k, small, nul, later⟩
    refine ⟨p + k, by omega, (stringLength_add before).mpr ⟨by omega, by simpa using nul⟩, fun i below => ?_⟩
    by_cases inside : i < p
    · exact page _ (by omega) (by omega)
    · have here := later (i - p) (by omega)
      rwa [Nat.add_assoc, Nat.add_sub_cancel' (not_lt.mp inside)] at here
  · rintro ⟨k, small, nul, later⟩
    obtain ⟨behind, nul⟩ := (stringLength_add before).mp nul
    exact ⟨k - p, by omega, nul, fun i below => Nat.add_assoc src p i ▸ later (p + i) (by omega)⟩
  · obtain ⟨behind, nul⟩ := (stringLength_add before).mp nul
    by_cases inside : i < p
    · rw [next.outside _ (by omega)]
      simp [UserCopy.memcpy, inside]
    · have here := next.copied done (k - p) (by omega) nul (i - p) (by omega)
      rwa [Nat.add_assoc, Nat.add_assoc, Nat.add_sub_cancel' (not_lt.mp inside)] at here
  · have old := next.reads a member
    simp only [UserCopy.memcpy, mem_append, mem_range'_1] at old
    grind
  · have old := next.writes a member
    simp only [UserCopy.memcpy, mem_append, mem_range'_1, writes] at old
    grind
  · rw [next.outside a (by omega), ← mem]
    exact if_neg (by omega)

theorem copyStringLoop_spec {user : ℕ → ℕ} {c : UserCopy} {m' : Mm} {dst src maxn part : ℕ} (aligned : m.Aligned)
    (mm : c.mm = some m') (disjoint : m'.Disjoint) (mmap : m'.mmap = m.mmap)
    (address : src < 2 ^ 32) (whole : part = pgSize - src % pgSize) :
    CopiedString user m c dst src maxn (copyStringLoop user c dst src maxn part) := by
  induction maxn using Nat.strong_induction_on generalizing c m' dst src part with
  | _ maxn ih =>
    have readable' : ∀ a, m'.Readable a ↔ m.Readable a := fun a => by rw [Mm.Readable, mmap, Mm.Readable]
    have aligned' : m'.Aligned := by rwa [Mm.Aligned, mmap]
    obtain ⟨ok, m'', after, disjoint', mmap'⟩ := @userMemCheck_part m' src (min part maxn) disjoint aligned'
      address (whole ▸ min_le_left part maxn)
    rw [readable'] at ok
    obtain ⟨short, before, stop, read⟩ := strnlen_spec src (min part maxn)
    rw [copyStringLoop]
    simp only [mm, after]
    by_cases passed : (userMemCheck (some m') src (min part maxn) false).2 = true
    · obtain ⟨nonempty, readable⟩ := ok.mp passed
      have page : ∀ a, src ≤ a → a < src + min part maxn → m.Readable a := fun a low high =>
        aligned.readable (by unfold pgSize at *; omega) readable
      rw [dif_pos passed]
      split_ifs with found last
      · refine ⟨iff_of_true rfl ?_, fun _ k small nul i below => ?_, ?_, ?_, ?_⟩
        · exact ⟨_, by omega, ⟨stop found, before⟩, fun i below => page _ (by omega) (by omega)⟩
        · have least : k ≤ (strnlen user src (min part maxn)).1 := by
            by_contra more
            exact nul.2 _ (not_le.mp more) (stop found)
          simp [UserCopy.memcpy, show i < (strnlen user src (min part maxn)).1 + 1 by omega]
        · simp only [UserCopy.memcpy, mem_append, mem_range'_1]
          grind
        · simp only [UserCopy.memcpy, mem_append, mem_range'_1]
          grind
        · intro a away
          exact if_neg (by omega)
      · refine ⟨iff_of_false Bool.false_ne_true ?_, nofun, ?_, fun a => .inl, fun _ _ => rfl⟩
        · rintro ⟨k, small, nul, -⟩
          exact before k (by omega) nul.1
        · grind
      · have wrapped : wrap (src + min part maxn) = src + min part maxn := by
          have top := readable.2.1
          unfold userTop at top
          unfold pgSize at whole
          exact Nat.mod_eq_of_lt (by omega)
        rw [wrapped]
        have next := @ih (maxn - min part maxn) (by omega)
          (UserCopy.memcpy user ⟨some m'', c.mem, c.reads ++ (strnlen user src (min part maxn)).2, c.writes⟩ dst src (min part maxn))
          m'' (dst + min part maxn) (src + min part maxn) pgSize rfl disjoint' (mmap'.trans mmap) ?_ ?_
        · have full : (strnlen user src (min part maxn)).1 = min part maxn := by omega
          refine next.behind (full ▸ before) page (min_le_right part maxn) ?_ rfl rfl
          grind
        · have top := readable.2.1
          unfold userTop at top
          unfold pgSize at whole
          omega
        · unfold pgSize at *
          omega
    · rw [dif_neg passed]
      refine ⟨iff_of_false Bool.false_ne_true ?_, nofun, fun a => .inl, fun a => .inl, fun _ _ => rfl⟩
      rintro ⟨k, small, -, readable⟩
      exact passed (ok.mpr ⟨by unfold pgSize at *; omega, readable 0 (Nat.zero_le k)⟩)

/-- `copy_string` copies exactly a checked string. It says yes if and only if a NUL comes
within `maxn` bytes and all bytes up to it are in regions of user memory that may be
read, and then it has copied them. It reads no other byte of user memory, and writes
to no byte of the kernel behind the first `maxn` of the buffer. -/
theorem copy_string_exact (user : ℕ → ℕ) (mem : ℕ → ℕ) (dst : ℕ) (src maxn : UInt32)
    (disjoint : m.Disjoint) (aligned : m.Aligned) :
    let r := copyString user (some m) mem dst src.toNat maxn.toNat
    (r.2 = true ↔ ∃ k < maxn.toNat, StringLength user src.toNat k ∧ ∀ i ≤ k, m.Readable (src.toNat + i)) ∧
      (r.2 = true → ∀ k < maxn.toNat, StringLength user src.toNat k →
        ∀ i ≤ k, r.1.mem (dst + i) = user (src.toNat + i)) ∧
      (∀ a ∈ r.1.reads, m.Readable a) ∧
      (∀ a ∈ r.1.writes, dst ≤ a ∧ a < dst + maxn.toNat) ∧
      ∀ a, ¬ (dst ≤ a ∧ a < dst + maxn.toNat) → r.1.mem a = mem a := by
  have address := src.toNat_lt
  -- at the top of the address space the end of the page is 0
  have part : wrap (roundDown (wrap (src.toNat + pgSize)) pgSize + 2 ^ 32 - src.toNat) =
      pgSize - src.toNat % pgSize := by
    unfold wrap roundDown pgSize
    omega
  obtain ⟨iff, copied, reads, writes, outside⟩ := @copyStringLoop_spec m user ⟨some m, mem, [], []⟩ m dst
    src.toNat maxn.toNat _ aligned rfl disjoint rfl address part
  exact ⟨iff, copied, fun a read => (reads a read).resolve_left not_mem_nil,
    fun a wrote => (writes a wrote).resolve_left not_mem_nil, outside⟩

/-- The string "a" in the last two bytes of the heap. -/
theorem copy_string_exact_heap : heapAndStack.Disjoint ∧ heapAndStack.Aligned ∧
    (copyString (fun a => if a = 0x800FFE then 97 else 0) (some heapAndStack) (fun _ => 0) 0 0x800FFE 16).2 = true := by
  have aligned : heapAndStack.Aligned := by
    unfold Mm.Aligned
    decide
  refine ⟨heapAndStack_disjoint, aligned,
    (copy_string_exact _ (fun _ => 0) 0 0x800FFE 16 heapAndStack_disjoint aligned).1.mpr
    ⟨1, by decide, ⟨by decide, by decide⟩, ?_⟩⟩
  have first : ∀ i ≤ 1, userBase ≤ 0x800FFE + i ∧ 0x800FFE + i < userTop ∧
      (⟨0x800000, 0x801000, vmRead ||| vmWrite⟩ : Vma).Contains (0x800FFE + i) := by decide
  intro i below
  obtain ⟨base, top, inside⟩ := first i below
  exact ⟨base, top, _, mem_cons_self, inside, by decide⟩

end LiNos.Paging
