import LiNos.SfsReclaim

/-!
The reclaim protocol along every run.

For an inode in the hash list, `ref_count` is the number of references held, and
`reclaim_count` the number of calls of `sfs_reclaim` that wait for it, and one more
while it is referenced. A call that has brought `reclaim_count` to zero has the lock,
finds no reference, and is the only one that can know the inode.
-/

namespace LiNos.SfsReclaim

open Kernel Fs Tally Function List

variable {π : Type} [DecidableEq π] [Fintype π] {c c' : Cache π} {p q : π} {o ino : ℕ}
  {h : Handle π} {call' call : Call} {node' : Node} {handles' handles : List (Handle π)}
  {lock' : Option π}

/-! ## What is counted -/

/-- The inode whose reclaim waits. -/
def Call.pending : Call → Option ℕ
  | .reclaim o => some o
  | _ => none

/-- The inode that is written back. -/
def Call.writing : Call → Option ℕ
  | .write o => some o
  | _ => none

/-- The process has the lock. -/
def Call.Locked (call : Call) : Prop := (∃ ino, call = .read ino) ∨ ∃ o, call = .write o

/-- The references to an inode, and those that have opened it. -/
def refs (handles : List (Handle π)) (o : ℕ) : ℕ := handles.countP fun h => h.node = o
def opens (handles : List (Handle π)) (o : ℕ) : ℕ := handles.countP fun h => h.node = o ∧ h.opened =
  true

namespace Cache

def pending (c : Cache π) (o : ℕ) : ℕ := tally Finset.univ (fun p => (c.call p).pending) o
def writing (c : Cache π) (o : ℕ) : ℕ := tally Finset.univ (fun p => (c.call p).writing) o

end Cache

/-- An inode in memory against what is held and waits. -/
structure NodeOk (node : Node) (refs opens pending writing : ℕ) : Prop where
  refCount : node.refCount = refs
  openCount : node.openCount = opens
  reclaimCount : node.reclaimCount = pending + if 0 < refs then 1 else 0
  alive : 0 < node.reclaimCount ∨ 0 < writing
  last : 0 < writing → node.reclaimCount = 0

structure Kept (c : Cache π) : Prop where
  node : ∀ o ∈ c.hashList,
    NodeOk (c.node o) (refs c.handles o) (opens c.handles o) (c.pending o) (c.writing o)
  handle : ∀ h ∈ c.handles, h.node ∈ c.hashList
  waits : ∀ p o, c.call p = .reclaim o ∨ c.call p = .write o → o ∈ c.hashList
  nodup : c.hashList.Nodup
  unique : ∀ o ∈ c.hashList, ∀ o' ∈ c.hashList, (c.node o).ino = (c.node o').ino → o = o'
  made : ∀ o ∈ c.hashList, o < c.next
  freed : ∀ o, c.freed o = if o < c.next ∧ o ∉ c.hashList then 1 else 0
  locked : ∀ p, (c.call p).Locked → c.lock = some p
  reading : ∀ p ino, c.call p = .read ino → ∀ o ∈ c.hashList, (c.node o).ino ≠ ino

omit [DecidableEq π] [Fintype π] in
theorem refs_cons (h : Handle π) (handles : List (Handle π)) (o : ℕ) :
    refs (h :: handles) o = refs handles o + if h.node = o then 1 else 0 := by
  simp [refs, countP_cons]

omit [DecidableEq π] [Fintype π] in
theorem opens_cons (h : Handle π) (handles : List (Handle π)) (o : ℕ) :
    opens (h :: handles) o = opens handles o + if h.node = o ∧ h.opened = true then 1 else 0 := by
  simp [opens, countP_cons]

omit [Fintype π] in
theorem refs_erase (member : h ∈ handles) (o : ℕ) :
    refs handles o = refs (handles.erase h) o + if h.node = o then 1 else 0 := by
  rw [← refs_cons]
  exact (perm_cons_erase member).countP_eq _

omit [Fintype π] in
theorem opens_erase (member : h ∈ handles) (o : ℕ) :
    opens handles o = opens (handles.erase h) o + if h.node = o ∧ h.opened = true then 1 else 0 := by
  rw [← opens_cons]
  exact (perm_cons_erase member).countP_eq _

omit [DecidableEq π] [Fintype π] in
theorem counts_zero (unheld : ∀ h ∈ handles, h.node ≠ o) :
    refs handles o = 0 ∧ opens handles o = 0 := by
  rw [refs, opens, countP_eq_zero, countP_eq_zero]
  refine ⟨fun h member => ?_, fun h member => ?_⟩ <;> simp [unheld h member]

/-- A step of one process on one inode that stays in memory. -/
structure Changes (c c' : Cache π) (p : π) (o : ℕ) (node' : Node) (call' : Call) : Prop where
  node : c'.node = update c.node o node'
  call : c'.call = update c.call p call'
  hashList : c'.hashList = c.hashList
  next : c'.next = c.next
  freed : c'.freed = c.freed

theorem Kept.change (kept : Kept c) (changes : Changes c c' p o node' call')
    (same : node'.ino = (c.node o).ino)
    (handles : ∀ h ∈ c'.handles, h.node ∈ c.hashList)
    (apart : ∀ o', o' ≠ o → refs c'.handles o' = refs c.handles o' ∧ opens c'.handles o' =
      opens c.handles o')
    (before : ∀ o', o' ≠ o → (c.call p).pending ≠ some o' ∧ (c.call p).writing ≠ some o')
    (after : ∀ o', o' ≠ o → call'.pending ≠ some o' ∧ call'.writing ≠ some o')
    (member : call'.pending = some o ∨ call'.writing = some o → o ∈ c.hashList)
    (own : o ∈ c.hashList → ∀ pending writing, c.writing o = writing + hit (c.call p).writing o →
      NodeOk (c.node o) (refs c.handles o) (opens c.handles o) (pending + hit (c.call p).pending o)
        (writing + hit (c.call p).writing o) →
      NodeOk node' (refs c'.handles o) (opens c'.handles o) (pending + hit call'.pending o)
        (writing + hit call'.writing o))
    (locked : ∀ q, (c'.call q).Locked → c'.lock = some q)
    (reading : ∀ ino, call' = .read ino → ∀ o ∈ c.hashList, (c.node o).ino ≠ ino) : Kept c' := by
  obtain ⟨nodeEq, callEq, list, next, freed⟩ := changes
  have self : c'.call p = call' := by rw [callEq, update_self]
  have others : ∀ q, q ≠ p → c'.call q = c.call q := fun q other => by rw [callEq, update_of_ne other]
  have inos : ∀ o', (c'.node o').ino = (c.node o').ino := by
    intro o'
    rw [nodeEq, update_apply]
    split_ifs with here
    · rw [here, same]
    · rfl
  have moved : ∀ (view : Call → Option ℕ) (b : ℕ),
      tally Finset.univ (fun q => view (c'.call q)) b + hit (view (c.call p)) b =
        tally Finset.univ (fun q => view (c.call q)) b + hit (view call') b := by
    intro view b
    rw [callEq]
    exact tally_update view c.call call' (Finset.mem_univ p) b
  obtain ⟨node, -, waits, nodup, unique, made, freedWas, -, reads⟩ := kept
  refine ⟨?_, list ▸ handles, ?_, list ▸ nodup, by grind, by grind, by grind, locked, by grind⟩
  · intro o' inside
    rw [list] at inside
    have pending := moved Call.pending o'
    have writing := moved Call.writing o'
    have old := node o' inside
    by_cases here : o' = o
    · subst here
      have split : ∀ (view : Call → Option ℕ), ∃ rest,
          tally Finset.univ (fun q => view (c.call q)) o' = rest + hit (view (c.call p)) o' :=
        fun view => ⟨_, tally_split (fun q => view (c.call q)) (Finset.mem_univ p)⟩
      obtain ⟨i, pendingWas⟩ := split Call.pending
      obtain ⟨w, writingWas⟩ := split Call.writing
      rw [Cache.pending, Cache.writing, pendingWas, writingWas] at old
      have pendingIs : c'.pending o' = i + hit call'.pending o' := by
        unfold Cache.pending
        omega
      have writingIs : c'.writing o' = w + hit call'.writing o' := by
        unfold Cache.writing
        omega
      rw [pendingIs, writingIs, nodeEq, update_self]
      exact own inside i w writingWas old
    · have zero : ∀ {view : Option ℕ}, view ≠ some o' → hit view o' = 0 := fun ne => if_neg ne
      rw [zero (before o' here).1, zero (after o' here).1] at pending
      rw [zero (before o' here).2, zero (after o' here).2] at writing
      have pendingIs : c'.pending o' = c.pending o' := pending
      have writingIs : c'.writing o' = c.writing o' := writing
      rw [pendingIs, writingIs, (apart o' here).1, (apart o' here).2, nodeEq, update_of_ne here]
      exact old
  · intro q o' waiting
    rw [list]
    by_cases same : q = p
    · rw [same, self] at waiting
      have seen : call'.pending = some o' ∨ call'.writing = some o' := by
        rcases waiting with rfl | rfl
        · exact .inl rfl
        · exact .inr rfl
      grind
    · exact waits q o' (others q same ▸ waiting)

/-! ## Steps -/

/-- What a step guarantees besides the invariant: an inode is freed when nobody has it. -/
def Frees (c c' : Cache π) : Prop := ∀ o, c'.freed o ≠ c.freed o →
  (c.node o).refCount = 0 ∧ (c.node o).openCount = 0 ∧ ∀ h ∈ c.handles, h.node ≠ o

/-- A call comes back and keeps the invariant. -/
def Ends (c : Cache π) (outcome : Outcome Fault (Cache π) Unit) : Prop :=
  ∃ c', outcome = .ok () c' ∧ Kept c' ∧ Frees c c'

omit [DecidableEq π] in
theorem Ends.of_kept {outcome : Outcome Fault (Cache π) Unit} (ran : outcome = .ok () c')
    (kept : Kept c')
    (same : c'.freed = c.freed) : Ends c outcome :=
  ⟨c', ran, kept, fun o changed => absurd (congrFun same o) changed⟩

omit [DecidableEq π] [Fintype π] in
theorem check_bind_run {α : Type} {b : Prop} [Decidable b] {f : Unit → Op π α} (holds : b) :
    (check b >>= f) c = f () c := require_bind_run holds _ f c

@[simp] theorem Call.outside_views : Call.outside.pending = none ∧ Call.outside.writing = none :=
  ⟨rfl, rfl⟩

@[simp] theorem Call.load_views (ino : ℕ) :
    (Call.load ino).pending = none ∧ (Call.load ino).writing = none := ⟨rfl, rfl⟩

@[simp] theorem Call.read_views (ino : ℕ) :
    (Call.read ino).pending = none ∧ (Call.read ino).writing = none := ⟨rfl, rfl⟩

@[simp] theorem Call.reclaim_views (o : ℕ) :
    (Call.reclaim o).pending = some o ∧ (Call.reclaim o).writing = none := ⟨rfl, rfl⟩

@[simp] theorem Call.write_views (o : ℕ) :
    (Call.write o).pending = none ∧ (Call.write o).writing = some o := ⟨rfl, rfl⟩

theorem Call.eq_of_pending (is : call.pending = some o) : call = .reclaim o := by
  cases call <;> cases is
  rfl

theorem Call.eq_of_writing (is : call.writing = some o) : call = .write o := by
  cases call <;> cases is
  rfl

omit [DecidableEq π] in
/-- While the lock is free nobody reads or writes. -/
theorem Kept.unlocked (kept : Kept c) (free : c.lock = none) (q : π) : ¬ (c.call q).Locked := by
  intro locked
  have has := kept.locked q locked
  rw [free] at has
  cases has

omit [DecidableEq π] in
theorem Kept.no_writing (kept : Kept c) (free : c.lock = none) (o : ℕ) : c.writing o = 0 := by
  unfold Cache.writing
  rw [tally_eq_zero_iff]
  intro q _ there
  exact kept.unlocked free q (.inr ⟨o, Call.eq_of_writing there⟩)

theorem not_locked_outside : ¬ Call.outside.Locked := by
  rintro (⟨ino, is⟩ | ⟨o, is⟩) <;> cases is

/-- A step that leaves the inodes and the references alone. -/
theorem Kept.recall (kept : Kept c) (changes : Changes c c' p 0 (c.node 0) call')
    (handles : c'.handles = c.handles)
    (before : (c.call p).pending = none ∧ (c.call p).writing = none)
    (after : call'.pending = none ∧ call'.writing = none)
    (locked : ∀ q, (c'.call q).Locked → c'.lock = some q)
    (reading : ∀ ino, call' = .read ino → ∀ o ∈ c.hashList, (c.node o).ino ≠ ino) : Kept c' := by
  apply kept.change changes rfl
  · rw [handles]
    exact kept.handle
  · intro o' _
    rw [handles]
    exact ⟨rfl, rfl⟩
  · simp [before]
  · simp [after]
  · simp [after]
  · intro _ pending writing _ ok
    simpa [handles, before, after] using ok
  · exact locked
  · exact reading

theorem load_ends (kept : Kept c) (outside : c.call p = .outside) :
    Ends c (.ok () (c.setCall p (.load ino))) := by
  refine .of_kept rfl (kept.recall ⟨by simp, rfl, rfl, rfl, rfl⟩ rfl ?_ ?_ ?_ ?_) rfl
  · simp [outside]
  · simp
  · intro q locked
    by_cases same : q = p
    · subst same
      rcases locked with ⟨ino', is⟩ | ⟨o, is⟩ <;> simp at is
    · exact kept.locked q (by simpa [same] using locked)
  · intro ino' is
    cases is

omit [Fintype π] in
/-- When the process leaves, the lock is free and nobody is where it is needed. -/
theorem locked_left (none : ∀ q, q ≠ p → ¬ (c.call q).Locked) (q : π) :
    ¬ (update c.call p .outside q).Locked := by
  by_cases same : q = p
  · subst same
    rw [update_self]
    exact not_locked_outside
  · rw [update_of_ne same]
    exact none q same

/-- An inode that was found, with one more reference. -/
def Node.found (node : Node) : Node :=
  { node with
    refCount := node.refCount + 1
    reclaimCount := if node.refCount + 1 = 1 then node.reclaimCount + 1 else node.reclaimCount }

section Local

variable {node : Node} {r w k n : ℕ}

/-- One reference more. The call of `sfs_reclaim` that comes with the last one is announced. -/
theorem NodeOk.found (ok : NodeOk node r w k n) (idle : n = 0) : NodeOk node.found (r + 1) w k n := by
  obtain ⟨refCount, openCount, reclaimCount, alive, last⟩ := ok
  refine ⟨by simp [Node.found, refCount], by simp [Node.found, openCount], ?_, ?_, by omega⟩
  · simp only [Node.found]
    split at reclaimCount <;> simp <;> split <;> omega
  · simp only [Node.found]
    split <;> omega

/-- A call of `sfs_reclaim` that finds others behind it, or a reference. -/
theorem NodeOk.busy (ok : NodeOk node r w (k + 1) 0)
    (more : node.reclaimCount - 1 ≠ 0 ∨ node.refCount ≠ 0) :
    NodeOk { node with reclaimCount := node.reclaimCount - 1 } r w k 0 := by
  obtain ⟨refCount, openCount, reclaimCount, alive, last⟩ := ok
  refine ⟨refCount, openCount, ?_, ?_, by omega⟩
  · simp only
    omega
  · simp only
    split at reclaimCount <;> omega

/-- The last call of `sfs_reclaim`. -/
theorem NodeOk.final (ok : NodeOk node r w (k + 1) 0)
    (none : ¬ (node.reclaimCount - 1 ≠ 0 ∨ node.refCount ≠ 0)) :
    NodeOk { node with reclaimCount := node.reclaimCount - 1 } r w k 1 := by
  obtain ⟨refCount, openCount, reclaimCount, alive, last⟩ := ok
  refine ⟨refCount, openCount, ?_, .inr Nat.zero_lt_one, ?_⟩
  · simp only
    omega
  · intro _
    simp only
    omega

end Local

omit [DecidableEq π] [Fintype π] in
theorem mem_of_find (found : (c.hashList.find? fun o => (c.node o).ino = ino) = some o) :
    o ∈ c.hashList ∧ (c.node o).ino = ino :=
  ⟨mem_of_find?_eq_some found, by simpa using find?_some found⟩

omit [DecidableEq π] [Fintype π] in
theorem lookupSfsNolock_none (absent : (c.hashList.find? fun o => (c.node o).ino = ino) = none) :
    lookupSfsNolock ino c = .ok none c := by
  unfold lookupSfsNolock
  rw [get_bind_run]
  simp only [absent]
  rfl

omit [DecidableEq π] [Fintype π] in
theorem lookupSfsNolock_some (found : (c.hashList.find? fun o => (c.node o).ino = ino) = some o) :
    lookupSfsNolock ino c = .ok (some o) (c.setNode o (c.node o).found) := by
  unfold lookupSfsNolock
  rw [get_bind_run]
  simp only [found]
  rfl

/-- `sfs_load_inode` with the lock. -/
theorem loadLocked_ends (kept : Kept c) (free : c.lock = none) (is : c.call p = .load ino) :
    Ends c (loadLocked p ino (c.setLock (some p))) := by
  unfold loadLocked
  cases search : c.hashList.find? fun o => (c.node o).ino = ino with
  | none =>
    rw [bind_ok (lookupSfsNolock_none (c := c.setLock (some p)) search)]
    refine .of_kept rfl (kept.recall ⟨by simp, rfl, rfl, rfl, rfl⟩ rfl ?_ ?_ ?_ ?_) rfl
    · simp [is]
    · simp
    · intro q locked
      by_cases same : q = p
      · simp [same]
      · exact absurd (by simpa [same] using locked) (kept.unlocked free q)
    · intro ino' equal o inside
      cases equal
      have none := find?_eq_none.mp search o inside
      simpa using none
  | some o =>
    obtain ⟨inside, -⟩ := mem_of_find search
    rw [bind_ok (lookupSfsNolock_some (c := c.setLock (some p)) search)]
    refine .of_kept rfl (kept.change ⟨rfl, rfl, rfl, rfl, rfl⟩ rfl ?_ ?_ ?_ ?_ ?_ ?_
      ?_ ?_) rfl
    · intro h member
      rcases mem_cons.mp member with rfl | old
      · exact inside
      · exact kept.handle h old
    · intro o' other
      simp [refs_cons, opens_cons, other.symm]
    · simp [is]
    · simp
    · simp
    · intro _ pending writing written ok
      rw [is] at written ok
      have idle := kept.no_writing free o
      have more := ok.found (by rw [← written, idle])
      simpa [refs_cons, opens_cons] using more
    · intro q locked
      exact absurd locked (locked_left (fun q _ => kept.unlocked free q) q)
    · intro ino' equal
      cases equal

/-- `sfs_reclaim` with the lock. -/
theorem reclaimLocked_ends (kept : Kept c) (free : c.lock = none) (is : c.call p = .reclaim o) :
    Ends c (reclaimLocked p o (c.setLock (some p))) := by
  have inside := kept.waits p o (.inl is)
  obtain ⟨refCount, openCount, reclaimCount, alive, last⟩ := kept.node o inside
  have idle := kept.no_writing free o
  unfold reclaimLocked
  rw [get_bind_run, check_bind_run (by simp only [Cache.setLock_node]; omega), modify_bind_run]
  split_ifs with more
  · refine .of_kept rfl (kept.change ⟨rfl, rfl, rfl, rfl, rfl⟩ rfl kept.handle ?_ ?_
      ?_ ?_ ?_
      ?_ ?_) rfl
    · exact fun o' _ => ⟨rfl, rfl⟩
    · intro o' other
      simp [is, other.symm]
    · simp
    · simp
    · intro _ pending writing written ok
      rw [is] at written ok
      simp only [Call.reclaim_views, hit_none, hit_some, add_zero] at written ok
      rw [← written, idle] at ok
      rw [← written, idle]
      exact ok.busy more
    · intro q locked
      exact absurd locked (locked_left (fun q _ => kept.unlocked free q) q)
    · intro ino' equal
      cases equal
  · refine .of_kept rfl (kept.change ⟨rfl, rfl, rfl, rfl, rfl⟩ rfl kept.handle ?_ ?_
      ?_ ?_ ?_
      ?_ ?_) rfl
    · exact fun o' _ => ⟨rfl, rfl⟩
    · intro o' other
      simp [is, other.symm]
    · intro o' other
      simp [other.symm]
    · exact fun _ => inside
    · intro _ pending writing written ok
      rw [is] at written ok
      simp only [Call.reclaim_views, hit_none, hit_some, add_zero] at written ok
      rw [← written, idle] at ok
      simp only [Call.write_views, hit_none, hit_some, add_zero, ← written, idle, zero_add]
      exact ok.final more
    · intro q locked
      by_cases same : q = p
      · simp [same]
      · exact absurd (by simpa [same] using locked) (kept.unlocked free q)
    · intro ino' equal
      cases equal

omit [DecidableEq π] in
/-- Only the process that has the lock is where it is needed. -/
theorem Kept.others_unlocked (kept : Kept c) (has : (c.call p).Locked) (q : π) (other : q ≠ p) :
    ¬ (c.call q).Locked := by
  intro locked
  have mine := kept.locked p has
  rw [kept.locked q locked] at mine
  exact other (Option.some.inj mine)

omit [DecidableEq π] in
/-- Nobody waits for an inode that is not in memory. -/
theorem Kept.unwanted (kept : Kept c) (outside : o ∉ c.hashList) :
    c.pending o = 0 ∧ c.writing o = 0 := by
  rw [Cache.pending, Cache.writing, tally_eq_zero_iff, tally_eq_zero_iff]
  exact ⟨fun q _ there => outside (kept.waits q o (.inl (Call.eq_of_pending there))),
    fun q _ there => outside (kept.waits q o (.inr (Call.eq_of_writing there)))⟩

/-- `sfs_load_inode` behind the read. -/
theorem loadRead_ends {ok : Bool} (kept : Kept c) (is : c.call p = .read ino) :
    Ends c (loadRead p ino ok c) := by
  have left := locked_left (kept.others_unlocked (.inl ⟨ino, is⟩))
  cases ok with
  | false =>
    refine .of_kept rfl (kept.recall ⟨by simp, rfl, rfl, rfl, rfl⟩ rfl ?_ ?_ ?_ ?_) rfl
    · simp [is]
    · simp
    · exact fun q locked => absurd locked (left q)
    · intro ino' equal
      cases equal
  | true =>
    have fresh : c.next ∉ c.hashList := fun inside => absurd (kept.made _ inside) (Nat.lt_irrefl _)
    have unused : ∀ h ∈ c.handles, h.node ≠ c.next :=
      fun h member same => fresh (same ▸ kept.handle h member)
    obtain ⟨c', eq⟩ : ∃ c' : Cache π, c' = { (((c.setNode c.next ⟨ino, 1, 0, 1⟩).setHandles
      (⟨p, c.next, false⟩ :: c.handles)).setLock none).setCall p .outside with
        next := c.next + 1, hashList := c.next :: c.hashList } := ⟨_, rfl⟩
    have list : c'.hashList = c.next :: c.hashList := by simp [eq]
    have handles : c'.handles = ⟨p, c.next, false⟩ :: c.handles := by simp [eq]
    have call : c'.call = update c.call p .outside := by simp [eq]
    have here : c'.node c.next = ⟨ino, 1, 0, 1⟩ := by simp [eq]
    have elsewhere : ∀ o, o ≠ c.next → c'.node o = c.node o := fun o other => by simp [eq, other]
    have next : c'.next = c.next + 1 := by simp [eq]
    have freed : c'.freed = c.freed := by simp [eq]
    have views : ∀ q, (c'.call q).pending = (c.call q).pending ∧ (c'.call q).writing =
        (c.call q).writing := by
      intro q
      by_cases same : q = p <;> simp [call, same, is, Call.pending, Call.writing]
    have pending : ∀ o, c'.pending o = c.pending o := fun o => tally_congr fun q _ => (views q).1
    have writing : ∀ o, c'.writing o = c.writing o := fun o => tally_congr fun q _ => (views q).2
    obtain ⟨noPending, noWriting⟩ := kept.unwanted fresh
    obtain ⟨noRefs, noOpens⟩ := counts_zero unused
    obtain ⟨node, handle, waits, nodup, unique, made, freedWas, -, reading⟩ := kept
    refine Ends.of_kept (by rw [eq]; rfl) ⟨?_, by grind, ?_, by grind, ?_, by grind,
      by grind, fun q locked => absurd (call ▸ locked) (left q),
      fun q ino' reads => absurd (.inl ⟨ino', call ▸ reads⟩) (left q)⟩ freed
    · intro o inside
      rw [handles, refs_cons, opens_cons, pending, writing]
      by_cases new : o = c.next
      · rw [new, here, noRefs, noOpens, noPending, noWriting]
        constructor <;> simp
      · simpa [elsewhere o new, Ne.symm new] using node o (by grind)
    · intro q o waiting
      by_cases same : q = p
      · simp [call, same] at waiting
      · rw [list, mem_cons]
        exact .inr (waits q o (by simpa [call, same] using waiting))
    · -- the number was not in memory when the block was read, and the lock was kept since
      grind

/-- `sfs_reclaim` behind the write. -/
theorem reclaimWritten_ends (kept : Kept c) (is : c.call p = .write o) : Ends c
    (reclaimWritten p o c) := by
  have alone := kept.others_unlocked (.inr ⟨o, is⟩)
  have left := locked_left alone
  have inside := kept.waits p o (.inr is)
  have write : 0 < c.writing o := tally_pos_iff.mpr ⟨p, Finset.mem_univ p, by simp [is]⟩
  have ok := kept.node o inside
  have zero := ok.last write
  have noRefs : refs c.handles o = 0 ∧ c.pending o = 0 := by
    have count := ok.reclaimCount
    split at count <;> omega
  have unheld : ∀ h ∈ c.handles, h.node ≠ o := by
    intro h member same
    have some : 0 < refs c.handles o := countP_pos_iff.mpr ⟨h, member, by simpa using same⟩
    omega
  have noOpens := (counts_zero unheld).2
  have noReclaim : ∀ q, c.call q ≠ .reclaim o := by
    intro q reclaims
    have some : 0 < c.pending o := tally_pos_iff.mpr ⟨q, Finset.mem_univ q, by simp [reclaims]⟩
    omega
  obtain ⟨c', eq⟩ : ∃ c' : Cache π, c' = { (c.setLock none).setCall p .outside with
    hashList := c.hashList.erase o, freed := update c.freed o (c.freed o + 1) } := ⟨_, rfl⟩
  have list : c'.hashList = c.hashList.erase o := by simp [eq]
  have mem : ∀ o', o' ∈ c'.hashList ↔ o' ≠ o ∧ o' ∈ c.hashList :=
    fun o' => list ▸ kept.nodup.mem_erase_iff
  have call : c'.call = update c.call p .outside := by simp [eq]
  have node : c'.node = c.node := by simp [eq]
  have next : c'.next = c.next := by simp [eq]
  have handles : c'.handles = c.handles := by simp [eq]
  have freed : ∀ o', c'.freed o' = if o' = o then c.freed o + 1 else c.freed o' := by
    simp [eq, update_apply]
  refine ⟨c', ?_, ?_, ?_⟩
  · change (do
      let c ← get
      check ((c.node o).refCount = 0)
      check ((c.node o).openCount = 0)
      modify fun c => { c with freed := update c.freed o (c.freed o + 1) } : Op π Unit)
        ((({ c with hashList := c.hashList.erase o } : Cache π).setLock none).setCall p .outside) = _
    rw [get_bind_run, check_bind_run (by simp [ok.refCount, noRefs.1]),
      check_bind_run (by simp [ok.openCount, noOpens]), eq]
    rfl
  · obtain ⟨nodes, handle, waits, nodup, unique, made, freedWas, -, -⟩ := kept
    refine ⟨?_, by grind, ?_, by grind, by grind, by grind, by grind,
      fun q locked => absurd (call ▸ locked) (left q),
      fun q ino' reads => absurd (.inl ⟨ino', call ▸ reads⟩) (left q)⟩
    · intro o' inside'
      obtain ⟨other, inside'⟩ := (mem o').mp inside'
      have views : ∀ q, ((c'.call q).pending = some o' ↔ (c.call q).pending = some o') ∧
          ((c'.call q).writing = some o' ↔ (c.call q).writing = some o') := by
        intro q
        by_cases same : q = p <;> simp [call, same, is, other.symm, Call.pending, Call.writing]
      have pending : c'.pending o' = c.pending o' := by
        unfold Cache.pending tally
        simp only [(views _).1]
      have writing : c'.writing o' = c.writing o' := by
        unfold Cache.writing tally
        simp only [(views _).2]
      rw [node, handles, pending, writing]
      exact nodes o' inside'
    · intro q o' waiting
      by_cases same : q = p
      · simp [call, same] at waiting
      · rw [call, update_of_ne same] at waiting
        refine (mem o').mpr ⟨?_, waits q o' waiting⟩
        rintro rfl
        exact waiting.elim (noReclaim q) fun writes => alone q same (.inr ⟨o', writes⟩)
  · intro o' changed
    obtain rfl : o' = o := by grind
    exact ⟨by rw [ok.refCount, noRefs.1], by rw [ok.openCount, noOpens], unheld⟩

/-! ## References -/

section References

variable (kept : Kept c) (outside : c.call h.proc = .outside) (member : h ∈ c.handles)
include kept outside member

/-- A process works on an inode through a reference it holds. -/
theorem Kept.reference (call' : Call) (changes : Changes c c' h.proc h.node node' call')
    (same : node'.ino = (c.node h.node).ino) (lock : c'.lock = c.lock)
    (handles : ∀ h' ∈ c'.handles, h' ∈ c.handles ∨ h'.node = h.node)
    (apart : ∀ o', o' ≠ h.node → refs c'.handles o' = refs c.handles o' ∧ opens c'.handles o' =
      opens c.handles o')
    (after : call' = .outside ∨ call' = .reclaim h.node)
    (own : ∀ pending,
      NodeOk (c.node h.node) (refs c.handles h.node) (opens c.handles h.node) pending 0 →
      NodeOk node' (refs c'.handles h.node) (opens c'.handles h.node)
        (pending + hit call'.pending h.node) 0) :
    Kept c' := by
  have inside := kept.handle h member
  have some : 0 < refs c.handles h.node := countP_pos_iff.mpr ⟨h, member, by simp⟩
  have ok := kept.node h.node inside
  have idle : c.writing h.node = 0 := by
    by_contra busy
    have zero := ok.last (Nat.pos_of_ne_zero busy)
    have count := ok.reclaimCount
    rw [if_pos some] at count
    omega
  have views : call'.writing = none ∧ ¬ call'.Locked ∧ ∀ ino, call' ≠ .read ino := by
    rcases after with rfl | rfl
    · exact ⟨rfl, not_locked_outside, fun ino is => by cases is⟩
    · refine ⟨rfl, ?_, fun ino is => by cases is⟩
      rintro (⟨ino, is⟩ | ⟨o, is⟩) <;> cases is
  apply kept.change changes same
  · intro h' member'
    rcases handles h' member' with old | there
    · exact kept.handle h' old
    · rw [there]
      exact inside
  · exact apart
  · simp [outside]
  · intro o' other
    rcases after with rfl | rfl
    · simp
    · simp [other.symm]
  · exact fun _ => inside
  · intro _ pending writing written ok
    simp only [outside, Call.outside_views, hit_none, add_zero] at written ok
    rw [← written, idle] at ok
    rw [← written, idle, views.1, hit_none]
    exact own pending ok
  · intro q locked
    rw [lock]
    by_cases same : q = h.proc
    · subst same
      rw [changes.call, update_self] at locked
      exact absurd locked views.2.1
    · rw [changes.call, update_of_ne same] at locked
      exact kept.locked q locked
  · intro ino is
    exact absurd is (views.2.2 ino)

theorem inodeRefInc_ends : Ends c (inodeRefInc h c) := by
  refine .of_kept rfl (kept.reference outside member .outside
    ⟨rfl, by simp [← outside], rfl, rfl, rfl⟩ rfl rfl ?_ ?_ (.inl rfl) ?_) rfl
  · exact fun h' member' => (mem_cons.mp member').symm.imp id fun same => by rw [same]
  · intro o' other
    simp [refs_cons, opens_cons, other.symm]
  · intro pending ok
    have some : 0 < refs c.handles h.node := countP_pos_iff.mpr ⟨h, member, by simp⟩
    obtain ⟨refCount, openCount, reclaimCount, alive, last⟩ := ok
    rw [if_pos some] at reclaimCount
    constructor <;> simp_all [refs_cons, opens_cons]

theorem inodeRefDec_ends (closed : h.opened = false) : Ends c (inodeRefDec h c) := by
  have ok := kept.node h.node (kept.handle h member)
  have some : 0 < refs c.handles h.node := countP_pos_iff.mpr ⟨h, member, by simp⟩
  have dropped : ∀ o, refs c.handles o = refs (c.handles.erase h) o + (if h.node = o then 1 else 0) ∧
      opens c.handles o = opens (c.handles.erase h) o :=
    fun o => ⟨refs_erase member o, by simpa [closed] using opens_erase member o⟩
  have apart : ∀ o', o' ≠ h.node → refs (c.handles.erase h) o' = refs c.handles o' ∧
      opens (c.handles.erase h) o' = opens c.handles o' := by
    intro o' other
    have erased := dropped o'
    grind
  obtain ⟨here, same⟩ := dropped h.node
  rw [if_pos rfl] at here
  -- the inode with one reference less, and its reclaim if it was the last one
  have less : ∀ pending waiting,
      NodeOk (c.node h.node) (refs c.handles h.node) (opens c.handles h.node) pending 0 →
      waiting = (if refs (c.handles.erase h) h.node = 0 then 1 else 0) →
      NodeOk { c.node h.node with refCount := (c.node h.node).refCount - 1 }
        (refs (c.handles.erase h) h.node) (opens (c.handles.erase h) h.node) (pending + waiting) 0 := by
    rintro pending waiting ⟨refCount, openCount, reclaimCount, alive, -⟩ rfl
    rw [if_pos some] at reclaimCount
    refine ⟨?_, openCount.trans same, ?_, alive, by simp⟩
    · dsimp only
      omega
    · split_ifs <;> omega
  unfold inodeRefDec onRefCount
  have count := ok.refCount
  rw [bind_ok (zoom_ok (countDown_run (by omega) _)), modify_bind_run, get_bind_run]
  simp only [Cache.setHandles_node, Cache.setNode_node, update_self]
  split_ifs with last
  · refine .of_kept rfl (kept.reference outside member (.reclaim h.node)
      ⟨rfl, rfl, rfl, rfl, rfl⟩ rfl rfl (fun h' member' => .inl (mem_of_mem_erase member')) apart
      (.inr rfl) fun pending was => less pending _ was ?_) rfl
    rw [if_pos (by omega)]
    simp
  · refine .of_kept rfl (kept.reference outside member .outside
      ⟨rfl, by simp [← outside], rfl, rfl, rfl⟩ rfl rfl
      (fun h' member' => .inl (mem_of_mem_erase member')) apart (.inl rfl)
      fun pending was => less pending _ was ?_) rfl
    rw [if_neg (by omega)]
    simp

omit kept outside [Fintype π] in
/-- A reference with another mark: it stays a reference. -/
theorem remarked (opened : Bool) (o : ℕ) :
    refs (⟨h.proc, h.node, opened⟩ :: c.handles.erase h) o = refs c.handles o ∧
      opens (⟨h.proc, h.node, opened⟩ :: c.handles.erase h) o +
        (if h.node = o ∧ h.opened = true then 1 else 0) =
        opens c.handles o + if h.node = o ∧ opened = true then 1 else 0 := by
  rw [refs_cons, opens_cons, refs_erase member o, opens_erase member o]
  refine ⟨rfl, ?_⟩
  dsimp only
  omega

/-- `inode_open_inc` and `inode_open_dec` turn a reference into one of the other kind. -/
theorem remark_ends {opened : Bool} {count : ℕ}
    (moves : ∀ opens', opens' + (if h.opened = true then 1 else 0) =
      opens c.handles h.node + (if opened = true then 1 else 0) → count = opens') :
    Ends c (.ok () ((c.setNode h.node { c.node h.node with openCount := count }).setHandles
      (⟨h.proc, h.node, opened⟩ :: c.handles.erase h))) := by
  refine .of_kept rfl (kept.reference outside member .outside
    ⟨rfl, by simp [← outside], rfl, rfl, rfl⟩ rfl rfl ?_ ?_ (.inl rfl) ?_) rfl
  · intro h' member'
    rcases mem_cons.mp member' with rfl | old
    · exact .inr rfl
    · exact .inl (mem_of_mem_erase old)
  · intro o' other
    obtain ⟨sameRefs, sameOpens⟩ := remarked member opened o'
    rw [if_neg fun is => other is.1.symm, if_neg fun is => other is.1.symm] at sameOpens
    exact ⟨sameRefs, sameOpens⟩
  · intro pending ok
    obtain ⟨refCount, openCount, reclaimCount, alive, last⟩ := ok
    obtain ⟨sameRefs, sameOpens⟩ := remarked member opened h.node
    simp only [true_and] at sameOpens
    constructor
    · exact refCount.trans sameRefs.symm
    · exact moves _ sameOpens
    · change (c.node h.node).reclaimCount =
        _ + if 0 < refs (⟨h.proc, h.node, opened⟩ :: c.handles.erase h) h.node then 1 else 0
      rw [sameRefs, reclaimCount]
      simp
    · exact alive
    · simp

theorem inodeOpenInc_ends (closed : h.opened = false) : Ends c (inodeOpenInc h c) := by
  have ok := kept.node h.node (kept.handle h member)
  apply remark_ends kept outside member
  intro opens' moved
  simp only [closed, if_true, Bool.false_eq_true, if_false] at moved
  have count := ok.openCount
  dsimp only
  omega

theorem inodeOpenDec_ends (opened : h.opened = true) : Ends c (inodeOpenDec h c) := by
  have ok := kept.node h.node (kept.handle h member)
  have some : 0 < opens c.handles h.node := countP_pos_iff.mpr ⟨h, member, by simp [opened]⟩
  have count := ok.openCount
  unfold inodeOpenDec onOpenCount
  rw [bind_ok (zoom_ok (countDown_run (by omega) _))]
  apply remark_ends kept outside member
  intro opens' moved
  simp only [opened, if_true, Bool.false_eq_true, if_false] at moved
  omega

end References

/-! ## Runs -/

/-- Every step comes back and keeps the invariant. -/
theorem Kept.step {e : Event π} (kept : Kept c) (ready : Ready c e) : Ends c (perform e c) := by
  cases e with
  | load p ino => exact load_ends kept ready
  | lock p =>
    obtain ⟨free, ⟨ino, is⟩ | ⟨o, is⟩⟩ := ready
    · rw [perform, get_bind_run, modify_bind_run, is]
      exact loadLocked_ends kept free is
    · rw [perform, get_bind_run, modify_bind_run, is]
      exact reclaimLocked_ends kept free is
  | disk p ok =>
    obtain ⟨ino, is⟩ | ⟨o, is⟩ := ready
    · rw [perform, get_bind_run, is]
      exact loadRead_ends kept is
    · rw [perform, get_bind_run, is]
      exact reclaimWritten_ends kept is
  | refInc h => exact inodeRefInc_ends kept ready.1 ready.2
  | refDec h => exact inodeRefDec_ends kept ready.1 ready.2.1 ready.2.2
  | openInc h => exact inodeOpenInc_ends kept ready.1 ready.2.1 ready.2.2
  | openDec h => exact inodeOpenDec_ends kept ready.1 ready.2.1 ready.2.2

omit [DecidableEq π] in
theorem mounted_kept : Kept (mounted : Cache π) := by
  refine ⟨by simp [mounted], by simp [mounted], ?_, nodup_nil, by simp [mounted], by simp [mounted],
    by simp [mounted], fun p locked => absurd locked not_locked_outside, ?_⟩
  · rintro p o (⟨⟨⟩⟩ | ⟨⟨⟩⟩)
  · rintro p ino ⟨⟩

theorem Run.kept (run : Run c) : Kept c := by
  induction run with
  | mounted => exact mounted_kept
  | step _ ready ran ih =>
    obtain ⟨_, again, kept, -⟩ := ih.step ready
    cases again.symm.trans ran
    exact kept

/-- What the inodes in memory are like. -/
structure Correct (c : Cache π) : Prop where
  /-- There is one inode in memory for a number. -/
  unique : ∀ o ∈ c.hashList, ∀ o' ∈ c.hashList, (c.node o).ino = (c.node o').ino → o = o'
  /-- `reclaim_count` is the calls of `sfs_reclaim` that wait, and one for a reference. -/
  count : ∀ o ∈ c.hashList, (c.node o).reclaimCount =
    tally Finset.univ (fun p => (c.call p).pending) o + if 0 < (c.node o).refCount then 1 else 0
  /-- `ref_count` and `open_count` are those of the callers. -/
  held : ∀ o ∈ c.hashList, (c.node o).refCount = refs c.handles o ∧ (c.node o).openCount =
    opens c.handles o
  /-- An inode that was made is in memory or was freed once. -/
  once : ∀ o < c.next, o ∈ c.hashList ∧ c.freed o = 0 ∨ o ∉ c.hashList ∧ c.freed o = 1
  /-- It is in memory while a caller has it, and no longer when nobody has it, no call of
  `sfs_reclaim` waits for it and none writes it. -/
  handles : ∀ h ∈ c.handles, h.node ∈ c.hashList ∧ h.node < c.next
  gone : ∀ o ∈ c.hashList, (∀ h ∈ c.handles, h.node ≠ o) → (∀ p, c.call p ≠ .reclaim o) →
    ∃ p, c.call p = .write o
  /-- No assertion fires, and what is freed has no reference and is not open. -/
  steps : ∀ e, Ready c e → ∃ c', perform e c = .ok () c' ∧ ∀ o, c'.freed o ≠ c.freed o →
    (c.node o).refCount = 0 ∧ (c.node o).openCount = 0 ∧ ∀ h ∈ c.handles, h.node ≠ o

end LiNos.SfsReclaim
