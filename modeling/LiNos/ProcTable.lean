import LiNos.Proc

/-!
What the process table keeps.

Three groups of facts hold together. `Listed` says that `proc_list`, the buckets
of `hash_list` and `nr_process` agree on the processes that are there, newest
first. `Numbered` is about pids: they are in range and distinct, and the statics
of `get_pid` delimit a stretch without live pids. `Related` is about the family:
the children of a process hang off its `cptr`. Each function that changes the
table has one lemma for the group it is about; `Table` is the three together.
-/

namespace LiNos.Proc

open CircularList SiblingChain Function List

variable {s s' : Machine} {idle p i : ℕ} {alive us vs : List ℕ} {fuel : ℕ} {pid next : ℤ}

/-- `proc_list`, `hash_list` and `nr_process` agree on the processes `alive`. -/
structure Listed (s : Machine) (alive : List ℕ) : Prop where
  ring : Ring s.listLinks .procList (alive.map .listLink)
  buckets : ∀ i < hashListSize, Ring s.hashLinks (.hashList i)
    ((alive.filter fun p => pidHashfn (s.pid p) = i).map .hashLink)
  count : s.nrProcess = alive.length + 1

/-- Pids are valid and distinct, and none is strictly between `last_pid` and
`next_safe`. -/
structure Numbered (s : Machine) (alive : List ℕ) : Prop where
  range : ∀ p ∈ alive, 0 < s.pid p ∧ s.pid p < maxPid
  distinct : ∀ p ∈ alive, ∀ q ∈ alive, s.pid p = s.pid q → p = q
  safe : ∀ p ∈ alive, ¬ (s.lastPid < s.pid p ∧ s.pid p < s.nextSafe)
  last : 0 < s.lastPid
  next : s.nextSafe ≤ maxPid

/-- The children of each process hang off its `cptr`; every process has a parent
in the table, and no parent is a zombie. -/
structure Related (s : Machine) (idle : ℕ) (alive : List ℕ) : Prop where
  forest : Forest s.optr s.yptr s.cptr s.parent {p | p ∈ idle :: alive} {p | p ∈ alive}
  parents : ∀ c ∈ alive, ∃ p ∈ idle :: alive, s.parent c = some p
  childless : ∀ c ∈ alive, ∀ p, s.parent c = some p → s.state p ≠ .zombie
  idle_notMem : idle ∉ alive
  current : s.current ∈ idle :: alive

/-- The invariant of the process table, before `initproc` is known. -/
structure Table (s : Machine) (idle : ℕ) (alive : List ℕ) : Prop where
  listed : Listed s alive
  numbered : Numbered s alive
  related : Related s idle alive

/-! ## The lists -/

theorem pidHashfn_lt (x : ℤ) : pidHashfn x < hashListSize := by
  have small : (x % 2 ^ 32).toNat * 0x9e370001 % 2 ^ 32 < 2 ^ 32 := Nat.mod_lt _ (by simp)
  simp only [pidHashfn, hash32, hashListSize, hashShift, Nat.shiftRight_eq_div_pow]
  omega

theorem Listed.nodup (listed : Listed s alive) : alive.Nodup :=
  List.Nodup.of_map _ listed.ring.nodup

/-- Distinct buckets have no node in common. -/
private theorem bucket_apart (s : Machine) (alive : List ℕ) {j : ℕ} (differ : i ≠ j) {w : HashEntry}
    (member : w ∈ HashEntry.hashList i :: (alive.filter fun p => pidHashfn (s.pid p) = i).map .hashLink) :
    w ∉ HashEntry.hashList j :: (alive.filter fun p => pidHashfn (s.pid p) = j).map .hashLink := by
  rcases mem_cons.mp member with rfl | member
  · simp [differ]
  · obtain ⟨q, inside, rfl⟩ := mem_map.mp member
    have here : pidHashfn (s.pid q) = i := by simpa using (mem_filter.mp inside).2
    simp only [mem_cons, reduceCtorEq, false_or, mem_map, HashEntry.hashLink.injEq,
      exists_eq_right, mem_filter, decide_eq_true_eq, not_and]
    intro _ there
    exact differ (here.symm.trans there)

/-- The three writes with which a process enters the table. -/
theorem Listed.enter (listed : Listed s alive) (fresh : p ∉ alive) (pid : ℤ) :
    Listed { s with
      pid := update s.pid p pid
      hashLinks := listAdd s.hashLinks (.hashList (pidHashfn pid)) (.hashLink p)
      listLinks := listAdd s.listLinks .procList (.listLink p)
      nrProcess := s.nrProcess + 1 } (p :: alive) := by
  have others : ∀ i, (alive.filter fun q => pidHashfn (update s.pid p pid q) = i) =
      alive.filter fun q => pidHashfn (s.pid q) = i := by
    intro i
    refine filter_congr fun q member => ?_
    rw [update_of_ne (ne_of_mem_of_not_mem member fresh)]
  refine ⟨?_, ?_, ?_⟩
  · exact ring_listAdd listed.ring (by simpa using fresh)
  · intro i bound
    have bucket := listed.buckets i bound
    have home := listed.buckets (pidHashfn pid) (pidHashfn_lt pid)
    by_cases same : pidHashfn pid = i
    · subst same
      have added := ring_listAdd (e := HashEntry.hashLink p) bucket (by simp [fresh])
      simpa [others] using added
    · have other : ∀ w ∈ HashEntry.hashList i ::
          (alive.filter fun q => pidHashfn (s.pid q) = i).map .hashLink, w ≠ .hashLink p := by
        rintro w member rfl
        simp [fresh] at member
      have untouched := fun w member => ring_listAdd_frame home
        (bucket_apart s alive (Ne.symm same) member) (other w member)
      have kept := bucket.congr (fun w member => (untouched w member).1)
        (fun w member => (untouched w member).2)
      simpa [others, same] using kept
  · have counted := listed.count
    simp only [length_cons]
    push_cast
    omega

/-- The three writes with which a process leaves the table. -/
theorem Listed.leave (listed : Listed s (us ++ p :: vs)) :
    Listed { s with
      hashLinks := listDel s.hashLinks (.hashLink p)
      listLinks := listDel s.listLinks (.listLink p)
      nrProcess := s.nrProcess - 1 } (us ++ vs) := by
  have ring := listed.ring
  rw [map_append, map_cons] at ring
  have home := listed.buckets _ (pidHashfn_lt (s.pid p))
  have parts : ((us ++ p :: vs).filter fun q => pidHashfn (s.pid q) = pidHashfn (s.pid p)).map
      HashEntry.hashLink =
        (us.filter fun q => pidHashfn (s.pid q) = pidHashfn (s.pid p)).map .hashLink ++
          .hashLink p :: (vs.filter fun q => pidHashfn (s.pid q) = pidHashfn (s.pid p)).map .hashLink := by
    simp
  rw [parts] at home
  refine ⟨?_, ?_, ?_⟩
  · rw [map_append]
    exact ring_listDel ring
  · intro i bound
    have bucket := listed.buckets i bound
    by_cases same : pidHashfn (s.pid p) = i
    · subst same
      rw [filter_append, map_append]
      exact ring_listDel home
    · have untouched := fun w member => ring_listDel_frame home
        (parts ▸ @bucket_apart _ s (us ++ p :: vs) _ (Ne.symm same) w member)
      have kept := bucket.congr (fun w member => (untouched w member).1)
        (fun w member => (untouched w member).2)
      simpa [filter_cons, same] using kept
  · have counted := listed.count
    simp only [length_append, length_cons] at counted ⊢
    push_cast at counted ⊢
    omega

/-! ## Looking a pid up -/

/-- The walk over a bucket comes back when it may take one step more than there
are processes left, and what it comes back with is the first process with that
pid. -/
private theorem findProcLoop_spec {done rest : List ℕ} (fuel : ℕ) (pid : ℤ)
    (ring : Ring s.hashLinks (.hashList i) ((done ++ rest).map .hashLink)) :
    (rest.length < fuel →
      findProcLoop s pid (.hashList i) fuel (lastOf (.hashList i) (done.map .hashLink)) =
        some (rest.find? fun p => s.pid p = pid)) ∧
      ∀ found, findProcLoop s pid (.hashList i) fuel
          (lastOf (.hashList i) (done.map .hashLink)) = some found →
        found = rest.find? fun p => s.pid p = pid := by
  have linked := ring.linked
  rw [map_append] at linked
  have next := (linked_cut _ _ linked).1
  induction rest generalizing done fuel with
  | nil =>
    cases fuel with
    | zero => simp [findProcLoop]
    | succ fuel => simp [findProcLoop, next]
  | cons q rest ih =>
    cases fuel with
    | zero => simp [findProcLoop]
    | succ fuel =>
      simp only [findProcLoop, next, map_cons, firstOf_cons, reduceCtorEq, if_false]
      by_cases same : s.pid q = pid
      · simp [same]
      · have moved : Ring s.hashLinks (.hashList i) (((done ++ [q]) ++ rest).map .hashLink) := by
          simpa using ring
        have linked' := moved.linked
        rw [map_append] at linked'
        have later := ih fuel moved linked' (linked_cut _ _ linked').1
        simpa [same] using later

/-- `find_proc` comes back with the process that has the pid, if there is one. -/
theorem findProc_spec (listed : Listed s alive) (numbered : Numbered s alive) :
    (alive.length < fuel → findProc fuel s pid = some (alive.find? fun p => s.pid p = pid)) ∧
      ∀ found, findProc fuel s pid = some found → found = alive.find? fun p => s.pid p = pid := by
  unfold findProc
  by_cases valid : 0 < pid ∧ pid < maxPid
  · have ring : Ring s.hashLinks (.hashList (pidHashfn pid))
        (([] ++ alive.filter fun p => pidHashfn (s.pid p) = pidHashfn pid).map .hashLink) :=
      listed.buckets _ (pidHashfn_lt pid)
    have bucket : (alive.filter fun p => pidHashfn (s.pid p) = pidHashfn pid).find?
        (fun p => s.pid p = pid) = alive.find? fun p => s.pid p = pid := by
      rw [find?_filter]
      congr 1
      funext p
      by_cases same : s.pid p = pid
      · simp [same]
      · simp [same]
    obtain ⟨returns, sound⟩ := findProcLoop_spec fuel pid ring
    rw [bucket] at returns sound
    rw [if_pos valid]
    refine ⟨fun enough => returns (lt_of_le_of_lt (length_filter_le _ _) enough), sound⟩
  · have absent : (alive.find? fun p => s.pid p = pid) = none := by
      rw [find?_eq_none]
      intro p member same
      have range := numbered.range p member
      simp only [decide_eq_true_eq] at same
      rw [same] at range
      exact valid range
    simp [valid, absent]

/-- What is found is in the table and has the pid. -/
theorem findProc_some (listed : Listed s alive) (numbered : Numbered s alive)
    (found : findProc fuel s pid = some (some p)) : p ∈ alive ∧ s.pid p = pid := by
  have same := (findProc_spec listed numbered).2 _ found
  exact ⟨mem_of_find?_eq_some same.symm, by simpa using find?_some same.symm⟩

/-! ## Choosing a pid -/

/-- No pid of `ps` lies in the stretch from `last` up to `next`. -/
def Clear (s : Machine) (ps : List ℕ) (last next : ℤ) : Prop :=
  ∀ p ∈ ps, ¬ (last ≤ s.pid p ∧ s.pid p < next)

/-- When the loop ends, the whole table has been passed since `last_pid` was last
raised to the stretch it now stands for. -/
private theorem getPidLoop_sound (done rest : List ℕ) {last last' next' : ℤ}
    (ring : Ring s.listLinks .procList ((done ++ rest).map .listLink))
    (positive : 0 < last) (inside : last < next) (bound : next ≤ maxPid)
    (clear : Clear s done last next)
    (ended : getPidLoop s fuel (lastOf .procList (done.map .listLink)) last next =
      some (last', next')) :
    0 < last' ∧ last' < next' ∧ next' ≤ maxPid ∧ Clear s (done ++ rest) last' next' := by
  induction fuel generalizing done rest last next with
  | zero => cases ended
  | succ fuel ih =>
    have linked := ring.linked
    rw [map_append] at linked
    have step := (linked_cut _ _ linked).1
    cases rest with
    | nil =>
      simp only [getPidLoop, step, map_nil, firstOf_nil, Option.some.injEq,
        Prod.mk.injEq] at ended
      obtain ⟨rfl, rfl⟩ := ended
      simpa using ⟨positive, inside, bound, clear⟩
    | cons q rest =>
      have moved : done ++ q :: rest = (done ++ [q]) ++ rest := by simp
      have behind : ListEntry.listLink q = lastOf .procList ((done ++ [q]).map .listLink) := by
        simp
      have extend : ∀ last next, Clear s done last next →
          ¬ (last ≤ s.pid q ∧ s.pid q < next) → Clear s (done ++ [q]) last next := by
        intro last next clear outside p member
        rcases mem_append.mp member with member | member
        · exact clear p member
        · rw [mem_singleton.mp member]
          exact outside
      simp only [getPidLoop, step, map_cons, firstOf_cons] at ended
      split at ended
      · rename_i taken
        split at ended
        · -- the stretch is used up: the walk starts again at the head of the list
          exact ih [] (done ++ q :: rest) ring (by split <;> omega) (by unfold maxPid maxProcess at *; split <;> omega)
            le_rfl (by simp [Clear]) ended
        · rw [behind] at ended
          rw [moved] at ring ⊢
          refine ih _ _ ring (by omega) (by omega) bound (extend _ _ ?_ (by omega)) ended
          intro p member between
          exact clear p member (by omega)
      · split at ended
        · rename_i ahead
          rw [behind] at ended
          rw [moved] at ring ⊢
          refine ih _ _ ring positive ahead.1 (by omega) (extend _ _ ?_ (by omega)) ended
          intro p member between
          exact clear p member (by omega)
        · rw [behind] at ended
          rw [moved] at ring ⊢
          exact ih _ _ ring positive inside bound (extend _ _ clear (by omega)) ended

/-- `get_pid` writes its two statics, and the pid it returns is valid and new. -/
theorem getPid_sound (ring : Ring s.listLinks .procList (alive.map .listLink))
    (numbered : Numbered s alive)
    (ended : getPid fuel s = some (s', pid)) :
    ∃ next, s' = { s with lastPid := pid, nextSafe := next } ∧ 0 < pid ∧ pid < next ∧
      next ≤ maxPid ∧ Clear s alive pid next := by
  have empty : ∀ last next, Clear s [] last next := by simp [Clear]
  have searched : ∀ start, 0 < start → start < maxPid →
      ((getPidLoop s fuel .procList start maxPid).bind fun r =>
        some ({ s with lastPid := r.1, nextSafe := r.2 }, r.1)) = some (s', pid) →
      ∃ next, s' = { s with lastPid := pid, nextSafe := next } ∧ 0 < pid ∧ pid < next ∧
        next ≤ maxPid ∧ Clear s alive pid next := by
    intro start positive small ran
    obtain ⟨⟨last, next⟩, walked, result⟩ := Option.bind_eq_some_iff.mp ran
    obtain ⟨rfl, rfl⟩ := result
    exact ⟨next, rfl, getPidLoop_sound [] alive ring positive small le_rfl (empty _ _) walked⟩
  have last := numbered.last
  unfold getPid at ended
  split at ended
  · exact searched 1 (by decide) (by decide) ended
  · rename_i small
    split at ended
    · exact searched _ (by omega) (by omega) ended
    · rename_i below
      obtain ⟨rfl, rfl⟩ := ended
      refine ⟨s.nextSafe, rfl, by omega, by omega, numbered.next, ?_⟩
      intro p member between
      exact numbered.safe p member (by omega)

/-- A process with the pid `get_pid` chose. -/
theorem Numbered.enter (numbered : Numbered s alive) (fresh : p ∉ alive)
    (positive : 0 < pid) (inside : pid < next) (bound : next ≤ maxPid)
    (clear : Clear s alive pid next) :
    Numbered { s with
      pid := update s.pid p pid
      lastPid := pid
      nextSafe := next } (p :: alive) := by
  have old : ∀ q ∈ alive, update s.pid p pid q = s.pid q := fun q member =>
    update_of_ne (ne_of_mem_of_not_mem member fresh) _ _
  have differs : ∀ q ∈ alive, s.pid q ≠ pid := by
    intro q member same
    exact clear q member (by omega)
  refine ⟨?_, ?_, ?_, positive, bound⟩
  · intro q member
    rcases mem_cons.mp member with rfl | member
    · simp only [update_self]
      omega
    · simpa [old q member] using numbered.range q member
  · intro q member r member' same
    rcases mem_cons.mp member with rfl | known <;>
      rcases mem_cons.mp member' with rfl | known'
    · rfl
    · simp only [update_self, old r known'] at same
      exact absurd same.symm (differs r known')
    · simp only [update_self, old q known] at same
      exact absurd same (differs q known)
    · simp only [old q known, old r known'] at same
      exact numbered.distinct q known r known' same
  · intro q member
    rcases mem_cons.mp member with rfl | member
    · simp
    · simp only [old q member]
      intro between
      exact clear q member (by omega)

/-- With a process gone its pid is free again. -/
theorem Numbered.mono (numbered : Numbered s alive) (fewer : us ⊆ alive) : Numbered s us :=
  ⟨fun p member => numbered.range p (fewer member),
    fun p member q member' => numbered.distinct p (fewer member) q (fewer member'),
    fun p member => numbered.safe p (fewer member), numbered.last, numbered.next⟩

end LiNos.Proc
