import LiNos.ProcRuns

/-!
Parents and children.

The children of a process hang off its `cptr`, linked by `optr` and `yptr`. In
runs without `do_kill` these chains hold exactly the children at any time
(`family_links`).
-/

namespace LiNos.Proc

open CircularList SiblingChain Function List

variable {s s' : Machine} {idle init p fuel : ℕ} {alive : List ℕ} {pid : ℤ}

/-! ## Family links -/

/-- From `first` on, `next` leads through `nodes` to the null pointer. -/
def Follows (next : ℕ → Option ℕ) : Option ℕ → List ℕ → Prop
  | first, [] => first = none
  | first, k :: ks => first = some k ∧ Follows next (next k) ks

theorem Follows.of_chain {older younger : ℕ → Option ℕ} {before first : Option ℕ} {ks : List ℕ}
    (chain : Chain older younger before first ks) : Follows older first ks := by
  induction ks generalizing before first with
  | nil => exact chain
  | cons k ks ih =>
    obtain ⟨here, -, rest⟩ := chain
    exact ⟨here, ih rest⟩

/-- The chain of `p` is `kids`: the processes in the table whose parent is `p`. -/
structure FamilyLinks (s : Machine) (alive : List ℕ) (p : ℕ) (kids : List ℕ) : Prop where
  chain : Follows s.optr (s.cptr p) kids
  distinct : kids.Nodup
  exact : ∀ c, c ∈ kids ↔ c ∈ alive ∧ s.parent c = some p
  head : ∀ k, s.cptr p = some k → s.yptr k = none
  inverse : ∀ a ∈ kids, ∀ b ∈ kids, s.optr a = some b ↔ s.yptr b = some a
  exited : s.state p = .zombie → kids = []

theorem Related.family (related : Related s idle alive) (known : p ∈ idle :: alive) :
    ∃ kids, FamilyLinks s alive p kids := by
  obtain ⟨kids, chain, distinct, exact⟩ := related.forest p known
  refine ⟨kids, Follows.of_chain chain, distinct, exact, ?_, fun a left b right => chain.inverse left right, ?_⟩
  · intro k first
    cases kids with
    | nil => cases first.symm.trans chain
    | cons f rest =>
      obtain ⟨here, back, -⟩ := chain
      cases here.symm.trans first
      exact back
  · intro dead
    refine eq_nil_iff_forall_not_mem.mpr fun c member => ?_
    obtain ⟨inside, child⟩ := (exact c).mp member
    exact related.childless c inside p child dead

/-- In every run of `do_fork`, `do_exit` and `do_wait`, at any time, the chain of
every process that has not been reaped is intact. -/
theorem family_links (reached : Reachable (fun _ _ => False) s alive)
    (unreaped : p ∈ alive ∨ s.idleproc = some p) : ∃ kids, FamilyLinks s alive p kids := by
  obtain ⟨idle, init, settled⟩ := (reached.mono fun _ _ => False.elim).settled
  refine settled.table.related.family ?_
  rcases unreaped with member | isIdle
  · exact mem_cons_of_mem _ member
  · rw [settled.idleproc] at isIdle
    cases isIdle
    exact mem_cons_self

set_option maxRecDepth 20000 in
/-- `initproc` has the children 3 and 4, and 3 has the child 5; when 3 exits,
`initproc` gets 5 in front of its own children. -/
theorem family_links_reparent :
    ∃ s kids, Reachable (fun _ _ => False) s [5, 4, 3, 2] ∧ s.cptr 2 = some 5 ∧
      FamilyLinks s [5, 4, 3, 2] 2 kids := by
  have forked := reachable_oneChild (fun _ _ => False) rfl
  have again := @Reachable.fork _ _ _ _ 9 (plenty 4) _ forked (by decide)
    (by rintro p ⟨⟩; exact ⟨by decide, by decide⟩) rfl
  have switched := again.schedule 3 (.inr (by decide)) rfl
  have grandchild := @Reachable.fork _ _ _ _ 9 (plenty 5) _ switched (by decide)
    (by rintro p ⟨⟩; exact ⟨by decide, by decide⟩) rfl
  have exited := @Reachable.exit _ _ _ _ 9 0 grandchild (by decide) rfl
  obtain ⟨kids, links⟩ := family_links (p := 2) exited (.inl (by decide))
  exact ⟨_, kids, exited, rfl, links⟩

/-! ## Sleeping parents -/

/-- What a run remembers: for what each process went to sleep in `do_wait` last,
which code it passed to `do_exit`, and the lives of the structures. A structure
that is reaped and allocated again starts a new life. -/
structure History where
  wants : ℕ → ℤ
  passed : ℕ → ℤ
  life : ℕ → ℕ
  lives : ℕ
  reaped : List ℕ

namespace History

/-- `initproc` has life 0. -/
def start : History := ⟨fun _ => 0, fun _ => 0, fun _ => 0, 1, []⟩

def fork (h : History) (r : ForkResources) (ret : ℤ) : History :=
  match r.proc with
  | none => h
  | some p =>
    if 0 < ret then { h with life := update h.life p h.lives, lives := h.lives + 1 } else h

def exit (h : History) (p : ℕ) (errorCode : ℤ) : History :=
  { h with passed := update h.passed p errorCode }

def wait (h : History) (p : ℕ) (pid : ℤ) : WaitOutcome → History
  | .failed _ => h
  | .blocked => { h with wants := update h.wants p pid }
  | .reaped c _ => { h with reaped := h.life c :: h.reaped }

end History

variable {h : History} {q : ℕ}

/-- No process sleeps in `do_wait` while a child it waits for is a zombie, one
process `except` left aside. A process that waits for a child is asleep, and a
zombie holds the code it passed to `do_exit`. -/
structure Attended (except : Option ℕ) (s : Machine) (idle : ℕ) (alive : List ℕ) (h : History) :
    Prop where
  asleep : ∀ p ∈ idle :: alive, s.waitState p = wtChild → s.state p = .sleeping
  empty : ∀ p, except ≠ some p → s.waitState p = wtChild → ∀ c ∈ alive, s.parent c = some p →
    Matches s (h.wants p) c → s.state c ≠ .zombie
  codes : ∀ c ∈ alive, s.state c = .zombie → s.exitCode c = h.passed c

theorem Attended.close (attended : Attended (some q) s idle alive h) (awake : s.waitState q ≠ wtChild) :
    Attended none s idle alive h :=
  { attended with empty := fun p _ waits => attended.empty p (by rintro ⟨⟩; exact awake waits) waits }

/-- `wakeup_proc` on a process that sleeps. -/
theorem wakeupProc_cases (ran : wakeupProc s p = some s') :
    s.state p = .runnable ∧ s' = s ∨ s.state p ≠ .runnable ∧ s' = { s with
      state := update s.state p .runnable
      waitState := update s.waitState p 0 } := by
  unfold wakeupProc at ran
  split_ifs at ran with dead runs
  · cases ran
    exact .inl ⟨runs, rfl⟩
  · cases ran
    exact .inr ⟨runs, rfl⟩

theorem Attended.wake {except : Option ℕ} (attended : Attended except s idle alive h)
    (ran : wakeupProc s p = some s') : Attended except s' idle alive h := by
  rcases wakeupProc_cases ran with ⟨-, rfl⟩ | ⟨-, rfl⟩
  · exact attended
  · obtain ⟨asleep, empty, codes⟩ := attended
    have notWaiting : (0 : ℕ) ≠ wtChild := by decide
    refine ⟨?_, ?_, ?_⟩ <;> grind [update_apply, Matches]

/-- Waking the process the exception was made for. -/
theorem Attended.wake_close (attended : Attended (some q) s idle alive h) (known : q ∈ idle :: alive)
    (ran : (if s.waitState q = wtChild then wakeupProc s q else some s) = some s') :
    Attended none s' idle alive h := by
  split_ifs at ran with waits
  · have sleeping := attended.asleep q known waits
    refine (attended.wake ran).close ?_
    rcases wakeupProc_cases ran with ⟨runnable, -⟩ | ⟨-, rfl⟩
    · cases sleeping.symm.trans runnable
    · simp only [update_self]
      decide
  · cases ran
    exact attended.close waits

/-- `current` exits. -/
theorem Attended.exit (errorCode : ℤ) (attended : Attended none s idle alive h)
    (running : s.state s.current = .runnable) (child : s.parent s.current = some q) :
    Attended (some q) { s with
      state := update s.state s.current .zombie
      exitCode := update s.exitCode s.current errorCode } idle alive
      (h.exit s.current errorCode) := by
  obtain ⟨asleep, empty, codes⟩ := attended
  refine ⟨?_, ?_, ?_⟩ <;> dsimp only [History.exit] <;> grind [update_apply, Matches]

/-- The loop of `do_exit` wakes `initproc` when it hands it a zombie. -/
theorem exitLoop_attended (attended : Attended none s idle alive h)
    (initproc : s.initproc = some init) (known : init ∈ idle :: alive)
    (ran : exitLoop fuel s = some s') : Attended none s' idle alive h := by
  induction fuel generalizing s with
  | zero => cases ran
  | succ fuel ih =>
    unfold exitLoop at ran
    cases first : s.cptr s.current with
    | none =>
      rw [first] at ran
      cases ran
      exact attended
    | some kid =>
      simp only [first, initproc, Option.bind_eq_bind, Option.bind_some] at ran
      obtain ⟨asleep, empty, codes⟩ := attended
      have moved : ∀ c, (reparent s kid init).parent c = if c = kid then some init else s.parent c :=
        fun c => update_apply ..
      split_ifs at ran with waiting
      · have handed : Attended (some init) (reparent s kid init) idle alive h := by
          refine ⟨asleep, ?_, codes⟩
          intro p other waits c member child matching
          refine empty p (by simp) waits c member ?_ matching
          grind
        obtain ⟨s₁, woken, ran⟩ := Option.bind_eq_some_iff.mp ran
        refine ih (handed.wake_close known (by rwa [if_pos waiting.2])) ?_ ran
        obtain ⟨state, waitState, rfl, -⟩ := wakeupProc_eq woken
        exact initproc
      · have kept : Attended none (reparent s kid init) idle alive h := by
          refine ⟨asleep, ?_, codes⟩
          intro p _ waits c member child matching dead
          refine empty p (by simp) waits c member ?_ matching dead
          grind
        exact ih kept initproc ran

theorem doExit_attended {errorCode : ℤ} (settled : Settled s idle init alive)
    (attended : Attended none s idle alive h) (running : s.state s.current = .runnable)
    (ran : doExit fuel s errorCode = some s') :
    Attended none s' idle alive (h.exit s.current errorCode) := by
  have related := settled.table.related
  unfold doExit at ran
  split_ifs at ran with ordinary
  have notIdle : s.current ≠ idle := fun same => ordinary (.inl (by rw [settled.idleproc, same]))
  have inside : s.current ∈ alive := (mem_cons.mp related.current).resolve_left notIdle
  obtain ⟨q, member, child⟩ := related.parents _ inside
  simp only [child, Option.bind_eq_bind, Option.bind_some] at ran
  have initKnown := mem_cons_of_mem idle settled.init_mem
  have dying := attended.exit errorCode running child
  split_ifs at ran with waits
  · obtain ⟨s₁, woken, ran⟩ := Option.bind_eq_some_iff.mp ran
    refine exitLoop_attended (dying.wake_close member (by rwa [if_pos waits])) ?_ initKnown ran
    obtain ⟨state, waitState, rfl, -⟩ := wakeupProc_eq woken
    exact settled.initproc
  · exact exitLoop_attended (dying.wake_close member (if_neg waits)) settled.initproc initKnown ran

/-! ## do_fork -/

section Fork

variable {r : ForkResources} {ret : ℤ}

theorem getPid_eq {pid : ℤ} (ran : getPid fuel s = some (s', pid)) :
    ∃ lastPid nextSafe, s' = { s with lastPid := lastPid, nextSafe := nextSafe } := by
  unfold getPid at ran
  split_ifs at ran
  · obtain ⟨_, -, ⟨⟩⟩ := Option.bind_eq_some_iff.mp ran
    exact ⟨_, _, rfl⟩
  · obtain ⟨_, -, ⟨⟩⟩ := Option.bind_eq_some_iff.mp ran
    exact ⟨_, _, rfl⟩
  · cases ran
    exact ⟨_, _, rfl⟩

/-- `do_fork` writes to no other structure what a parent's wait depends on. -/
structure Untouched (s s' : Machine) (q : ℕ) : Prop where
  state : s'.state q = s.state q
  waitState : s'.waitState q = s.waitState q
  exitCode : s'.exitCode q = s.exitCode q
  parent : s'.parent q = s.parent q
  pid : s'.pid q = s.pid q

theorem Untouched.trans {s₁ : Machine} (first : Untouched s s₁ q) (second : Untouched s₁ s' q) :
    Untouched s s' q := by
  grind [Untouched]

theorem newProc_untouched (other : q ≠ p) : Untouched s (newProc s p) q := by
  constructor <;> simp [other]

theorem enterProc_frame (fresh : s.state p = .uninit) (named : s.parent p = some s.current)
    (ran : enterProc fuel s p = some (s', ret)) :
    (∀ q, q ≠ p → Untouched s s' q) ∧ s'.state p = .runnable ∧ s'.waitState p = 0 := by
  obtain ⟨⟨s₁, pid⟩, chosen, ran⟩ := Option.bind_eq_some_iff.mp ran
  obtain ⟨lastPid, nextSafe, rfl⟩ := getPid_eq chosen
  simp only [setLinks, hashProc, named, update_self] at ran
  obtain ⟨s₂, ⟨⟩, rest⟩ := Option.bind_eq_some_iff.mp ran
  obtain ⟨s₃, woken, ⟨⟩⟩ := Option.bind_eq_some_iff.mp rest
  rcases wakeupProc_cases woken with ⟨runnable, -⟩ | ⟨-, rfl⟩
  · cases fresh.symm.trans runnable
  · refine ⟨fun q other => ?_, by simp, by simp⟩
    constructor <;> simp [other]

theorem doFork_frame (ran : doFork fuel s r = some (s', ret)) :
    (∀ q, r.proc ≠ some q → Untouched s s' q) ∧
      ∀ q, r.proc = some q → 0 < ret → s'.state q = .runnable ∧ s'.waitState q = 0 := by
  have same : ∀ q, Untouched s s q := fun q => ⟨rfl, rfl, rfl, rfl, rfl⟩
  unfold doFork at ran
  split at ran
  · cases ran
    exact ⟨fun q _ => same q, fun q _ positive => absurd positive (by decide)⟩
  · cases got : r.proc with
    | none =>
      simp only [got] at ran
      cases ran
      exact ⟨fun q _ => same q, by simp⟩
    | some p =>
      have new : ∀ q, some p ≠ some q → q ≠ p := fun q other is => other (by rw [is])
      simp only [got] at ran
      split_ifs at ran
      · obtain ⟨others, state, waitState⟩ := enterProc_frame (by simp) (by simp) ran
        refine ⟨fun q other => (newProc_untouched (new q other)).trans (others q (new q other)), ?_⟩
        rintro q ⟨⟩ -
        exact ⟨state, waitState⟩
      · cases ran
        exact ⟨fun q other => newProc_untouched (new q other),
          fun q _ positive => absurd positive (by decide)⟩

theorem doFork_attended (related : Related s idle alive) (attended : Attended none s idle alive h)
    (fresh : ∀ p, r.proc = some p → p ∉ idle :: alive) (ran : doFork fuel s r = some (s', ret)) :
    Attended none s' idle (afterFork r ret alive) (h.fork r ret) := by
  obtain ⟨others, new⟩ := doFork_frame ran
  obtain ⟨asleep, empty, codes⟩ := attended
  have known : ∀ q ∈ idle :: alive, Untouched s s' q :=
    fun q member => others q fun got => fresh q got member
  have old : Attended none s' idle alive h := by
    refine ⟨?_, ?_, ?_⟩
    · intro p member waits
      rw [(known p member).state]
      exact asleep p member ((known p member).waitState.symm.trans waits)
    · intro p _ waits c member child matching
      have same := known c (mem_cons_of_mem _ member)
      rw [same.parent] at child
      obtain ⟨p', owner, named⟩ := related.parents c member
      cases Option.some.inj (named.symm.trans child)
      rw [Matches, same.pid] at matching
      rw [same.state]
      exact empty p (by simp) ((known p owner).waitState.symm.trans waits) c member child matching
    · intro c member dead
      have same := known c (mem_cons_of_mem _ member)
      rw [same.exitCode]
      exact codes c member (same.state.symm.trans dead)
  unfold afterFork History.fork
  cases got : r.proc with
  | none =>
    simp only [Option.toList_none, nil_append, ite_self]
    exact old
  | some p =>
    split_ifs with positive
    · obtain ⟨state, waitState⟩ := new p got positive
      obtain ⟨asleep, empty, codes⟩ := old
      have notWaiting : (0 : ℕ) ≠ wtChild := by decide
      refine ⟨?_, ?_, ?_⟩ <;> simp only [Option.toList_some, singleton_append] <;> grind
    · exact old

end Fork

/-! ## do_wait -/

section Wait

variable {codeStore : CodeStore} {outcome : WaitOutcome}

theorem doWait_attended (table : Table s idle alive) (attended : Attended none s idle alive h)
    (ran : doWait fuel s pid codeStore = some (s', outcome)) :
    Attended none s' idle (afterWait outcome alive) (h.wait s.current pid outcome) := by
  rcases doWait_cases table ran with ⟨rfl, rfl⟩ | ⟨rfl, rfl, -⟩ | ⟨rfl, rfl, awake⟩ |
    ⟨c, rfl, -, -, -, -, -, rfl⟩
  · exact attended
  · exact attended
  · obtain ⟨asleep, empty, codes⟩ := attended
    refine ⟨?_, ?_, ?_⟩ <;> dsimp only [History.wait, afterWait] <;> grind [update_apply, Matches]
  · have fewer : ∀ q, q ∈ alive.erase c → q ∈ alive := fun q => mem_of_mem_erase
    refine ⟨?_, ?_, ?_⟩
    · exact fun p known => attended.asleep p (cons_subset_cons _ (erase_subset) known)
    · exact fun p _ waits q known => attended.empty p (by simp) waits q (fewer q known)
    · exact fun q known => attended.codes q (fewer q known)

end Wait

theorem doKill_attended {ret : ℤ} (attended : Attended none s idle alive h)
    (ran : doKill fuel s pid = some (s', ret)) : Attended none s' idle alive h := by
  have unlinked : Attended none (unlinkFirst s pid) idle alive h := by
    unfold unlinkFirst
    split
    · exact attended
    · split_ifs
      · exact { attended with }
      · exact attended
  obtain ⟨found, -, ran⟩ := Option.bind_eq_some_iff.mp ran
  cases found with
  | none =>
    cases ran
    exact unlinked
  | some q =>
    simp only at ran
    split_ifs at ran
    · obtain ⟨s₁, woken, ⟨⟩⟩ := Option.bind_eq_some_iff.mp ran
      refine Attended.wake ?_ woken
      exact { unlinked with }
    · cases ran
      exact { unlinked with }
    · cases ran
      exact unlinked

/-- A process goes to sleep for something else than a child. -/
theorem Attended.sleep {waitState : ℕ} (attended : Attended none s idle alive h)
    (other : waitState ≠ wtChild) :
    Attended none { s with
      state := update s.state s.current .sleeping
      waitState := update s.waitState s.current waitState } idle alive h := by
  obtain ⟨asleep, empty, codes⟩ := attended
  refine ⟨?_, ?_, ?_⟩ <;> grind [update_apply, Matches]

/-! ## Lives -/

/-- No two processes in the table share a life, and no life is reaped twice. -/
structure Lives (alive : List ℕ) (h : History) : Prop where
  begun : ∀ p ∈ alive, h.life p < h.lives
  distinct : ∀ p ∈ alive, ∀ q ∈ alive, h.life p = h.life q → p = q
  unreaped : ∀ p ∈ alive, h.life p ∉ h.reaped
  past : ∀ n ∈ h.reaped, n < h.lives
  once : h.reaped.Nodup

theorem Lives.fork {r : ForkResources} {ret : ℤ} (lives : Lives alive h)
    (fresh : ∀ p, r.proc = some p → p ∉ alive) : Lives (afterFork r ret alive) (h.fork r ret) := by
  unfold afterFork History.fork
  cases got : r.proc with
  | none =>
    simp only [Option.toList_none, nil_append, ite_self]
    exact lives
  | some p =>
    have new := fresh p got
    split_ifs
    · obtain ⟨begun, distinct, unreaped, past, once⟩ := lives
      refine ⟨?_, ?_, ?_, ?_, once⟩ <;> simp only [Option.toList_some, singleton_append] <;>
        grind [update_apply]
    · exact lives

theorem Lives.reap {c : ℕ} (lives : Lives alive h) (distinct : alive.Nodup) (member : c ∈ alive) :
    Lives (alive.erase c) { h with reaped := h.life c :: h.reaped } := by
  have left : ∀ q, q ∈ alive.erase c → q ∈ alive ∧ q ≠ c :=
    fun q inside => ((List.Nodup.mem_erase_iff distinct).mp inside).symm
  obtain ⟨begun, apart, unreaped, past, once⟩ := lives
  refine ⟨?_, ?_, ?_, ?_, nodup_cons.mpr ⟨unreaped c member, once⟩⟩ <;> grind

/-! ## Runs -/

/-- Runs as in `Reachable`, with their history. The process that makes a system
call is runnable, and only `do_wait` sleeps with `WT_CHILD`. -/
inductive WaitRun (mayKill : Machine → ℤ → Prop) : Machine → List ℕ → History → Prop where
  | boot {s s' : Machine} {fuel : ℕ} {idle : Option ℕ} {r : ForkResources}
      (empty : s.nrProcess = 0) (lastPid : s.lastPid = maxPid) (nextSafe : s.nextSafe = maxPid)
      (fresh : ∀ p, r.proc = some p → idle ≠ some p)
      (ran : procInit fuel s idle r = some s') : WaitRun mayKill s' r.proc.toList .start
  | fork {s s' : Machine} {alive : List ℕ} {h : History} {fuel : ℕ} {r : ForkResources} {ret : ℤ}
      (before : WaitRun mayKill s alive h) (running : s.state s.current = .runnable)
      (fresh : ∀ p, r.proc = some p → p ∉ alive ∧ s.idleproc ≠ some p)
      (ran : doFork fuel s r = some (s', ret)) :
      WaitRun mayKill s' (afterFork r ret alive) (h.fork r ret)
  | exit {s s' : Machine} {alive : List ℕ} {h : History} {fuel : ℕ} {errorCode : ℤ}
      (before : WaitRun mayKill s alive h) (running : s.state s.current = .runnable)
      (ran : doExit fuel s errorCode = some s') : WaitRun mayKill s' alive (h.exit s.current errorCode)
  | wait {s s' : Machine} {alive : List ℕ} {h : History} {fuel : ℕ} {pid : ℤ} {codeStore : CodeStore}
      {outcome : WaitOutcome}
      (before : WaitRun mayKill s alive h) (running : s.state s.current = .runnable)
      (ran : doWait fuel s pid codeStore = some (s', outcome)) :
      WaitRun mayKill s' (afterWait outcome alive) (h.wait s.current pid outcome)
  | kill {s s' : Machine} {alive : List ℕ} {h : History} {fuel : ℕ} {pid ret : ℤ}
      (before : WaitRun mayKill s alive h) (running : s.state s.current = .runnable)
      (allowed : mayKill s pid)
      (ran : doKill fuel s pid = some (s', ret)) : WaitRun mayKill s' alive h
  | schedule {s : Machine} {alive : List ℕ} {h : History} (next : ℕ)
      (before : WaitRun mayKill s alive h) (known : s.idleproc = some next ∨ next ∈ alive)
      (ready : s.state next = .runnable) : WaitRun mayKill { s with current := next } alive h
  | sleep {s : Machine} {alive : List ℕ} {h : History} (waitState : ℕ)
      (before : WaitRun mayKill s alive h) (running : s.state s.current = .runnable)
      (other : waitState ≠ wtChild) :
      WaitRun mayKill { s with
        state := update s.state s.current .sleeping
        waitState := update s.waitState s.current waitState } alive h
  | wakeup {s s' : Machine} {alive : List ℕ} {h : History} {p : ℕ}
      (before : WaitRun mayKill s alive h) (known : p ∈ alive)
      (ran : wakeupProc s p = some s') : WaitRun mayKill s' alive h

theorem awake (running : s.state s.current = .runnable) :
    s.state s.current ≠ .zombie := by
  simp [running]

/-- After `proc_init` nobody waits. -/
theorem procInit_quiet {r : ForkResources} (isInit : r.proc = some init)
    (apart : idle ≠ init)
    (ran : procInit fuel s (some idle) r = some s') : s'.waitState idle = 0 ∧ s'.waitState init = 0 :=
      by
  obtain ⟨⟨s₁, pid⟩, forked, ran⟩ := Option.bind_eq_some_iff.mp ran
  obtain ⟨others, new⟩ := doFork_frame forked
  simp only at ran
  split_ifs at ran with positive
  obtain ⟨found, -, ran⟩ := Option.bind_eq_some_iff.mp ran
  obtain ⟨init', -, checked⟩ := Option.bind_eq_some_iff.mp ran
  split_ifs at checked
  cases checked
  refine ⟨?_, (new init isInit (not_le.mp positive)).2⟩
  have still := (others idle fun got => apart (Option.some.inj (got.symm.trans isInit))).waitState
  exact still.trans (by simp [initIdle, allocProc])

/-- In a run whose calls of `do_kill` all spare the first process of `proc_list`
the parents are attended to. -/
theorem WaitRun.attended (run : WaitRun SparesFirst s alive h) :
    ∃ idle init, Settled s idle init alive ∧ Attended none s idle alive h ∧ Lives alive h := by
  induction run with
  | boot empty lastPid nextSafe fresh ran =>
    obtain ⟨idle, init, rfl, got, settled⟩ := procInit_settled empty lastPid nextSafe fresh ran
    have apart : idle ≠ init := fun same => fresh init got (by rw [same])
    obtain ⟨quiet, quiet'⟩ := procInit_quiet got apart ran
    have alive := settled.init_awake
    have notWaiting : (0 : ℕ) ≠ wtChild := by decide
    rw [got, Option.toList_some]
    refine ⟨idle, init, settled, ⟨?_, ?_, ?_⟩, ⟨?_, ?_, ?_, ?_, nodup_nil⟩⟩ <;>
      grind [History.start]
  | fork before running fresh ran ih =>
    obtain ⟨idle, init, settled, attended, lives⟩ := ih
    refine ⟨idle, init, doFork_settled settled (awake running) fresh ran,
      doFork_attended settled.table.related attended ?_ ran, lives.fork fun p got => (fresh p got).1⟩
    intro p got member
    obtain ⟨notAlive, notIdle⟩ := fresh p got
    rcases mem_cons.mp member with rfl | member
    · exact notIdle settled.idleproc
    · exact notAlive member
  | exit before running ran ih =>
    obtain ⟨idle, init, settled, attended, lives⟩ := ih
    exact ⟨idle, init, doExit_settled settled ran, doExit_attended settled attended running ran,
      { lives with }⟩
  | @wait s s' alive h fuel pid codeStore outcome before running ran ih =>
    obtain ⟨idle, init, settled, attended, lives⟩ := ih
    refine ⟨idle, init, doWait_settled settled (awake running) ran,
      doWait_attended settled.table attended ran, ?_⟩
    cases outcome with
    | failed err => exact lives
    | blocked => exact { lives with }
    | reaped c stored =>
      refine lives.reap settled.table.listed.nodup ?_
      rcases doWait_cases settled.table ran with ⟨⟨⟩, -⟩ | ⟨⟨⟩, -⟩ | ⟨⟨⟩, -⟩ | ⟨c', ⟨⟩, member, -⟩
      exact member
  | kill before running allowed ran ih =>
    obtain ⟨idle, init, settled, attended, lives⟩ := ih
    exact ⟨idle, init, doKill_settled settled allowed ran, doKill_attended attended ran, lives⟩
  | schedule next before known ready ih =>
    obtain ⟨idle, init, settled, attended, lives⟩ := ih
    exact ⟨idle, init, settled.schedule known, { attended with }, lives⟩
  | sleep waitState before running other ih =>
    obtain ⟨idle, init, settled, attended, lives⟩ := ih
    exact ⟨idle, init, settled.restate (sleeping_quieter _), attended.sleep other, lives⟩
  | wakeup before known ran ih =>
    obtain ⟨idle, init, settled, attended, lives⟩ := ih
    exact ⟨idle, init, settled.wakeup ran, attended.wake ran, lives⟩

/-- No exit is lost: nobody sleeps in `do_wait` while a child that matches is a
zombie; what `do_wait` reaps is a zombie child of the caller, which gets the code
the child passed to `do_exit`; no life is reaped twice; and `-E_BAD_PROC` means
that no child matches. -/
structure NoLostExit (s : Machine) (alive : List ℕ) (h : History) : Prop where
  asleep : ∀ p c, s.state p = .sleeping → s.waitState p = wtChild → c ∈ alive →
    s.parent c = some p → Matches s (h.wants p) c → s.state c ≠ .zombie
  reaps : ∀ fuel pid codeStore s' c stored,
    doWait fuel s pid codeStore = some (s', .reaped c stored) →
      c ∈ alive ∧ s.parent c = some s.current ∧ s.state c = .zombie ∧ Matches s pid c ∧
        stored = if codeStore = .null then none else some (h.passed c)
  once : h.reaped.Nodup ∧ ∀ p ∈ alive, h.life p ∉ h.reaped
  badProc : ∀ fuel pid codeStore s',
    doWait fuel s pid codeStore = some (s', .failed (-eBadProc)) →
      ∀ c ∈ alive, s.parent c = some s.current → ¬ Matches s pid c

/-- In every run of `do_fork`, `do_exit`, `do_wait` and `do_kill` in which no call
of `do_kill` names the first process of `proc_list`, no exit is lost. -/
theorem no_lost_exit (run : WaitRun SparesFirst s alive h) : NoLostExit s alive h := by
  obtain ⟨idle, init, settled, attended, lives⟩ := run.attended
  refine ⟨?_, ?_, ⟨lives.once, lives.unreaped⟩, ?_⟩
  · intro p c _ waits member child matching
    exact attended.empty p (by simp) waits c member child matching
  · intro fuel pid codeStore s' c stored ran
    rcases doWait_cases settled.table ran with ⟨⟨⟩, -⟩ | ⟨⟨⟩, -⟩ | ⟨⟨⟩, -⟩ |
      ⟨c', ⟨⟩, member, child, dead, matching, -⟩
    exact ⟨member, child, dead, matching, by rw [attended.codes c member dead]⟩
  · intro fuel pid codeStore s' ran
    rcases doWait_cases settled.table ran with ⟨is, -⟩ | ⟨-, -, nobody⟩ | ⟨⟨⟩, -⟩ | ⟨c', ⟨⟩, -⟩
    · exact absurd is (by decide)
    · exact nobody

set_option maxRecDepth 20000 in
theorem waitRun_oneChild (mayKill : Machine → ℤ → Prop) (is : oneChild = some s) :
    WaitRun mayKill s [3, 2] (History.start.fork (plenty 3) 2) := by
  have booted := @WaitRun.boot mayKill Proc.fresh _ 9 (some 1) (plenty 2) rfl rfl rfl
    (by rintro p ⟨⟩; decide) rfl
  have running := booted.schedule 2 (.inr (by decide)) rfl
  obtain rfl := Option.some.inj is
  exact @WaitRun.fork _ _ _ _ _ 9 (plenty 3) _ running rfl
    (by rintro p ⟨⟩; exact ⟨by decide, by decide⟩) rfl

set_option maxRecDepth 20000 in
/-- `initproc` sleeps in `do_wait`, its child exits with the code 7, and `do_wait`
returns with it. -/
theorem no_lost_exit_child :
    ∃ s h, WaitRun SparesFirst s [3, 2] h ∧ NoLostExit s [3, 2] h ∧
      ∃ s', doWait 9 s 0 (.user true) = some (s', .reaped 3 (some 7)) := by
  have forked := waitRun_oneChild SparesFirst rfl
  have waiting := @WaitRun.wait _ _ _ _ _ 9 0 (.user true) _ forked rfl rfl
  have switched := waiting.schedule 3 (.inr (by decide)) rfl
  have exited := @WaitRun.exit _ _ _ _ _ 9 7 switched rfl rfl
  have back := exited.schedule 2 (.inr (by decide)) rfl
  exact ⟨_, _, back, no_lost_exit back, _, rfl⟩

/-! ### A pid given twice -/

/-- `initproc` runs; its zombie child 3 has pid 2 and is not on `proc_list`, where
`initproc` is alone; the last pid given was `last`. -/
structure Forgotten (s : Machine) (last : ℤ) : Prop where
  positive : 0 < last
  current : s.current = 2
  state : s.state 2 = .runnable
  dead : s.state 3 = .zombie
  waitState : s.waitState 2 = 0
  pid : s.pid 2 = 1
  pid' : s.pid 3 = 2
  parent : s.parent 3 = some 2
  cptr : s.cptr 2 = some 3
  count : s.nrProcess = 3
  idleproc : s.idleproc = some 1
  initproc : s.initproc = some 2
  lastPid : s.lastPid = last
  nextSafe : s.nextSafe = maxPid
  first : s.listLinks.next .procList = .listLink 2
  second : s.listLinks.next (.listLink 2) = .procList

/-- The state after a `do_fork` that got everything it asked for. -/
def entered (s : Machine) (p : ℕ) (pid lastPid nextSafe : ℤ) : Machine :=
  let s := newProc s p
  { s with
    state := update s.state p .runnable
    waitState := update s.waitState p 0
    pid := update s.pid p pid
    hashLinks := listAdd s.hashLinks (.hashList (pidHashfn pid)) (.hashLink p)
    listLinks := listAdd s.listLinks .procList (.listLink p)
    yptr := youngerPush s.yptr (s.cptr s.current) p
    optr := update s.optr p (s.cptr s.current)
    cptr := update s.cptr s.current (some p)
    nrProcess := s.nrProcess + 1
    lastPid := lastPid
    nextSafe := nextSafe }

theorem doFork_entered {lastPid nextSafe : ℤ} (free : ¬ maxProcess ≤ s.nrProcess)
    (other : s.current ≠ p) (quiet : s.waitState s.current = 0)
    (chosen : getPid fuel (newProc s p) =
      some ({ newProc s p with lastPid := lastPid, nextSafe := nextSafe }, pid)) :
    doFork fuel s (plenty p) = some (entered s p pid lastPid nextSafe, pid) := by
  have quiet' : (newProc s p).waitState (newProc s p).current = 0 := by
    simp [other, quiet]
  have named : (newProc s p).parent p = some (newProc s p).current := by simp
  have new : (newProc s p).state p = .uninit := by simp
  simp only [doFork, free, if_false, plenty, quiet', ne_eq, not_true_eq_false, Bool.and_self, if_true,
    enterProc, chosen, Option.bind_eq_bind, Option.bind_some, hashProc, setLinks, named, wakeupProc,
      new,
    reduceCtorEq, update_self, entered]

/-- A process without children exits while its parent does not wait. -/
theorem doExit_alone (fuel : ℕ) (errorCode : ℤ) (notIdle : s.idleproc ≠ some s.current)
    (notInit : s.initproc ≠ some s.current) (child : s.parent s.current = some q)
    (quiet : s.waitState q ≠ wtChild) (childless : s.cptr s.current = none) :
    doExit (fuel + 1) s errorCode = some { s with
      state := update s.state s.current .zombie
      exitCode := update s.exitCode s.current errorCode } := by
  simp only [doExit, notIdle, notInit, or_self, if_false, child, Option.bind_eq_bind, Option.bind_some,
    quiet, exitLoop, childless]

/-- `do_wait(0, NULL)` when the youngest child is a zombie. -/
theorem doWait_youngest (fuel : ℕ) (youngest : s.cptr s.current = some p) (dead : s.state p = .zombie)
    (notIdle : s.idleproc ≠ some p) (notInit : s.initproc ≠ some p)
    (child : s.parent p = some s.current) :
    doWait (fuel + 1) s 0 .null = some (unlinked s p, .reaped p none) := by
  have child' : (unhashProc s p).parent p = some s.current := child
  have search : waitSearch (fuel + 1) s 0 = some (some p, true) := by
    simp [waitSearch, youngest, findZombie, dead]
  simp only [doWait, reduceCtorEq, if_false, search, Option.bind_eq_bind, Option.bind_some, notIdle,
    notInit, or_self, removeLinks_eq child', if_true]
  rfl

/-- `do_wait` goes to sleep. -/
theorem doWait_blocked (search : waitSearch fuel s pid = some (none, true)) :
    doWait fuel s pid .null = some ({ s with
      state := update s.state s.current .sleeping
      waitState := update s.waitState s.current wtChild }, .blocked) := by
  simp only [doWait, reduceCtorEq, if_false, search, Option.bind_eq_bind, Option.bind_some]

attribute [simp] entered unlinked

/-- While pids are left, `do_fork` takes the next one without a look at the list;
the child exits and is reaped. -/
theorem Forgotten.round {last : ℤ} {mayKill : Machine → ℤ → Prop} (forgotten : Forgotten s last)
    (left : last + 1 < maxPid) (run : WaitRun mayKill s [3, 2] h) :
    ∃ s' h', Forgotten s' (last + 1) ∧ WaitRun mayKill s' [3, 2] h' := by
  have ahead : 0 < last + 1 := by
    have positive := forgotten.positive
    omega
  have unwaiting : (0 : ℕ) ≠ wtChild := by decide
  have chosen : getPid 9 (newProc s 4) =
      some ({ newProc s 4 with lastPid := last + 1, nextSafe := maxPid }, last + 1) := by
    have below : ¬ maxPid ≤ last + 1 := not_le.mpr left
    have lastPid : (newProc s 4).lastPid = last := forgotten.lastPid
    have nextSafe : (newProc s 4).nextSafe = maxPid := forgotten.nextSafe
    simp only [getPid, lastPid, nextSafe, below, if_false]
  have forked := run.fork (by rw [forgotten.current, forgotten.state])
    (by rintro p ⟨⟩; exact ⟨by decide, by simp [forgotten.idleproc]⟩)
    (doFork_entered (by rw [forgotten.count]; decide) (by rw [forgotten.current]; decide)
      (by rw [forgotten.current, forgotten.waitState]) chosen)
  have alive : afterFork (plenty 4) (last + 1) [3, 2] = [4, 3, 2] := by
    simp [afterFork, plenty, ahead]
  rw [alive] at forked
  have switched := forked.schedule 4 (.inr (by decide)) (by simp)
  have exited := switched.exit (by simp) (doExit_alone (q := 2) 8 0
    (by simp [forgotten.idleproc])
    (by simp [forgotten.initproc])
    (by simp [forgotten.current])
    (by simp [forgotten.waitState, unwaiting])
    (by simp [forgotten.current]))
  have back := exited.schedule 2 (.inr (by decide))
    (by simp [forgotten.state])
  have reaped := back.wait (by simp [forgotten.state])
    (doWait_youngest (p := 4) 8
      (by simp [forgotten.current])
      (by simp [newProc, allocProc])
      (by simp [forgotten.idleproc])
      (by simp [forgotten.initproc])
      (by simp [forgotten.current]))
  refine ⟨_, _, ⟨ahead, rfl, ?_, ?_, ?_, ?_, ?_, ?_, ?_, ?_, ?_, ?_, rfl, rfl, ?_, ?_⟩, reaped⟩
  · simp [forgotten.state]
  · simp [forgotten.dead]
  · simp [forgotten.waitState]
  · simp [forgotten.pid]
  · simp [forgotten.pid']
  · simp [forgotten.parent]
  · simp [forgotten.current, forgotten.cptr, firstRemove, youngerPush]
  · simp [forgotten.count]
  · simp [forgotten.idleproc]
  · simp [forgotten.initproc]
  · simp [listDel, listAdd, listAddAfter, listAddBetween, forgotten.first]
  · simp [listDel, listAdd, listAddAfter, listAddBetween, forgotten.first,
      forgotten.second]

/-- Rounds until `last` is `2 + n`. -/
theorem Forgotten.rounds {mayKill : Machine → ℤ → Prop} (forgotten : Forgotten s 2)
    (run : WaitRun mayKill s [3, 2] h) (n : ℕ) (left : 2 + (n : ℤ) < maxPid) :
    ∃ s' h', Forgotten s' (2 + n) ∧ WaitRun mayKill s' [3, 2] h' := by
  induction n with
  | zero => exact ⟨s, h, by simpa using forgotten, run⟩
  | succ n ih =>
    obtain ⟨s₁, h₁, forgotten₁, run₁⟩ := ih (by omega)
    exact forgotten₁.round left run₁

/-- When the pids start over, the next child of `initproc` gets the pid of the zombie,
and `do_wait` for that pid goes to sleep. -/
theorem Forgotten.twice {mayKill : Machine → ℤ → Prop} (forgotten : Forgotten s (maxPid - 1))
    (run : WaitRun mayKill s [3, 2] h) :
    ∃ s' h', WaitRun mayKill s' [4, 3, 2] h' ∧ s'.state 2 = .sleeping ∧ s'.waitState 2 = wtChild ∧
      s'.parent 3 = some 2 ∧ s'.state 3 = .zombie ∧ Matches s' (h'.wants 2) 3 := by
  have chosen : getPid 9 (newProc s 4) =
      some ({ newProc s 4 with lastPid := 2, nextSafe := maxPid }, 2) := by
    have lastPid : (newProc s 4).lastPid = maxPid - 1 := forgotten.lastPid
    have first : (newProc s 4).listLinks.next .procList = .listLink 2 := forgotten.first
    have second : (newProc s 4).listLinks.next (.listLink 2) = .procList := forgotten.second
    have pid : (newProc s 4).pid 2 = 1 := by simp [forgotten.pid]
    have room : ¬ maxPid ≤ 1 + 1 := by decide
    simp only [getPid, lastPid, sub_add_cancel, le_refl, if_true, getPidLoop, first, pid, room,
      if_false,
      second, Option.bind_eq_bind, Option.bind_some]
    rfl
  have forked := run.fork (by rw [forgotten.current, forgotten.state])
    (by rintro p ⟨⟩; exact ⟨by decide, by simp [forgotten.idleproc]⟩)
    (doFork_entered (by rw [forgotten.count]; decide) (by rw [forgotten.current]; decide)
      (by rw [forgotten.current, forgotten.waitState]) chosen)
  have found : findProc 9 (entered s 4 2 2 maxPid) 2 = some (some 4) := by
    have valid : (0 : ℤ) < 2 ∧ (2 : ℤ) < maxPid := by decide
    have head : (entered s 4 2 2 maxPid).hashLinks.next (.hashList (pidHashfn 2)) = .hashLink 4 := by
      simp [listAdd, listAddAfter, listAddBetween]
    simp only [findProc, valid, and_self, if_true, findProcLoop, head, reduceCtorEq, if_false]
    simp
  have search : waitSearch 9 (entered s 4 2 2 maxPid) 2 = some (none, true) := by
    have child : (entered s 4 2 2 maxPid).parent 4 = some (entered s 4 2 2 maxPid).current := by simp
    have alive : (entered s 4 2 2 maxPid).state 4 = .runnable := by simp
    simp [waitSearch, found, child, alive, -entered]
  have waiting := forked.wait
    (by simp [forgotten.current, forgotten.state]) (doWait_blocked search)
  refine ⟨_, _, waiting, ?_, ?_, ?_, ?_, ?_⟩
  · simp [forgotten.current]
  · simp [forgotten.current]
  · simp [forgotten.parent]
  · simp [forgotten.current, forgotten.dead]
  · refine .inr ?_
    simp [forgotten.current, forgotten.pid', History.wait]

set_option maxRecDepth 20000 in
/-- `initproc` forks 3, which gets pid 2, and kills it. `do_kill` takes 3 off
`proc_list`, the list `get_pid` looks at. 3 exits and is not waited for. After
8189 other children that `initproc` forks and reaps the next one, 4, gets pid 2 as
well. `initproc` then waits for pid 2: `find_proc` finds 4, which runs, and
`initproc` sleeps although 3 is a zombie. -/
theorem killed_child_lost :
    ∃ s h, WaitRun (fun _ _ => True) s [4, 3, 2] h ∧ ¬ NoLostExit s [4, 3, 2] h := by
  have forked := waitRun_oneChild (fun _ _ => True) rfl
  have killed := @WaitRun.kill _ _ _ _ _ 9 2 _ forked rfl trivial rfl
  have switched := killed.schedule 3 (.inr (by decide)) rfl
  have exited := @WaitRun.exit _ _ _ _ _ 9 (-eKilled) switched rfl rfl
  have back := exited.schedule 2 (.inr (by decide)) rfl
  obtain ⟨s, h, forgotten, run⟩ := Forgotten.rounds
    ⟨by decide, rfl, rfl, rfl, rfl, rfl, rfl, rfl, rfl, rfl, rfl, rfl, rfl, rfl, rfl, rfl⟩ back 8189
    (by decide)
  obtain ⟨s', h', run', sleeping, waits, child, dead, matching⟩ := forgotten.twice run
  refine ⟨s', h', run', fun attended => ?_⟩
  exact attended.asleep 2 3 sleeping waits (by decide) child matching dead

end LiNos.Proc
