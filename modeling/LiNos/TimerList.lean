import LiNos.DeltaList
import LiNos.Outcome
import LiNos.Proc

/-!
The timer list (`add_timer`, `del_timer` and `run_timer_list` in sched.c).

A timer in the list carries the number of ticks between its predecessor and itself, as
an `unsigned int`. Timers and processes are arbitrary types. Of a process the timers see
its state and what it waits for; the run queue, which `wakeup_proc` puts a process into,
and the tick of the scheduling class are not part of this model.
-/

namespace LiNos.Timer

open Kernel DeltaList Function List
open Proc (ProcState wtInterrupted)

/-- The fields of `struct proc_struct` that a timer sees. -/
structure Task where
  state : ProcState
  waitState : ℕ

/-- The assertions: `expires` in `add_timer` and `run_timer_list`, the link in
`add_timer`, `wait_state` in `run_timer_list`, the state in `wakeup_proc`. -/
inductive Fault where
  | expires
  | linked
  | waitState
  | zombie
deriving DecidableEq

/-- The timer list, the fields of the timers, and the processes. A timer is linked if it
is in the list. -/
structure Timers (τ π : Type) where
  list : List τ
  expires : τ → ℕ
  proc : τ → π
  tasks : π → Task

section Model

variable {τ π : Type} [DecidableEq τ] [DecidableEq π]

/-- `timer_init`, for an `expires` that was converted to `unsigned int`. -/
def timerInit (timer : τ) (proc : π) (expires : ℕ) (s : Timers τ π) : Timers τ π :=
  { s with
    expires := update s.expires timer expires
    proc := update s.proc timer proc }

/-- The loop of `add_timer` from an entry of the list on, and the insertion where it
ends. -/
def insertLoop (timer : τ) (expires : τ → ℕ) : List τ → (τ → ℕ) × List τ
  | [] => (expires, [timer])
  | next :: rest =>
    if expires timer < expires next then
      (update expires next (expires next - expires timer), timer :: next :: rest)
    else
      let inserted := insertLoop timer
        (update expires timer (expires timer - expires next)) rest
      (inserted.1, next :: inserted.2)

/-- `add_timer`. -/
def addTimer (timer : τ) : Kernel Fault (Timers τ π) Unit := do
  let s ← get
  require (0 < s.expires timer) .expires
  require (timer ∉ s.list) .linked
  modify fun s =>
    let inserted := insertLoop timer s.expires s.list
    { s with expires := inserted.1, list := inserted.2 }

/-- `next->expires += timer->expires` in `del_timer`, if there is a next timer. -/
def addToNext (s : Timers τ π) (timer : τ) : τ → ℕ :=
  match nextOf s.list timer with
  | some next => update s.expires next ((s.expires next + s.expires timer) % 2 ^ 32)
  | none => s.expires

/-- `del_timer`. -/
def delTimer (timer : τ) : Kernel Fault (Timers τ π) Unit :=
  modify fun s =>
    if timer ∈ s.list then
      { s with
        expires := if s.expires timer ≠ 0 then addToNext s timer else s.expires
        list := s.list.erase timer }
    else s

/-- What `wakeup_proc` does to a process. -/
def Task.wake (task : Task) : Task := if task.state = .runnable then task else ⟨.runnable, 0⟩

/-- `wakeup_proc` without the run queue. -/
def wakeupProc (proc : π) : Kernel Fault (Timers τ π) Unit := do
  let s ← get
  require ((s.tasks proc).state ≠ .zombie) .zombie
  modify fun s => { s with tasks := update s.tasks proc (s.tasks proc).wake }

/-- The loop of `run_timer_list` from a timer on; the result is the list of the timers
whose processes were woken up. -/
def fireLoop : List τ → Kernel Fault (Timers τ π) (List τ)
  | [] => pure []
  | timer :: rest => do
    let s ← get
    if s.expires timer = 0 then do
      require ((s.tasks (s.proc timer)).waitState ≠ 0 →
        (s.tasks (s.proc timer)).waitState &&& wtInterrupted ≠ 0) .waitState
      wakeupProc (s.proc timer)
      delTimer timer
      let fired ← fireLoop rest
      pure (timer :: fired)
    else pure []

/-- `run_timer_list`. -/
def runTimerList : Kernel Fault (Timers τ π) (List τ) := do
  let s ← get
  match s.list with
  | [] => pure []
  | timer :: rest => do
    require (s.expires timer ≠ 0) .expires
    modify fun s => { s with expires := update s.expires timer (s.expires timer - 1) }
    fireLoop (timer :: rest)

/-- The ticks a linked timer still has to wait. -/
def remaining (s : Timers τ π) : τ → Option ℕ := due s.expires s.list

end Model

section Specs

variable {τ π : Type} [DecidableEq τ] [DecidableEq π] {s s' : Timers τ π} {t u : τ} {n : ℕ}
  {expires : τ → ℕ} {l : List τ} {time : Option ℕ}

/-! ## Putting a timer in -/

theorem insertLoop_apart (outside : u ∉ l) (other : u ≠ t) : (insertLoop t expires l).1 u =
    expires u := by
  fun_induction insertLoop t expires l with
  | case1 => rfl
  | case2 => exact update_of_ne (ne_of_not_mem_cons outside) _ _
  | case3 expires next rest _ _ ih =>
    exact (ih (not_mem_of_not_mem_cons outside)).trans (update_of_ne other _ _)

theorem insertLoop_perm : (insertLoop t expires l).2.Perm (t :: l) := by
  fun_induction insertLoop t expires l with
  | case1 => exact .refl _
  | case2 => exact .refl _
  | case3 expires next rest _ _ ih => exact (ih.cons next).trans (.swap _ _ _)

/-- The new timer gets the time it came with, and no other time changes. -/
theorem due_insertLoop (fresh : t ∉ l) (distinct : l.Nodup) (u : τ) :
    due (insertLoop t expires l).1 (insertLoop t expires l).2 u =
      if u = t then some (expires t) else due expires l u := by
  fun_induction insertLoop t expires l with
  | case1 expires =>
    by_cases same : u = t
    · simp [same]
    · simp [due_cons (Ne.symm same), same]
  | case2 expires next rest sooner =>
    obtain ⟨apart, -⟩ := nodup_cons.mp distinct
    have kept : update expires next (expires next - expires t) t = expires t :=
      update_of_ne (ne_of_not_mem_cons fresh) _ _
    dsimp only
    split_ifs with same
    · rw [same, due_head, kept]
    · rw [due_cons (Ne.symm same), kept]
      by_cases first : next = u
      · rw [first, due_head, due_head, update_self, Option.map_some, Nat.add_sub_of_le (first ▸ sooner.le)]
      · rw [due_cons first, due_cons first, due_update apart, update_self, Option.map_map]
        congr 1
        funext m
        simp only [comp_apply]
        omega
  | case3 expires next rest sooner inserted ih =>
    obtain ⟨apart, distinctTail⟩ := nodup_cons.mp distinct
    obtain ⟨other, fresh⟩ := not_or.mp (mt mem_cons.mpr fresh)
    have kept : inserted.1 next = expires next :=
      (insertLoop_apart apart (Ne.symm other)).trans (update_of_ne (Ne.symm other) _ _)
    by_cases first : next = u
    · subst first
      rw [due_head, due_head, if_neg (Ne.symm other), kept]
    · rw [due_cons first, due_cons first, kept, ih fresh distinctTail, update_self]
      split_ifs with same
      · rw [Option.map_some, Nat.add_sub_of_le (not_lt.mp sooner)]
      · rw [due_update fresh]

/-! ## The invariant -/

/-- The timers of the list are distinct, each has to wait for at least one tick, and the
times are those of an `unsigned int`. -/
structure Ordered (s : Timers τ π) : Prop where
  distinct : s.list.Nodup
  positive : ∀ t n, remaining s t = some n → 0 < n
  small : ∀ t n, remaining s t = some n → n < 2 ^ 32

/-- A timer outside the list keeps its field; one that was taken out has not got a larger
one. -/
def Spared (s s' : Timers τ π) : Prop :=
  ∀ u ∉ s'.list, s'.expires u ≤ s.expires u ∧ (u ∉ s.list → s'.expires u = s.expires u)

omit [DecidableEq π] in
theorem Ordered.of_update (ordered : Ordered s) (distinct : s'.list.Nodup)
    (fits : ∀ n, time = some n → 0 < n ∧ n < 2 ^ 32)
    (changed : remaining s' = update (remaining s) t time) : Ordered s' := by
  have bounds : ∀ u n, remaining s' u = some n → 0 < n ∧ n < 2 ^ 32 := by
    intro u n found
    rw [changed] at found
    by_cases same : u = t
    · rw [same, update_self] at found
      exact fits n found
    · rw [update_of_ne same] at found
      exact ⟨ordered.positive u n found, ordered.small u n found⟩
  exact ⟨distinct, fun u n found => (bounds u n found).1, fun u n found => (bounds u n found).2⟩

omit [DecidableEq π] in
theorem addTimer_run (ordered : Ordered s) (positive : 0 < s.expires t) (small : s.expires t < 2 ^ 32)
    (unlinked : t ∉ s.list) :
    ∃ s', addTimer t s = .ok () s' ∧ Ordered s' ∧
      remaining s' = update (remaining s) t (some (s.expires t)) ∧ Spared s s' := by
  have changed : due (insertLoop t s.expires s.list).1 (insertLoop t s.expires s.list).2 =
      update (remaining s) t (some (s.expires t)) := by
    funext u
    rw [due_insertLoop unlinked ordered.distinct, update_apply]
    rfl
  have distinct : (insertLoop t s.expires s.list).2.Nodup :=
    insertLoop_perm.nodup_iff.mpr (nodup_cons.mpr ⟨unlinked, ordered.distinct⟩)
  refine ⟨{ s with expires := (insertLoop t s.expires s.list).1, list :=
    (insertLoop t s.expires s.list).2 },
    ?_, ordered.of_update distinct ?_ changed, changed, ?_⟩
  · rw [addTimer, get_bind_run, require_bind_run positive, require_bind_run unlinked]
    rfl
  · intro n same
    cases same
    exact ⟨positive, small⟩
  · intro u outside
    rw [insertLoop_perm.mem_iff, mem_cons, not_or] at outside
    have kept : (insertLoop t s.expires s.list).1 u = s.expires u :=
      insertLoop_apart outside.2 outside.1
    exact ⟨kept.le, fun _ => kept⟩

omit [DecidableEq π] in
/-- The sum of two neighbours does not wrap around: it is a time of the list. -/
theorem Ordered.addToNext_eq (ordered : Ordered s) (linked : t ∈ s.list) :
    addToNext s t = giveOn s.expires s.list t := by
  unfold addToNext giveOn
  cases next : nextOf s.list t with
  | none => rfl
  | some u =>
    have sum : ∃ n, remaining s u = some n ∧ s.expires u + s.expires t ≤ n :=
      due_nextOf ordered.distinct next linked
    obtain ⟨n, found, below⟩ := sum
    have bound := ordered.small u n found
    dsimp only
    rw [Nat.mod_eq_of_lt (by omega)]

omit [DecidableEq π] in
theorem delTimer_run (ordered : Ordered s) (t : τ) :
    ∃ s', delTimer t s = .ok () s' ∧ Ordered s' ∧ remaining s' = update (remaining s) t none ∧
      Spared s s' := by
  by_cases linked : t ∈ s.list
  · have field : (if s.expires t ≠ 0 then addToNext s t else s.expires) =
        giveOn s.expires s.list t := by
      split_ifs with nonzero
      · rw [ordered.addToNext_eq linked]
      · rw [giveOn_zero (not_ne_iff.mp nonzero)]
    let s' : Timers τ π := { s with
      expires := giveOn s.expires s.list t
      list := s.list.erase t }
    have changed : remaining s' = update (remaining s) t none := by
      funext u
      rw [remaining, due_giveOn ordered.distinct, update_apply]
      rfl
    refine ⟨s', ?_, ordered.of_update (ordered.distinct.erase t) (by simp) changed, changed, ?_⟩
    · rw [delTimer, modify_run, if_pos linked, field]
    · intro u outside
      have kept : s'.expires u = s.expires u := by
        by_cases it : u = t
        · exact it ▸ giveOn_self ordered.distinct
        · exact giveOn_apart fun member => outside ((mem_erase_of_ne it).mpr member)
      exact ⟨kept.le, fun _ => kept⟩
  · refine ⟨s, ?_, ordered, ?_, fun _ _ => ⟨le_rfl, fun _ => rfl⟩⟩
    · rw [delTimer, modify_run, if_neg linked]
    · have absent : remaining s t = none := due_eq_none.mpr linked
      rw [← absent, update_eq_self]

/-! ## A tick -/

/-- A process that a timer cannot wake up: it is a zombie, or it waits for something that
is not to be interrupted. -/
def Task.Stuck (task : Task) : Prop :=
  task.state = .zombie ∨ task.waitState ≠ 0 ∧ task.waitState &&& wtInterrupted = 0

theorem Task.wake_state (task : Task) : task.wake.state = .runnable := by
  unfold wake
  split
  · assumption
  · rfl

theorem Task.wake_stuck {task : Task} (fine : ¬ task.Stuck) : ¬ task.wake.Stuck := by
  unfold wake
  split
  · exact fine
  · simp [Stuck]

/-- The timers that are due: the first ones whose difference is 0. -/
def dueTimers (s : Timers τ π) : List τ := s.list.takeWhile fun t => decide (s.expires t = 0)

/-- The loop has woken up the processes of all timers that are due. -/
structure Fired (s s' : Timers τ π) : Prop where
  list : s'.list = s.list.dropWhile fun t => decide (s.expires t = 0)
  expires : s'.expires = s.expires
  proc : s'.proc = s.proc
  fine : ∀ t ∈ dueTimers s, ¬ (s.tasks (s.proc t)).Stuck
  woken : ∀ t ∈ dueTimers s, (s'.tasks (s.proc t)).state = .runnable
  others : ∀ p, (∀ t ∈ dueTimers s, s.proc t ≠ p) → s'.tasks p = s.tasks p

theorem fireLoop_cases (distinct : s.list.Nodup) :
    (∃ s', fireLoop s.list s = .ok (dueTimers s) s' ∧ Fired s s') ∨
      (∃ t ∈ dueTimers s, (s.tasks (s.proc t)).Stuck) ∧
        ∃ reason, reason ≠ .expires ∧ fireLoop s.list s = .fault reason := by
  -- the loop takes the first timer out of the list, so the induction is on the list
  obtain ⟨list, expires, proc, tasks⟩ := s
  induction list generalizing tasks with
  | nil => exact .inl ⟨_, rfl, rfl, rfl, rfl, by simp [dueTimers], by simp [dueTimers], fun _ _ => rfl⟩
  | cons t rest ih =>
    by_cases zero : expires t = 0
    · let woken := update tasks (proc t) (tasks (proc t)).wake
      have dueNow : dueTimers ⟨t :: rest, expires, proc, tasks⟩ =
          t :: dueTimers ⟨rest, expires, proc, woken⟩ := takeWhile_cons_of_pos (by simpa using zero)
      rw [dueNow]
      by_cases stuck : (tasks (proc t)).Stuck
      · refine .inr ⟨⟨t, mem_cons_self, stuck⟩, ?_⟩
        rw [fireLoop, get_bind_run, if_pos zero]
        by_cases waits : (tasks (proc t)).waitState ≠ 0 → (tasks (proc t)).waitState &&& wtInterrupted ≠ 0
        · have dead : (tasks (proc t)).state = .zombie :=
            stuck.resolve_right fun bad => waits bad.1 bad.2
          have stopped : wakeupProc (proc t) ⟨t :: rest, expires, proc, tasks⟩ = .fault .zombie := by
            rw [wakeupProc, get_bind_run, require_bind_fault (not_not.mpr dead)]
          exact ⟨.zombie, by decide, by rw [require_bind_run waits, bind_fault stopped]⟩
        · exact ⟨.waitState, by decide, require_bind_fault waits _ _ _⟩
      · obtain ⟨alive, waits⟩ := not_or.mp stuck
        have start : fireLoop (t :: rest) ⟨t :: rest, expires, proc, tasks⟩ = (do
            let fired ← fireLoop rest
            pure (t :: fired) : Kernel Fault (Timers τ π) (List τ)) ⟨rest, expires, proc, woken⟩ := by
          have woke : wakeupProc (proc t) ⟨t :: rest, expires, proc, tasks⟩ =
              .ok () ⟨t :: rest, expires, proc, woken⟩ := by
            rw [wakeupProc, get_bind_run, require_bind_run alive]
            rfl
          have gone : delTimer t ⟨t :: rest, expires, proc, woken⟩ =
              .ok () ⟨rest, expires, proc, woken⟩ := by
            rw [delTimer, modify_run]
            simp [zero]
          rw [fireLoop, get_bind_run, if_pos zero,
            require_bind_run (not_and.mp waits), bind_ok woke, bind_ok gone]
        have stuckIff : ∀ v, (woken (proc v)).Stuck ↔ (tasks (proc v)).Stuck := by
          intro v
          simp only [woken, update_apply]
          split_ifs with same
          · rw [same]
            exact iff_of_false (Task.wake_stuck stuck) stuck
          · rfl
        rcases ih woken (nodup_cons.mp distinct).2 with
          ⟨s', ran, fired⟩ | ⟨⟨v, member, bad⟩, reason, other, ran⟩
        · refine .inl ⟨s', by rw [start, bind_ok ran]; rfl, ?_, fired.expires, fired.proc, ?_, ?_, ?_⟩
          · rw [fired.list]
            exact (dropWhile_cons_of_pos (by simpa using zero)).symm
          · rw [dueNow]
            exact forall_mem_cons.mpr ⟨stuck, fun v later => mt (stuckIff v).mpr (fired.fine v later)⟩
          · rw [dueNow]
            refine forall_mem_cons.mpr ⟨?_, fired.woken⟩
            by_cases again : ∃ w ∈ dueTimers ⟨rest, expires, proc, woken⟩, proc w = proc t
            · obtain ⟨w, later, same⟩ := again
              exact (congrArg (fun p => (s'.tasks p).state) same).symm.trans (fired.woken w later)
            · rw [fired.others (proc t) fun w later same => again ⟨w, later, same⟩]
              simp [woken, Task.wake_state]
          · rw [dueNow]
            intro p noneDue
            obtain ⟨first, noneDue⟩ := forall_mem_cons.mp noneDue
            rw [fired.others p noneDue]
            exact update_of_ne (Ne.symm first) _ _
        · exact .inr ⟨⟨v, mem_cons_of_mem _ member, (stuckIff v).mp bad⟩, reason, other,
            by rw [start, bind_fault ran]⟩
    · have noneDue : dueTimers ⟨t :: rest, expires, proc, tasks⟩ = [] :=
        takeWhile_cons_of_neg (by simpa using zero)
      refine .inl ⟨_, ?_, (dropWhile_cons_of_neg (by simpa using zero)).symm, rfl, rfl,
        by simp [noneDue], by simp [noneDue], fun _ _ => rfl⟩
      rw [fireLoop, get_bind_run, if_neg zero, noneDue]
      rfl

/-- What a tick does: every time is one less, and the timers whose time is over are taken
out and their processes woken up. -/
structure Ticked (s s' : Timers τ π) (fired : List τ) : Prop where
  ordered : Ordered s'
  mem_fired : ∀ t, t ∈ fired ↔ remaining s t = some 1
  once : fired.Nodup
  later : ∀ t, remaining s' t = if remaining s t = some 1 then none else (remaining s t).map (· - 1)
  spared : Spared s s'
  proc : s'.proc = s.proc
  woken : ∀ t ∈ fired, (s'.tasks (s.proc t)).state = .runnable
  others : ∀ p, (∀ t ∈ fired, s.proc t ≠ p) → s'.tasks p = s.tasks p

/-- A tick does that, unless the process of a timer whose time is over cannot be woken
up. -/
theorem runTimerList_cases (ordered : Ordered s) :
    (∃ s' fired, runTimerList s = .ok fired s' ∧ Ticked s s' fired ∧
      ∀ t ∈ fired, ¬ (s.tasks (s.proc t)).Stuck) ∨
      (∃ t, remaining s t = some 1 ∧ (s.tasks (s.proc t)).Stuck) ∧
        ∃ reason, reason ≠ .expires ∧ runTimerList s = .fault reason := by
  have distinct : s.list.Nodup := ordered.distinct
  obtain ⟨list, expires, proc, tasks⟩ := s
  cases list with
  | nil =>
    have noneDue : ∀ t, remaining ⟨[], expires, proc, tasks⟩ t = none := due_nil
    exact .inl ⟨_, [], rfl, ⟨ordered, by simp [noneDue], nodup_nil, by simp [noneDue],
      fun _ _ => ⟨le_rfl, fun _ => rfl⟩, rfl, by simp, fun _ _ => rfl⟩, by simp⟩
  | cons h rest =>
    set s : Timers τ π := ⟨h :: rest, expires, proc, tasks⟩
    let u : Timers τ π := { s with expires := update expires h (expires h - 1) }
    have positive := ordered.positive h _ (due_head ..)
    have less : ∀ t, remaining u t = (remaining s t).map (· - 1) := by
      intro t
      rw [remaining, due_pred t (nodup_cons.mp distinct).1, if_pos positive]
      rfl
    -- in terms of the times before the tick
    have one : ∀ t, remaining u t = some 0 ↔ remaining s t = some 1 := by
      intro t
      rw [less]
      cases time : remaining s t with
      | none => simp
      | some n =>
        have bound := ordered.positive t n time
        simp only [Option.map_some, Option.some.injEq]
        omega
    have beyond : ∀ t, t ∈ dueTimers u ↔ remaining s t = some 1 :=
      fun t => (mem_takeWhile_zero distinct).trans (one t)
    have start : runTimerList s = fireLoop u.list u := by
      rw [runTimerList, get_bind_run]
      dsimp only [s]
      rw [require_bind_run positive.ne', modify_bind_run]
    rcases fireLoop_cases (s := u) distinct with
      ⟨s', ran, fired⟩ | ⟨⟨t, member, bad⟩, reason, other, ran⟩
    · have after : ∀ t, remaining s' t =
          if remaining s t = some 1 then none else (remaining s t).map (· - 1) := by
        intro t
        rw [remaining, fired.expires, fired.list, due_dropWhile_zero distinct, ← less]
        exact if_congr (one t) rfl rfl
      have bounds : ∀ t n, remaining s' t = some n → 0 < n ∧ n < 2 ^ 32 := by
        intro t n found
        rw [after] at found
        split_ifs at found with more
        obtain ⟨m, time, rfl⟩ := Option.map_eq_some_iff.mp found
        have lower := ordered.positive t m time
        have upper := ordered.small t m time
        have other : m ≠ 1 := fun same => more (same ▸ time)
        omega
      have distinct' : s'.list.Nodup := fired.list ▸ distinct.sublist (dropWhile_sublist _)
      refine .inl ⟨s', dueTimers u, by rw [start, ran],
        ⟨⟨distinct', fun t n found => (bounds t n found).1, fun t n found => (bounds t n found).2⟩,
          beyond, distinct.sublist (takeWhile_sublist _), after, fun t _ => ?_, fired.proc,
          fired.woken, fired.others⟩, fired.fine⟩
      rw [fired.expires]
      by_cases same : t = h
      · subst same
        exact ⟨(update_self ..).le.trans (Nat.sub_le _ _), fun outside => absurd mem_cons_self outside⟩
      · have kept : u.expires t = s.expires t := update_of_ne same _ _
        exact ⟨kept.le, fun _ => kept⟩
    · exact .inr ⟨⟨t, (beyond t).mp member, bad⟩, reason, other, by rw [start, ran]⟩

/-! ## Runs -/

/-- The calls, and anything that happens to the processes between them. -/
inductive Event (τ π : Type) where
  | init (timer : τ) (proc : π) (expires : ℕ)
  | add (timer : τ)
  | del (timer : τ)
  | tick
  | others (tasks : π → Task)

/-- A timer is initialised and added only while it is not linked, and added with a time
to wait. -/
def Event.Allowed (s : Timers τ π) : Event τ π → Prop
  | .init t _ e => t ∉ s.list ∧ e < 2 ^ 32
  | .add t => 0 < s.expires t ∧ t ∉ s.list
  | _ => True

/-- The call is about this timer. -/
def Event.Names (t : τ) : Event τ π → Prop
  | .init u _ _ => u = t
  | .add u => u = t
  | .del u => u = t
  | _ => False

/-- The result lists, for a tick, the timers that fired. -/
def step : Event τ π → Kernel Fault (Timers τ π) (List (List τ))
  | .init t p e => do
    modify (timerInit t p e)
    pure []
  | .add t => do
    addTimer t
    pure []
  | .del t => do
    delTimer t
    pure []
  | .tick => do
    let fired ← runTimerList
    pure [fired]
  | .others tasks => do
    modify fun s => { s with tasks := tasks }
    pure []

/-- The states that a sequence of allowed calls leads to. -/
inductive Run : Timers τ π → Prop
  | start (expires : τ → ℕ) (proc : τ → π) (tasks : π → Task) (words : ∀ t, expires t < 2 ^ 32) :
    Run ⟨[], expires, proc, tasks⟩
  | step {s s' : Timers τ π} {e : Event τ π} {fired : List (List τ)} (run : Run s)
    (allowed : e.Allowed s)
    (ran : step e s = .ok fired s') : Run s'

/-- Calls that are not about the timer `t`; the list gives the timers that fired, tick by
tick. -/
inductive Quiet (t : τ) : Timers τ π → List (List τ) → Timers τ π → Prop
  | done (s : Timers τ π) : Quiet t s [] s
  | step {s s' s'' : Timers τ π} {e : Event τ π} {fired later : List (List τ)} (allowed : e.Allowed s)
    (apart : ¬ e.Names t) (ran : step e s = .ok fired s') (rest : Quiet t s' later s'') :
    Quiet t s (fired ++ later) s''

/-- The invariant of runs. -/
structure Valid (s : Timers τ π) : Prop extends Ordered s where
  words : ∀ t, s.expires t < 2 ^ 32

omit [DecidableEq π] in
theorem Valid.next (valid : Valid s) (ordered : Ordered s') (spared : Spared s s') : Valid s' := by
  refine ⟨ordered, fun u => ?_⟩
  cases time : remaining s' u with
  | none => exact (spared u (due_eq_none.mp time)).1.trans_lt (valid.words u)
  | some n => exact (le_due_self time).trans_lt (ordered.small u n time)

/-- What a step does to a timer that it is not about: a tick counts, nothing else does. -/
structure Counts (s s' : Timers τ π) (t : τ) (fired : List (List τ)) : Prop where
  field : t ∉ s.list → t ∉ s'.list ∧ s'.expires t = s.expires t
  times : ∀ i, remaining s' t = some (i + 1) ↔ remaining s t = some (i + 1 + fired.length)
  fires : ∀ i list, fired[i]? = some list → (t ∈ list ↔ remaining s t = some (i + 1))

omit [DecidableEq π] in
theorem Counts.of_same (field : t ∉ s.list → s'.expires t = s.expires t)
    (same : remaining s' t = remaining s t) : Counts s s' t [] := by
  refine ⟨fun outside => ⟨?_, field outside⟩, fun i => by rw [same]; rfl, fun i list never => ?_⟩
  · exact due_eq_none.mp (same.trans (due_eq_none.mpr outside))
  · cases never

omit [DecidableEq π] in
theorem Counts.of_update (times : remaining s' = update (remaining s) u time)
    (spared : Spared s s') (apart : u ≠ t) : Counts s s' t [] := by
  have same : remaining s' t = remaining s t := by
    rw [times, update_of_ne (Ne.symm apart)]
  refine Counts.of_same (fun outside => (spared t ?_).2 outside) same
  exact due_eq_none.mp (same.trans (due_eq_none.mpr outside))

omit [DecidableEq π] in
theorem Ticked.counts {fired : List τ} (ordered : Ordered s) (ticked : Ticked s s' fired) (t : τ) :
    Counts s s' t [fired] := by
  refine ⟨?_, ?_, ?_⟩
  · intro outside
    have absent : remaining s t = none := due_eq_none.mpr outside
    have still : t ∉ s'.list := due_eq_none.mp ((ticked.later t).trans (by simp [absent]))
    exact ⟨still, (ticked.spared t still).2 outside⟩
  · intro i
    rw [ticked.later]
    cases time : remaining s t with
    | none => simp
    | some n =>
      have positive := ordered.positive t n time
      simp only [Option.some.injEq, length_singleton]
      split_ifs with one
      · simp [one]
      · rw [Option.map_some, Option.some.injEq]
        omega
  · rintro (_ | i) list ⟨⟩
    exact ticked.mem_fired t

theorem step_valid {e : Event τ π} {fired : List (List τ)} (valid : Valid s) (allowed : e.Allowed s)
    (ran : step e s = .ok fired s') : Valid s' ∧ ∀ t, ¬ e.Names t → Counts s s' t fired := by
  cases e with
  | init u p time =>
    cases ran
    have same : ∀ t, remaining (timerInit u p time s) t = remaining s t := due_update allowed.1
    refine ⟨⟨⟨valid.distinct, ?_, ?_⟩, ?_⟩, ?_⟩
    · simpa only [same] using valid.positive
    · simpa only [same] using valid.small
    · intro t
      simp only [timerInit, update_apply]
      split
      · exact allowed.2
      · exact valid.words t
    · intro t apart
      exact Counts.of_same (fun _ => update_of_ne (Ne.symm apart) _ _) (same t)
  | add u =>
    obtain ⟨s1, added, ordered, times, spared⟩ :=
      addTimer_run valid.toOrdered allowed.1 (valid.words u) allowed.2
    cases (bind_ok added).symm.trans ran
    exact ⟨valid.next ordered spared, fun t apart => Counts.of_update times spared apart⟩
  | del u =>
    obtain ⟨s1, deleted, ordered, times, spared⟩ := delTimer_run valid.toOrdered u
    cases (bind_ok deleted).symm.trans ran
    exact ⟨valid.next ordered spared, fun t apart => Counts.of_update times spared apart⟩
  | tick =>
    rcases runTimerList_cases valid.toOrdered with ⟨s1, dueNow, ticked, after, -⟩ |
      ⟨-, reason, -, stopped⟩
    · cases (bind_ok ticked).symm.trans ran
      exact ⟨valid.next after.ordered after.spared, fun t _ => after.counts valid.toOrdered t⟩
    · cases (bind_fault stopped).symm.trans ran
  | others tasks =>
    cases ran
    exact ⟨⟨{ valid with }, valid.words⟩, fun t _ => Counts.of_same (fun _ => rfl) rfl⟩

theorem Run.valid (run : Run s) : Valid s := by
  induction run with
  | start expires proc tasks words =>
    exact ⟨⟨nodup_nil, by simp [remaining], by simp [remaining]⟩, words⟩
  | step _ allowed ran ih => exact (step_valid ih allowed ran).1

/-- Steps compose to what a single step does. -/
theorem Quiet.counts {fs : List (List τ)} (quiet : Quiet t s fs s') (valid : Valid s) :
    Valid s' ∧ Counts s s' t fs := by
  induction quiet with
  | done s => exact ⟨valid, Counts.of_same (fun _ => rfl) rfl⟩
  | @step s s1 s2 e fired later allowed apart ran rest ih =>
    obtain ⟨validNext, one⟩ := step_valid valid allowed ran
    have first := one t apart
    obtain ⟨valid', thereafter⟩ := ih validNext
    refine ⟨valid', ?_, ?_, ?_⟩
    · intro outside
      obtain ⟨out1, field1⟩ := first.field outside
      obtain ⟨out2, field2⟩ := thereafter.field out1
      exact ⟨out2, field2.trans field1⟩
    · intro i
      rw [thereafter.times, add_right_comm, first.times, length_append, add_right_comm i,
        add_right_comm, add_assoc]
    · intro i list found
      by_cases early : i < fired.length
      · rw [getElem?_append_left early] at found
        exact first.fires i list found
      · rw [getElem?_append_right (not_lt.mp early)] at found
        rw [thereafter.fires _ list found, first.times, add_right_comm, Nat.sub_add_cancel (not_lt.mp early)]

/-- The timers of a state keep their times. -/
structure Timely (s : Timers τ π) : Prop where
  add : ∀ t, 0 < s.expires t → t ∉ s.list → ∃ s', addTimer t s = .ok () s' ∧
    remaining s' = update (remaining s) t (some (s.expires t))
  del : ∀ t, ∃ s', delTimer t s = .ok () s' ∧ remaining s' = update (remaining s) t none
  tick : ∀ fired s', runTimerList s = .ok fired s' → Ticked s s' fired
  /-- A tick returns if the processes to be woken up can be woken up. -/
  returns : (∀ t, remaining s t = some 1 → ¬ (s.tasks (s.proc t)).Stuck) →
    ∃ fired s', runTimerList s = .ok fired s'
  asserts : runTimerList s ≠ .fault .expires
  /-- A timer that was created with a time and added fires at that tick and at no other. -/
  fires : ∀ t proc time, t ∉ s.list → 0 < time → time < 2 ^ 32 → ∀ before s1,
    Quiet t (timerInit t proc time s) before s1 → ∃ s2, addTimer t s1 = .ok () s2 ∧
      remaining s2 t = some time ∧ ∀ ticks s3, Quiet t s2 ticks s3 →
        ∀ i fired, ticks[i]? = some fired → (t ∈ fired ↔ i + 1 = time)

/-- In every run, adding and deleting a timer change no other timer's time, a tick takes
one off every time and fires exactly the timers that are due, and every timer fires at the
tick it was created for. -/
theorem timers_fire_on_time (run : Run s) : Timely s := by
  have valid := run.valid
  have tick := runTimerList_cases valid.toOrdered
  refine ⟨?_, ?_, ?_, ?_, ?_, ?_⟩
  · intro t positive unlinked
    obtain ⟨s', added, -, times, -⟩ := addTimer_run valid.toOrdered positive (valid.words t) unlinked
    exact ⟨s', added, times⟩
  · intro t
    obtain ⟨s', deleted, -, times, -⟩ := delTimer_run valid.toOrdered t
    exact ⟨s', deleted, times⟩
  · intro fired s' ran
    rcases tick with ⟨s1, dueNow, ticked, after, -⟩ | ⟨-, reason, -, stopped⟩
    · cases ticked.symm.trans ran
      exact after
    · cases stopped.symm.trans ran
  · intro fine
    rcases tick with ⟨s1, dueNow, ticked, -, -⟩ | ⟨⟨t, beyond, stuck⟩, -⟩
    · exact ⟨dueNow, s1, ticked⟩
    · exact absurd stuck (fine t beyond)
  · intro stopped
    rcases tick with ⟨s1, dueNow, ticked, -, -⟩ | ⟨-, reason, other, ran⟩
    · cases ticked.symm.trans stopped
    · cases ran.symm.trans stopped
      exact other rfl
  · intro t proc time unlinked positive word before s1 quiet
    have created : Valid (timerInit t proc time s) :=
      (step_valid (e := .init t proc time) valid ⟨unlinked, word⟩ rfl).1
    obtain ⟨valid1, waited⟩ := quiet.counts created
    obtain ⟨unlinked1, field⟩ := waited.field unlinked
    have fieldIs : s1.expires t = time := field.trans (update_self _ _ _)
    obtain ⟨s2, added, ordered, times, spared⟩ :=
      addTimer_run valid1.toOrdered (by omega) (valid1.words t) unlinked1
    have timeLeft : remaining s2 t = some time := by
      rw [times, update_self, fieldIs]
    refine ⟨s2, added, timeLeft, ?_⟩
    intro ticks s3 rest i fired found
    rw [(rest.counts (valid1.next ordered spared)).2.fires i fired found, timeLeft, Option.some.injEq]
    exact eq_comm

/-- A timer of one tick put before a timer of three. -/
theorem timers_fire_on_time_two : ∃ s : Timers ℕ ℕ,
    s.list = [1, 0] ∧ remaining s 1 = some 1 ∧ remaining s 0 = some 3 ∧ Timely s := by
  have first := Run.step (e := .add 0)
    (Run.start (fun _ => 3) id (fun _ => ⟨.sleeping, 0x80000002⟩) (fun _ => by decide))
    ⟨by decide, by decide⟩ rfl
  have second := Run.step (e := .init 1 1 1) first ⟨by decide, by decide⟩ rfl
  have third := Run.step (e := .add 1) second ⟨by decide, by decide⟩ rfl
  exact ⟨_, rfl, rfl, rfl, timers_fire_on_time third⟩

end Specs

end LiNos.Timer
