import Mathlib.Tactic.Common
import LiNos.Sched

/-!
Who is in the run queue.

`Roster` says it without a word on the container: the queue holds the processes
that can run, apart from the one that does. What each event does to the roster is
the same for all classes; `ListQueue` adds what the list-based classes keep in
memory, and `Reachable.listQueue` joins the two over whole runs.
-/

namespace LiNos.Sched

open CircularList SkewHeap List
open Proc (ProcState)

variable {c : SchedClass} {m m' : Machine} {w w' : World} {known queue : List ℕ} {p q fuel : ℕ}

/-! ## The roster -/

/-- `queue` are the processes that can run and do not. -/
structure Roster (m : Machine) (known queue : List ℕ) : Prop where
  idle : m.idleproc ∉ known
  current : m.current = m.idleproc ∨ m.current ∈ known
  exact : ∀ p, p ∈ queue ↔ p ∈ known ∧ m.state p = .runnable ∧ p ≠ m.current

namespace Roster

section

variable (roster : Roster m known queue)

include roster

theorem congr (state : m'.state = m.state)
    (current : m'.current = m.current) (idle : m'.idleproc = m.idleproc) :
    Roster m' known queue := by
  constructor
  · rw [idle]
    exact roster.idle
  · rw [idle, current]
    exact roster.current
  · rw [state, current]
    exact roster.exact

theorem current_notMem : m.current ∉ queue :=
  fun member => ((roster.exact _).mp member).2.2 rfl

theorem idle_notMem : m.idleproc ∉ queue :=
  fun member => roster.idle ((roster.exact _).mp member).1

theorem perm {xs : List ℕ} (same : xs.Perm queue) : Roster m known xs :=
  { roster with exact := fun p => same.mem_iff.trans (roster.exact p) }

/-- A fresh structure is a process that does not run yet. -/
theorem alloc (fresh : p ∉ known) (notIdle : p ≠ m.idleproc) :
    Roster (allocProc m p) (p :: known) queue := by
  constructor
  · exact not_mem_cons_of_ne_of_not_mem notIdle.symm roster.idle
  · exact roster.current.imp_right (mem_cons_of_mem p)
  · intro q
    rw [roster.exact]
    by_cases same : q = p
    · subst same
      simp [allocProc, fresh]
    · simp [allocProc, same]

/-- A process that is woken while another runs enters the queue. -/
theorem wake (member : p ∈ known) (other : p ≠ m.current)
    (state : m'.state = Function.update m.state p .runnable)
    (current : m'.current = m.current) (idle : m'.idleproc = m.idleproc) :
    Roster m' known (p :: queue) := by
  constructor
  · rw [idle]
    exact roster.idle
  · rw [idle, current]
    exact roster.current
  · intro q
    rw [state, current, mem_cons, roster.exact]
    by_cases same : q = p
    · subst same
      simp [other, member]
    · simp [same]

/-- The state of the process that runs, and that of `idleproc`, are not what the
queue depends on. -/
theorem restate {new : ProcState} (apart : p = m.current ∨ p = m.idleproc)
    (state : m'.state = Function.update m.state p new)
    (current : m'.current = m.current) (idle : m'.idleproc = m.idleproc) :
    Roster m' known queue := by
  constructor
  · rw [idle]
    exact roster.idle
  · rw [idle, current]
    exact roster.current
  · intro q
    rw [state, current, roster.exact]
    by_cases same : q = p
    · subst same
      rcases apart with rfl | rfl
      · simp
      · simp [roster.idle]
    · simp [same]

theorem reap (dead : m.state p = .zombie) (other : p ≠ m.current) :
    Roster m (known.filter (· ≠ p)) queue := by
  constructor
  · exact fun member => roster.idle (mem_filter.mp member).1
  · refine roster.current.imp_right fun member => mem_filter.mpr ⟨member, ?_⟩
    simpa using other.symm
  · intro q
    rw [roster.exact, mem_filter]
    by_cases same : q = p
    · subst same
      simp [dead]
    · simp [same]

/-- The processes `schedule` chooses from: those of the queue and the current one,
if it is queued again. -/
def candidates (m : Machine) (queue : List ℕ) : List ℕ :=
  if m.state m.current = .runnable ∧ m.current ≠ m.idleproc then m.current :: queue else queue

theorem candidates_iff :
    p ∈ candidates m queue ↔ p ∈ known ∧ m.state p = .runnable := by
  unfold candidates
  by_cases same : p = m.current
  · subst same
    split
    · rename_i queued
      simp [queued.1, roster.current.resolve_left queued.2]
    · rename_i alone
      rw [roster.exact]
      have inside : m.current ∈ known → m.current ≠ m.idleproc :=
        fun member same => roster.idle (same ▸ member)
      tauto
  · split <;> simp [roster.exact, same]

theorem candidates_nodup (distinct : queue.Nodup) :
    (candidates m queue).Nodup := by
  unfold candidates
  split
  · exact nodup_cons.mpr ⟨roster.current_notMem, distinct⟩
  · exact distinct

/-- Whoever runs next leaves the candidates and the others stay; without
candidates it is `idleproc`. -/
theorem switch {left : List ℕ} (distinct : queue.Nodup)
    (next : m'.current ∈ candidates m queue ∨ m'.current = m.idleproc)
    (rest : left.Perm ((candidates m queue).erase m'.current)) (state : m'.state = m.state)
    (idle : m'.idleproc = m.idleproc) : Roster m' known left := by
  constructor
  · rw [idle]
    exact roster.idle
  · rw [idle]
    rcases next with member | isIdle
    · exact .inr (roster.candidates_iff.mp member).1
    · exact .inl isIdle
  · intro q
    rw [rest.mem_iff, (roster.candidates_nodup distinct).mem_erase_iff, roster.candidates_iff, state]
    tauto

end

end Roster

/-! ## The list -/

/-- `run_list` holds `queue`, in order; the `run_link` of every other process is
empty. -/
structure ListQueue (m : Machine) (procs queue : List ℕ) : Prop where
  ring : Ring m.runLinks .runList (queue.map .runLink)
  count : m.procNum = queue.length
  onRq : ∀ p ∈ queue, m.rq p = true
  unlinked : ∀ p ∈ procs, p ∉ queue → m.runLinks.next (.runLink p) = .runLink p

namespace ListQueue

variable {procs xs ys : List ℕ}

theorem congr (kept : ListQueue m procs queue) (links : m'.runLinks = m.runLinks)
    (count : m'.procNum = m.procNum) (rq : m'.rq = m.rq) : ListQueue m' procs queue := by
  constructor
  · rw [links]
    exact kept.ring
  · rw [count]
    exact kept.count
  · rw [rq]
    exact kept.onRq
  · rw [links]
    exact kept.unlinked

theorem nodup (kept : ListQueue m procs queue) : queue.Nodup :=
  List.Nodup.of_map RunEntry.runLink kept.ring.nodup

theorem mono (kept : ListQueue m procs queue) (fewer : xs ⊆ procs) : ListQueue m xs queue :=
  { kept with unlinked := fun p member => kept.unlinked p (fewer member) }

private theorem link_mem : RunEntry.runLink p ∈ RunEntry.runList :: queue.map .runLink ↔ p ∈ queue := by
  simp

theorem enqueue (kept : ListQueue m procs queue) (fresh : p ∉ queue)
    (empty : m.runLinks.next (.runLink p) = .runLink p) :
    ∃ m', listEnqueue m p = some m' ∧ ListQueue m' procs (queue ++ [p]) ∧
      m' = enroll { m with runLinks := listAddBefore m.runLinks .runList (.runLink p) } p := by
  refine ⟨_, by simp [listEnqueue, listEmpty, empty], ⟨?_, ?_, ?_, ?_⟩, rfl⟩
  · rw [map_append]
    exact ring_listAddBefore_head kept.ring (by rwa [link_mem])
  · simp [enroll, kept.count]
  · intro q queued
    by_cases same : q = p
    · simp [enroll, same]
    · have before : q ∈ queue := by simpa [same] using queued
      simp [enroll, same, kept.onRq q before]
  · intro q inside apart
    rw [mem_append, mem_singleton, not_or] at apart
    have frame := (ring_listAddBefore_frame kept.ring (link_mem.not.mpr apart.1)
      (show RunEntry.runLink q ≠ .runLink p by simpa using apart.2)).1
    exact frame.trans (kept.unlinked q inside apart.1)

theorem dequeue (kept : ListQueue m procs (xs ++ p :: ys)) :
    ∃ m', listDequeue m p = some m' ∧ ListQueue m' procs (xs ++ ys) ∧
      m' = discharge { m with runLinks := listDelInit m.runLinks (.runLink p) } := by
  have member : RunEntry.runLink p ∈ (xs ++ p :: ys).map .runLink := by simp
  have linked := kept.ring.not_empty member
  have ring : Ring m.runLinks .runList (xs.map .runLink ++ .runLink p :: ys.map .runLink) := by
    simpa using kept.ring
  refine ⟨_, by simp [listDequeue, listEmpty, linked, kept.onRq p (by simp)], ⟨?_, ?_, ?_, ?_⟩, rfl⟩
  · rw [map_append]
    exact ring_listDelInit ring
  · simp only [discharge, kept.count, length_append, length_cons]
    omega
  · intro q queued
    exact kept.onRq q (by simp at queued ⊢; tauto)
  · intro q inside apart
    by_cases same : q = p
    · simp [discharge, listDelInit, listInit, same]
    · have outside : q ∉ xs ++ p :: ys := by simp at apart ⊢; tauto
      have frame := (ring_listDelInit_frame ring (w := .runLink q) (by simpa using outside)).1
      exact frame.trans (kept.unlinked q inside outside)

theorem pickNext (kept : ListQueue m procs queue) : listPickNext m = queue.head? := by
  have first := kept.ring.next_head
  cases queue with
  | nil => simp_all [listPickNext]
  | cons q rest => simp_all [listPickNext]

/-- A structure that nothing links may be written over. -/
theorem alloc (kept : ListQueue m procs queue) (fresh : p ∉ queue) :
    ListQueue (allocProc m p) (p :: procs) queue := by
  have other : ∀ q ∈ queue, q ≠ p := fun q member same => fresh (same ▸ member)
  constructor
  · apply kept.ring.congr
    · rintro (- | q) member
      · simp [allocProc, listInit]
      · simp [allocProc, listInit, other q (link_mem.mp member)]
    · rintro (- | q) member
      · simp [allocProc, listInit]
      · simp [allocProc, listInit, other q (link_mem.mp member)]
  · exact kept.count
  · intro q member
    simp [allocProc, other q member, kept.onRq q member]
  · intro q inside apart
    by_cases same : q = p
    · simp [allocProc, listInit, same]
    · have before : q ∈ procs := by simpa [same] using inside
      simp [allocProc, listInit, same, kept.unlinked q before apart]

end ListQueue

theorem SchedClass.enqueue_list (list : c.usesList) : c.enqueue fuel = listEnqueue := by
  cases c <;> first | rfl | cases list

theorem SchedClass.dequeue_list (list : c.usesList) : c.dequeue fuel = listDequeue := by
  cases c <;> first | rfl | cases list

theorem SchedClass.pickNext_list (list : c.usesList) : c.pickNext m = some (m, listPickNext m) := by
  cases c <;> first | rfl | cases list

/-- A state of a run of a list-based class. -/
structure ListRun (c : SchedClass) (m : Machine) (known queue : List ℕ) : Prop where
  active : m.schedClass = c
  roster : Roster m known queue
  kept : ListQueue m (m.idleproc :: known) queue

namespace ListRun

section

variable (run : ListRun c m known queue)

include run

/-- Nothing the queue depends on is written. -/
theorem congr (active : m'.schedClass = m.schedClass)
    (roster : Roster m' known queue) (idle : m'.idleproc = m.idleproc)
    (links : m'.runLinks = m.runLinks) (count : m'.procNum = m.procNum) (rq : m'.rq = m.rq) :
    ListRun c m' known queue := by
  refine ⟨active.trans run.active, roster, ?_⟩
  rw [idle]
  exact run.kept.congr links count rq

theorem wakeup (list : c.usesList) (fuel : ℕ)
    (member : p ∈ known ∨ p = m.idleproc) (alive : m.state p ≠ .zombie) :
    ∃ m' queue', wakeupProc fuel m p = some m' ∧ ListRun c m' known queue' ∧ queue <+: queue' := by
  rw [wakeupProc_eq fuel alive]
  by_cases ready : m.state p = .runnable
  · exact ⟨m, queue, if_pos ready, run, prefix_rfl⟩
  rw [if_neg ready]
  by_cases apart : p = m.current ∨ p = m.idleproc
  · refine ⟨setRunnable m p, queue, if_pos apart, run.congr rfl ?_ rfl rfl rfl rfl, prefix_rfl⟩
    exact run.roster.restate apart rfl rfl rfl
  rw [if_neg apart]
  rw [not_or] at apart
  have fresh : p ∉ queue := fun queued => ready ((run.roster.exact p).mp queued).2.1
  have inside : p ∈ m.idleproc :: known := mem_cons_of_mem _ (member.resolve_right apart.2)
  have woken : ListQueue (setRunnable m p) (m.idleproc :: known) queue := run.kept.congr rfl rfl rfl
  obtain ⟨m', ran, kept, rfl⟩ := woken.enqueue fresh (run.kept.unlinked p inside fresh)
  rw [run.active, SchedClass.enqueue_list list]
  refine ⟨_, _, ran, ⟨run.active, ?_, kept⟩, prefix_append _ _⟩
  refine Roster.perm ?_ (perm_append_singleton p queue)
  exact run.roster.wake (member.resolve_right apart.2) apart.1 rfl rfl rfl

/-- The current process goes to the end of the queue, or nowhere. -/
theorem requeue (list : c.usesList) (fuel : ℕ) :
    ∃ m' queue', requeueCurrent fuel m = some m' ∧ queue'.Perm (Roster.candidates m queue) ∧
      ListQueue m' (m.idleproc :: known) queue' ∧ m'.schedClass = c ∧ m'.state = m.state ∧
      m'.idleproc = m.idleproc ∧ queue <+: queue' := by
  rw [requeueCurrent_eq, Roster.candidates]
  have cleared : ListQueue (clearResched m) (m.idleproc :: known) queue := run.kept.congr rfl rfl rfl
  by_cases queued : m.state m.current = .runnable ∧ m.current ≠ m.idleproc
  · have inside : m.current ∈ m.idleproc :: known := by
      simpa [queued.2] using run.roster.current
    obtain ⟨m', ran, kept, rfl⟩ := cleared.enqueue run.roster.current_notMem
      (run.kept.unlinked _ inside run.roster.current_notMem)
    rw [if_pos queued, if_pos queued, run.active, SchedClass.enqueue_list list]
    exact ⟨_, _, ran, perm_append_singleton _ _, kept, run.active, rfl, rfl, prefix_append _ _⟩
  · rw [if_neg queued, if_neg queued]
    exact ⟨_, queue, rfl, .rfl, cleared, run.active, rfl, rfl, prefix_rfl⟩

theorem schedule (list : c.usesList) (fuel : ℕ) :
    ∃ m' queue', schedule fuel m = some m' ∧ ListRun c m' known queue' ∧
      queue.drop 1 <+: queue' ∧ ∀ first rest, queue = first :: rest → m'.current = first := by
  obtain ⟨m₁, waiting, requeued, same, kept, active, state, idle, order⟩ := run.requeue list fuel
  have picked : schedClassPickNext m₁ = some (m₁, waiting.head?) := by
    rw [schedClassPickNext, active, SchedClass.pickNext_list list, kept.pickNext]
  have distinct := run.kept.nodup
  cases waiting with
  | nil =>
    refine ⟨switchTo m₁ m₁.idleproc, [], schedule_idle requeued picked, ⟨active, ?_, ?_⟩,
      List.IsPrefix.drop order 1, ?_⟩
    · refine run.roster.switch distinct (.inr idle) ?_ state idle
      rw [← List.Perm.nil_eq same]
      exact .rfl
    · have same : (switchTo m₁ m₁.idleproc).idleproc = m.idleproc := idle
      rw [same]
      exact kept.congr rfl rfl rfl
    · rintro first rest rfl
      cases prefix_nil.mp order
  | cons next rest =>
    obtain ⟨m₂, taken, left, shape⟩ := ListQueue.dequeue (nil_append (next :: rest) ▸ kept)
    rw [← SchedClass.dequeue_list list, ← active] at taken
    have same' : (switchTo m₂ next).idleproc = m.idleproc := by rw [shape]; exact idle
    refine ⟨switchTo m₂ next, rest, schedule_next requeued picked taken, ⟨?_, ?_, ?_⟩,
      List.IsPrefix.drop order 1, ?_⟩
    · rw [shape]
      exact active
    · refine run.roster.switch distinct (.inl (same.subset mem_cons_self)) ?_ ?_ same'
      · have erased := same.erase next
        rwa [erase_cons_head] at erased
      · rw [shape]
        exact state
    · rw [same']
      exact left.congr rfl rfl rfl
    · rintro first rest rfl
      exact (cons_prefix_cons.mp order).1.symm

end

end ListRun

/-- How many processes the event takes from the queue. -/
def Event.switches : Event → ℕ
  | .schedule => 1
  | _ => 0

/-- One event: it happens, whatever the bound, and the queue is kept. It takes processes from
the front only and adds them at the end only. -/
theorem ListRun.perform (run : ListRun c w.machine w.known queue) (list : c.usesList) (fuel : ℕ)
    {e : Event} (allowed : Allowed w e) :
    ∃ w' queue', perform fuel w e = some w' ∧ ListRun c w'.machine w'.known queue' ∧
      queue.drop e.switches <+: queue' := by
  cases e with
  | fork p pid =>
    obtain ⟨fresh, notIdle⟩ := allowed
    have notQueued : p ∉ queue := fun queued => fresh ((run.roster.exact p).mp queued).1
    have alloc : ListRun c (forkProc w.machine p pid) (p :: w.known) queue := by
      refine ⟨run.active, (run.roster.alloc fresh notIdle).congr rfl rfl rfl, ?_⟩
      exact ((run.kept.alloc notQueued).mono (by simp [forkProc, allocProc])).congr rfl rfl rfl
    obtain ⟨m', queue', ran, run'⟩ := alloc.wakeup list fuel (.inl mem_cons_self)
      (by simp [forkProc, allocProc])
    exact ⟨⟨m', p :: w.known⟩, queue', by simp [Sched.perform, ran], run'⟩
  | wakeup p =>
    obtain ⟨m', queue', ran, run'⟩ := run.wakeup list fuel allowed.1 allowed.2
    exact ⟨⟨m', w.known⟩, queue', by simp [Sched.perform, ran], run'⟩
  | sleep waitState =>
    refine ⟨_, queue, rfl, run.congr rfl ?_ rfl rfl rfl rfl, prefix_rfl⟩
    exact run.roster.restate (.inl rfl) rfl rfl rfl
  | exit =>
    refine ⟨_, queue, rfl, run.congr rfl ?_ rfl rfl rfl rfl, prefix_rfl⟩
    exact run.roster.restate (.inl rfl) rfl rfl rfl
  | reap p =>
    refine ⟨_, queue, rfl, ⟨run.active, run.roster.reap allowed.2.1 allowed.2.2, ?_⟩, prefix_rfl⟩
    exact run.kept.mono (cons_subset_cons _ (filter_subset_self _))
  | setPriority priority =>
    exact ⟨_, queue, rfl, run.congr rfl (run.roster.congr rfl rfl rfl) rfl rfl rfl rfl, prefix_rfl⟩
  | tick =>
    obtain ⟨timeSlice, needResched, ticked⟩ := schedClassProcTick_frame w.machine w.machine.current
    refine ⟨_, queue, rfl, ?_, prefix_rfl⟩
    rw [ticked]
    exact run.congr rfl (run.roster.congr rfl rfl rfl) rfl rfl rfl rfl
  | schedule =>
    obtain ⟨m', queue', ran, run', order, -⟩ := run.schedule list fuel
    exact ⟨⟨m', w.known⟩, queue', by simp [Sched.perform, ran], run', order⟩

theorem boot_listRun (list : c.usesList) (m : Machine) (idle : ℕ) :
    ListRun c (boot c m idle).machine (boot c m idle).known [] := by
  have shape : c.init = listInitQueue := by
    cases c <;> first | rfl | cases list
  simp only [boot, procInit, schedInit, shape]
  refine ⟨rfl, ⟨by simp, .inl rfl, by simp⟩, ?_⟩
  have empty : ListQueue (listInitQueue { m with lab6RunPool := none, schedClass := c, maxTimeSlice := 5 }) [] [] :=
    ⟨ring_init _ _, rfl, by simp, by simp⟩
  exact (empty.alloc (by simp)).congr rfl rfl rfl

theorem Reachable.listRun (list : c.usesList) (reached : Reachable c w) :
    ∃ queue, ListRun c w.machine w.known queue := by
  induction reached with
  | boot m idle => exact ⟨[], boot_listRun list m idle⟩
  | step _ allowed ran ih =>
    obtain ⟨queue, run⟩ := ih
    obtain ⟨w', queue', ran', run', -⟩ := run.perform list _ allowed
    rw [ran] at ran'
    cases ran'
    exact ⟨queue', run'⟩

/-- The run queue as a scheduling point should find it: `run_list` holds exactly
the processes that can run and neither run nor idle, each once, `proc_num` counts
them, and the link of every other process is empty. -/
structure RunQueue (w : World) (queue : List ℕ) : Prop where
  linked : Ring w.machine.runLinks .runList (queue.map .runLink)
  once : queue.Nodup
  processes : ∀ p ∈ queue, p ∈ w.known
  members : ∀ p ∈ w.machine.idleproc :: w.known, p ∈ queue ↔
    w.machine.state p = .runnable ∧ p ≠ w.machine.current ∧ p ≠ w.machine.idleproc
  counted : w.machine.procNum = queue.length
  others : ∀ p ∈ w.machine.idleproc :: w.known, p ∉ queue → listEmpty w.machine.runLinks (.runLink p)

/-- Whatever has happened since boot, the run queue of a list-based class is exact
and no event fails an assertion. -/
theorem run_queue_exact (list : c.usesList) (reached : Reachable c w) :
    (∃ queue, RunQueue w queue) ∧ ∀ fuel e, Allowed w e → (perform fuel w e).isSome := by
  obtain ⟨queue, run⟩ := reached.listRun list
  constructor
  · refine ⟨queue, run.kept.ring, run.kept.nodup, ?_, ?_, run.kept.count, ?_⟩
    · exact fun p queued => ((run.roster.exact p).mp queued).1
    · intro p member
      rcases mem_cons.mp member with rfl | member
      · simp [run.roster.idle_notMem]
      · have notIdle : p ≠ w.machine.idleproc := fun same => run.roster.idle (same ▸ member)
        simp [run.roster.exact, member, notIdle]
    · intro p member apart
      simpa [listEmpty] using run.kept.unlinked p member apart
  · intro fuel e allowed
    obtain ⟨w', queue', ran, -⟩ := run.perform list fuel allowed
    rw [ran]
    rfl

/-- A machine before `sched_init`. -/
def unbooted : Machine where
  state _ := .uninit
  waitState _ := 0
  needResched _ := false
  runs _ := 0
  pid _ := 0
  rq _ := false
  timeSlice _ := 0
  stride _ := 0
  priority _ := 0
  runLinks := ⟨id, id⟩
  heapLinks := ⟨fun _ => none, fun _ => none, fun _ => none⟩
  lab6RunPool := none
  procNum := 0
  maxTimeSlice := 0
  schedClass := .rr
  current := 0
  idleproc := 0

/-- Two processes were made, the second was woken again, and the first runs. -/
theorem run_queue_exact_two_forks :
    ∃ w, play 1 (boot .rr unbooted 0) [.fork 1 1, .fork 2 2, .wakeup 2, .schedule] = some w ∧
      w.machine.current = 1 ∧ (∃ queue, RunQueue w queue) ∧ (perform 1 w .exit).isSome := by
  have reached := Reachable.play 1 [.fork 1 1, .fork 2 2, .wakeup 2, .schedule]
    (.boot (c := .rr) unbooted 0) rfl
  obtain ⟨exact, succeeds⟩ := run_queue_exact rfl reached
  exact ⟨_, rfl, rfl, exact, succeeds 1 .exit ⟨rfl, by decide⟩⟩

/-! ## Waiting -/

/-- A process moves up by one place with every switch, until its turn comes. -/
theorem ListRun.dispatched {w' : World} {ahead behind : List ℕ} {es : List Event}
    (run : ListRun c w.machine w.known (ahead ++ p :: behind)) (list : c.usesList)
    (played : play fuel w (es ++ [.schedule]) = some w')
    (switches : (es.map Event.switches).sum = ahead.length) : w'.machine.current = p := by
  induction es generalizing w ahead behind with
  | nil =>
    obtain rfl : ahead = [] := length_eq_zero_iff.mp switches.symm
    obtain ⟨m', queue', ran, -, -, first⟩ := run.schedule list fuel
    simp only [play, nil_append, Allowed, if_true, Sched.perform, ran] at played
    cases played
    exact first p behind rfl
  | cons e es ih =>
    rw [cons_append, play] at played
    split_ifs at played with allowed
    obtain ⟨w₁, queue', ran, run', later, rfl⟩ := run.perform list fuel allowed
    rw [map_cons, sum_cons] at switches
    rw [drop_append_of_le_length (by omega), append_assoc] at run'
    rw [ran] at played
    exact ih run' played (by rw [length_drop]; omega)

/-- Under RR and FCFS no process waits for more switches than there are processes ahead of it
on `run_list`, whatever happens in between: the process with `k` others ahead is the one that
the `k + 1`st `schedule` from now on picks. -/
theorem list_classes_bounded_wait {w' : World} {ahead behind : List ℕ} {es : List Event}
    (list : c.usesList) (reached : Reachable c w)
    (order : Ring w.machine.runLinks .runList ((ahead ++ p :: behind).map .runLink))
    (played : play fuel w (es ++ [.schedule]) = some w')
    (switches : (es.map Event.switches).sum = ahead.length) : w'.machine.current = p := by
  obtain ⟨queue, run⟩ := reached.listRun list
  obtain rfl : queue = ahead ++ p :: behind :=
    map_injective_iff.mpr (fun _ _ => RunEntry.runLink.inj) (run.kept.ring.unique order)
  exact run.dispatched list played switches

/-- Processes 1 and 2 wait. The first one runs, sleeps and is followed by the second. -/
theorem list_classes_bounded_wait_two :
    ∃ w w', play 1 (boot .rr unbooted 0) [.fork 1 1, .fork 2 2] = some w ∧
      play 1 w [.schedule, .tick, .sleep 1, .schedule] = some w' ∧ w'.machine.current = 2 := by
  have reached := Reachable.play 1 [.fork 1 1, .fork 2 2] (.boot (c := .rr) unbooted 0) rfl
  exact ⟨_, _, rfl, rfl, @list_classes_bounded_wait .rr _ 2 1 _ [1] [] [.schedule, .tick, .sleep 1]
    rfl reached ⟨⟨rfl, rfl, rfl, rfl, rfl, rfl⟩, by decide⟩ rfl rfl⟩

end LiNos.Sched
