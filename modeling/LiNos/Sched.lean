import Mathlib.Data.BitVec
import Mathlib.Logic.Function.Basic
import LiNos.CircularList
import LiNos.SkewHeap
import LiNos.Proc

/-!
The scheduler (sched.c) and its four classes (rr_sched.c, fcfs_sched.c,
stride_sched.c, prior_sched.c), with `do_change_sched`, the scheduler's fields of
`alloc_proc` and `lab6_set_priority` of proc.c.

There is one run queue, with both of its containers: `run_list`, which the RR and
FCFS classes use, and `lab6_run_pool`, the skew heap of the other two. A class is
a constructor of `SchedClass`, and a call through `sched_class` a match on it.

A function returns `none` when the code fails an assertion or writes behind an array,
and when the bound on the recursion of the heap is used up. What the classes print is
left out, but not the array that `stride_pick_next` fills for it.
-/

namespace LiNos.Sched

open CircularList SkewHeap Function
open Proc (ProcState)

/-- The link nodes of the run queue: its head and the `run_link` of each process. -/
inductive RunEntry where
  | runList
  | runLink (proc : ℕ)
deriving DecidableEq, Repr

/-- The classes in the order of the argument of `do_change_sched`. -/
inductive SchedClass where
  | stride
  | fcfs
  | rr
  | prior
deriving DecidableEq, Repr

/-- The fields of every `proc_struct` that the scheduler reads or writes, those of
the run queue, and the variables of sched.c and proc.c. `rq` says whether
`proc->rq` is the run queue or `NULL`. -/
structure Machine where
  state : ℕ → ProcState
  waitState : ℕ → ℕ
  needResched : ℕ → Bool
  runs : ℕ → ℕ
  pid : ℕ → ℤ
  rq : ℕ → Bool
  timeSlice : ℕ → ℤ
  stride : ℕ → BitVec 32
  priority : ℕ → BitVec 32
  runLinks : Links RunEntry
  heapLinks : HeapLinks ℕ
  lab6RunPool : Option ℕ
  procNum : ℤ
  maxTimeSlice : ℤ
  schedClass : SchedClass
  current : ℕ
  idleproc : ℕ

namespace Machine

def setHeap (m : Machine) (links : HeapLinks ℕ) (pool : Option ℕ) : Machine :=
  { m with heapLinks := links, lab6RunPool := pool }

def setStride (m : Machine) (stride : ℕ → BitVec 32) : Machine := { m with stride := stride }

end Machine

/-! ## Parts the classes share -/

/-- The list's `init`: an empty `run_list` and `proc_num = 0`. -/
def listInitQueue (m : Machine) : Machine :=
  { m with runLinks := listInit m.runLinks .runList, procNum := 0 }

/-- The end of every `enqueue`: a time slice that is used up or too long is set
anew, and the process is counted. -/
def enroll (m : Machine) (proc : ℕ) : Machine :=
  let slice := m.timeSlice proc
  { m with
    timeSlice :=
      if slice = 0 ∨ slice > m.maxTimeSlice then update m.timeSlice proc m.maxTimeSlice
      else m.timeSlice
    rq := update m.rq proc true
    procNum := m.procNum + 1 }

/-- The end of every `dequeue`. -/
def discharge (m : Machine) : Machine := { m with procNum := m.procNum - 1 }

def listEnqueue (m : Machine) (proc : ℕ) : Option Machine :=
  if listEmpty m.runLinks (.runLink proc) then
    some (enroll { m with runLinks := listAddBefore m.runLinks .runList (.runLink proc) } proc)
  else none

def listDequeue (m : Machine) (proc : ℕ) : Option Machine :=
  if !listEmpty m.runLinks (.runLink proc) && m.rq proc then
    some (discharge { m with runLinks := listDelInit m.runLinks (.runLink proc) })
  else none

def listPickNext (m : Machine) : Option ℕ :=
  match m.runLinks.next .runList with
  | .runList => none
  | .runLink proc => some proc

section Heap

variable (comp : Machine → ℕ → ℕ → ℤ)

def heapEnqueue (fuel : ℕ) (m : Machine) (proc : ℕ) : Option Machine := do
  let (links, pool) ← skewHeapInsert (comp m · · = -1) fuel m.heapLinks m.lab6RunPool proc
  some (enroll (m.setHeap links pool) proc)

def heapDequeue (fuel : ℕ) (m : Machine) (proc : ℕ) : Option Machine := do
  let (links, pool) ← skewHeapRemove (comp m · · = -1) fuel m.heapLinks m.lab6RunPool proc
  some (discharge (m.setHeap links pool))

end Heap

/-- The root of the heap, whose stride is set to `stride`. -/
def heapPickNext (stride : Machine → ℕ → BitVec 32) (m : Machine) : Machine × Option ℕ :=
  match m.lab6RunPool with
  | none => (m, none)
  | some p => (m.setStride (update m.stride p (stride m p)), some p)

/-- A tick that takes one unit of the time slice and asks for a switch at its end. -/
def sliceTick (m : Machine) (proc : ℕ) : Machine :=
  let slice := if m.timeSlice proc > 0 then m.timeSlice proc - 1 else m.timeSlice proc
  { m with
    timeSlice := update m.timeSlice proc slice
    needResched := if slice = 0 then update m.needResched proc true else m.needResched }

/-! ## The classes -/

def rrInit (m : Machine) : Machine := listInitQueue m
def rrEnqueue (m : Machine) (proc : ℕ) : Option Machine := listEnqueue m proc
def rrDequeue (m : Machine) (proc : ℕ) : Option Machine := listDequeue m proc
def rrPickNext (m : Machine) : Machine × Option ℕ := (m, listPickNext m)
def rrProcTick (m : Machine) (proc : ℕ) : Machine := sliceTick m proc

def fcfsInit (m : Machine) : Machine := listInitQueue m
def fcfsEnqueue (m : Machine) (proc : ℕ) : Option Machine := listEnqueue m proc
def fcfsDequeue (m : Machine) (proc : ℕ) : Option Machine := listDequeue m proc
def fcfsPickNext (m : Machine) : Machine × Option ℕ := (m, listPickNext m)

/-- The body of `FCFS_proc_tick` is commented out. -/
def fcfsProcTick (m : Machine) (_proc : ℕ) : Machine := m

def bigStride : BitVec 32 := 0x7FFFFFFF

/-- The sign of the difference, taken as `int32_t`. -/
def compare32 (a b : BitVec 32) : ℤ :=
  let c := (a - b).toInt
  if c > 0 then 1 else if c = 0 then 0 else -1

def procStrideCompF (m : Machine) (p q : ℕ) : ℤ := compare32 (m.stride p) (m.stride q)

def strideInit (m : Machine) : Machine := { listInitQueue m with lab6RunPool := none }
def strideEnqueue (fuel : ℕ) (m : Machine) (proc : ℕ) : Option Machine :=
  heapEnqueue procStrideCompF fuel m proc
def strideDequeue (fuel : ℕ) (m : Machine) (proc : ℕ) : Option Machine :=
  heapDequeue procStrideCompF fuel m proc

/-- What a pick adds to the stride of a process. -/
def pass (priority : BitVec 32) : BitVec 32 :=
  if priority = 0 then bigStride else bigStride / priority

/-- The number of entries of `queue` in `skew_heap_trav`. -/
def queueEntries : ℕ := 100

/-- `struct stride_entry`; its `stride` is an `int`. -/
structure StrideEntry where
  pid : ℤ
  stride : BitVec 32
  priority : BitVec 32
deriving DecidableEq, Repr

def Machine.entry (m : Machine) (p : ℕ) : StrideEntry := ⟨m.pid p, m.stride p, m.priority p⟩

/-- `inorder` with the entries that are filled so far. The recursion is never deeper than
there are entries left. -/
def inorder (m : Machine) : ℕ → Option ℕ → List StrideEntry → Option (List StrideEntry)
  | _, none, q => some q
  | 0, some _, _ => none
  | depth + 1, some a, q =>
    if q.length < queueEntries then do
      let q ← inorder m depth (m.heapLinks.left a) (q ++ [m.entry a])
      inorder m depth (m.heapLinks.right a) q
    else none

/-- The inner loop of `sort`: an entry that is smaller than `x` takes its place. -/
def sortRound (x : StrideEntry) : List StrideEntry → StrideEntry × List StrideEntry
  | [] => (x, [])
  | y :: ys =>
    if y.stride.slt x.stride then (sortRound y ys).map id (x :: ·)
    else (sortRound x ys).map id (y :: ·)

/-- `sort` with the number of entries that are left. -/
def sort : ℕ → List StrideEntry → List StrideEntry
  | n + 1, x :: xs =>
    let (least, rest) := sortRound x xs
    least :: sort n rest
  | _, q => q

/-- `skew_heap_trav`: the lines it prints, each with a pid and a stride. -/
def skewHeapTrav (m : Machine) (a : Option ℕ) (pid : ℤ) : Option (List (ℤ × BitVec 32)) := do
  let queue ← inorder m queueEntries a []
  some (((sort queue.length queue).filter (pid ≠ ·.pid)).map fun e => (e.pid, e.stride))

def doStrideQueue (m : Machine) (pid : ℤ) : Option (List (ℤ × BitVec 32)) := skewHeapTrav m m.lab6RunPool pid

def stridePickNext (m : Machine) : Option (Machine × Option ℕ) := do
  match m.lab6RunPool with
  | none => some ()
  | some p =>
    if m.pid p ≠ 2 ∧ m.pid p ≠ 1 then do
      let _ ← doStrideQueue m (m.pid p)
      some ()
    else some ()
  some (heapPickNext (fun m p => m.stride p + pass (m.priority p)) m)

def strideProcTick (m : Machine) (proc : ℕ) : Machine := sliceTick m proc

def procPriorCompF (m : Machine) (p q : ℕ) : ℤ := compare32 (m.priority p) (m.priority q)

def priorInit (m : Machine) : Machine := { listInitQueue m with lab6RunPool := none }
def priorEnqueue (fuel : ℕ) (m : Machine) (proc : ℕ) : Option Machine :=
  heapEnqueue procPriorCompF fuel m proc
def priorDequeue (fuel : ℕ) (m : Machine) (proc : ℕ) : Option Machine :=
  heapDequeue procPriorCompF fuel m proc

def priorPickNext (m : Machine) : Machine × Option ℕ := heapPickNext (fun m p => m.priority p) m

/-- `prior_proc_tick` has an empty body. -/
def priorProcTick (m : Machine) (_proc : ℕ) : Machine := m

namespace SchedClass

def init : SchedClass → Machine → Machine
  | stride => strideInit
  | fcfs => fcfsInit
  | rr => rrInit
  | prior => priorInit

def enqueue : SchedClass → ℕ → Machine → ℕ → Option Machine
  | stride, fuel => strideEnqueue fuel
  | fcfs, _ => fcfsEnqueue
  | rr, _ => rrEnqueue
  | prior, fuel => priorEnqueue fuel

def dequeue : SchedClass → ℕ → Machine → ℕ → Option Machine
  | stride, fuel => strideDequeue fuel
  | fcfs, _ => fcfsDequeue
  | rr, _ => rrDequeue
  | prior, fuel => priorDequeue fuel

def pickNext : SchedClass → Machine → Option (Machine × Option ℕ)
  | stride, m => stridePickNext m
  | fcfs, m => some (fcfsPickNext m)
  | rr, m => some (rrPickNext m)
  | prior, m => some (priorPickNext m)

def procTick : SchedClass → Machine → ℕ → Machine
  | stride => strideProcTick
  | fcfs => fcfsProcTick
  | rr => rrProcTick
  | prior => priorProcTick

/-- The container of the run queue that the class uses. -/
def usesList : SchedClass → Bool
  | fcfs | rr => true
  | stride | prior => false

/-- The argument of `do_change_sched` that selects the class. -/
def mode : SchedClass → ℕ
  | stride => 1
  | fcfs => 2
  | rr => 3
  | prior => 4

end SchedClass

/-! ## sched.c -/

def schedClassEnqueue (fuel : ℕ) (m : Machine) (proc : ℕ) : Option Machine :=
  if proc ≠ m.idleproc then m.schedClass.enqueue fuel m proc else some m

def schedClassDequeue (fuel : ℕ) (m : Machine) (proc : ℕ) : Option Machine :=
  m.schedClass.dequeue fuel m proc

def schedClassPickNext (m : Machine) : Option (Machine × Option ℕ) := m.schedClass.pickNext m

def schedClassProcTick (m : Machine) (proc : ℕ) : Machine :=
  if proc ≠ m.idleproc then m.schedClass.procTick m proc
  else { m with needResched := update m.needResched proc true }

/-- `sched_init` with the class that is made the current one; the source names
`rr_sched_class`. -/
def schedInit (c : SchedClass) (m : Machine) : Machine :=
  c.init { m with schedClass := c, maxTimeSlice := 5 }

/-- The writes of `wakeup_proc` to the process. -/
def setRunnable (m : Machine) (proc : ℕ) : Machine :=
  { m with
    state := update m.state proc .runnable
    waitState := update m.waitState proc 0 }

def wakeupProc (fuel : ℕ) (m : Machine) (proc : ℕ) : Option Machine :=
  if m.state proc = .zombie then none
  else if m.state proc ≠ .runnable then
    let m := setRunnable m proc
    if proc ≠ m.current then schedClassEnqueue fuel m proc else some m
  else some m

def clearResched (m : Machine) : Machine :=
  { m with needResched := update m.needResched m.current false }

/-- The first half of `schedule`: the current process goes back to the queue if it
can still run. -/
def requeueCurrent (fuel : ℕ) (m : Machine) : Option Machine :=
  let m := clearResched m
  if m.state m.current = .runnable then schedClassEnqueue fuel m m.current else some m

/-- `next->runs ++` and the switch of `proc_run`. -/
def switchTo (m : Machine) (next : ℕ) : Machine :=
  { m with runs := update m.runs next (m.runs next + 1), current := next }

/-- The second half of `schedule`. -/
def switchNext (fuel : ℕ) (m : Machine) : Option Machine := do
  let (m, next) ← schedClassPickNext m
  let m ← match next with
    | some next => schedClassDequeue fuel m next
    | none => some m
  some (switchTo m (next.getD m.idleproc))

def schedule (fuel : ℕ) (m : Machine) : Option Machine := do
  let m ← requeueCurrent fuel m
  switchNext fuel m

theorem wakeupProc_eq {m : Machine} {proc : ℕ} (fuel : ℕ) (alive : m.state proc ≠ .zombie) :
    wakeupProc fuel m proc =
      if m.state proc = .runnable then some m
      else if proc = m.current ∨ proc = m.idleproc then some (setRunnable m proc)
      else m.schedClass.enqueue fuel (setRunnable m proc) proc := by
  have current : (setRunnable m proc).current = m.current := rfl
  have idle : (setRunnable m proc).idleproc = m.idleproc := rfl
  have active : (setRunnable m proc).schedClass = m.schedClass := rfl
  unfold wakeupProc schedClassEnqueue
  grind

theorem requeueCurrent_eq (fuel : ℕ) (m : Machine) :
    requeueCurrent fuel m =
      if m.state m.current = .runnable ∧ m.current ≠ m.idleproc then
        m.schedClass.enqueue fuel (clearResched m) m.current
      else some (clearResched m) := by
  unfold requeueCurrent schedClassEnqueue
  by_cases ready : m.state m.current = .runnable
  · by_cases idle : m.current = m.idleproc <;> simp [ready, idle, clearResched]
  · simp [ready, clearResched]

theorem SchedClass.procTick_frame (c : SchedClass) (m : Machine) (proc : ℕ) : ∃ timeSlice needResched,
    c.procTick m proc = { m with timeSlice := timeSlice, needResched := needResched } := by
  cases c with
  | stride | rr => exact ⟨_, _, rfl⟩
  | fcfs | prior => exact ⟨m.timeSlice, m.needResched, rfl⟩

/-- A tick writes nothing but the time slice and the wish to switch. -/
theorem schedClassProcTick_frame (m : Machine) (proc : ℕ) : ∃ timeSlice needResched,
    schedClassProcTick m proc = { m with timeSlice := timeSlice, needResched := needResched } := by
  unfold schedClassProcTick
  split
  · exact m.schedClass.procTick_frame m proc
  · exact ⟨m.timeSlice, _, rfl⟩

section Schedule

variable {fuel : ℕ} {m m₁ m₂ m₃ : Machine} {next : ℕ}

theorem schedule_idle (requeued : requeueCurrent fuel m = some m₁)
    (picked : schedClassPickNext m₁ = some (m₂, none)) :
    schedule fuel m = some (switchTo m₂ m₂.idleproc) := by
  simp [schedule, requeued, switchNext, picked]

theorem schedule_next (requeued : requeueCurrent fuel m = some m₁)
    (picked : schedClassPickNext m₁ = some (m₂, some next))
    (taken : m₂.schedClass.dequeue fuel m₂ next = some m₃) :
    schedule fuel m = some (switchTo m₃ next) := by
  simp [schedule, requeued, switchNext, picked, schedClassDequeue, taken]

theorem schedule_cases {m' : Machine} (ran : schedule fuel m = some m') :
    ∃ m₁ m₂, requeueCurrent fuel m = some m₁ ∧
      (schedClassPickNext m₁ = some (m₂, none) ∧ m' = switchTo m₂ m₂.idleproc ∨
        ∃ next m₃, schedClassPickNext m₁ = some (m₂, some next) ∧
          m₂.schedClass.dequeue fuel m₂ next = some m₃ ∧ m' = switchTo m₃ next) := by
  obtain ⟨m₁, requeued, rest⟩ := Option.bind_eq_some_iff.mp ran
  obtain ⟨⟨m₂, next⟩, picked, rest⟩ := Option.bind_eq_some_iff.mp rest
  refine ⟨m₁, m₂, requeued, ?_⟩
  cases next with
  | none => exact .inl ⟨picked, (Option.some.inj rest).symm⟩
  | some next =>
    obtain ⟨m₃, taken, shape⟩ := Option.bind_eq_some_iff.mp rest
    exact .inr ⟨next, m₃, picked, taken, (Option.some.inj shape).symm⟩

end Schedule

/-- An argument that names no class leaves the class as it is. -/
def doChangeSched (m : Machine) (mode : ℕ) : Machine :=
  match mode with
  | 1 => { m with schedClass := .stride }
  | 2 => { m with schedClass := .fcfs }
  | 3 => { m with schedClass := .rr }
  | 4 => { m with schedClass := .prior }
  | _ => m

@[simp] theorem doChangeSched_mode (m : Machine) (c : SchedClass) :
    doChangeSched m c.mode = { m with schedClass := c } := by
  cases c <;> rfl

/-! ## proc.c -/

/-- `alloc_proc`, the scheduler's fields. -/
def allocProc (m : Machine) (proc : ℕ) : Machine :=
  { m with
    state := update m.state proc .uninit
    runs := update m.runs proc 0
    pid := update m.pid proc (-1)
    needResched := update m.needResched proc false
    waitState := update m.waitState proc 0
    rq := update m.rq proc false
    runLinks := listInit m.runLinks (.runLink proc)
    timeSlice := update m.timeSlice proc 0
    heapLinks := skewHeapInit m.heapLinks proc
    stride := update m.stride proc 0
    priority := update m.priority proc 0 }

/-- `proc_init`, up to the first fork. -/
def procInit (m : Machine) (idle : ℕ) : Machine :=
  let m := allocProc m idle
  { m with
    state := update m.state idle .runnable
    pid := update m.pid idle 0
    needResched := update m.needResched idle true
    idleproc := idle
    current := idle }

/-- `do_fork` up to `wakeup_proc`, the scheduler's fields; `pid` is what `get_pid` gave. -/
def forkProc (m : Machine) (proc : ℕ) (pid : ℤ) : Machine :=
  let m := allocProc m proc
  { m with pid := update m.pid proc pid }

def lab6SetPriority (m : Machine) (priority : BitVec 32) : Machine :=
  { m with priority := update m.priority m.current (if priority = 0 then 1 else priority) }

/-! ## Runs -/

/-- The state with the processes there are, apart from `idleproc`. -/
structure World where
  machine : Machine
  known : List ℕ

/-- What can happen: the calls of the current process, wake-ups by whoever gives
them, and timer ticks. `reap` is the end of a structure in `do_wait`, after which
its address is free for another. -/
inductive Event where
  | fork (proc : ℕ) (pid : ℤ)
  | wakeup (proc : ℕ)
  | sleep (waitState : ℕ)
  | exit
  | reap (proc : ℕ)
  | setPriority (priority : BitVec 32)
  | tick
  | schedule

/-- When an event can happen. A process that is not runnable only ever calls
`schedule`; `do_exit` of `idleproc` is a panic. -/
def Allowed (w : World) : Event → Prop
  | .fork proc _ => proc ∉ w.known ∧ proc ≠ w.machine.idleproc
  | .wakeup proc => (proc ∈ w.known ∨ proc = w.machine.idleproc) ∧ w.machine.state proc ≠ .zombie
  | .sleep _ => w.machine.state w.machine.current = .runnable
  | .exit => w.machine.state w.machine.current = .runnable ∧ w.machine.current ≠ w.machine.idleproc
  | .reap proc => proc ∈ w.known ∧ w.machine.state proc = .zombie ∧ proc ≠ w.machine.current
  | .setPriority _ => w.machine.state w.machine.current = .runnable
  | .tick => True
  | .schedule => True

def perform (fuel : ℕ) (w : World) : Event → Option World
  | .fork proc pid => do
    let m ← wakeupProc fuel (forkProc w.machine proc pid) proc
    some ⟨m, proc :: w.known⟩
  | .wakeup proc => do
    let m ← wakeupProc fuel w.machine proc
    some { w with machine := m }
  | .sleep waitState =>
    some { w with machine := { w.machine with
      state := update w.machine.state w.machine.current .sleeping
      waitState := update w.machine.waitState w.machine.current waitState } }
  | .exit =>
    some { w with machine := { w.machine with
      state := update w.machine.state w.machine.current .zombie } }
  | .reap proc => some { w with known := w.known.filter (· ≠ proc) }
  | .setPriority priority => some { w with machine := lab6SetPriority w.machine priority }
  | .tick => some { w with machine := schedClassProcTick w.machine w.machine.current }
  | .schedule => do
    let m ← schedule fuel w.machine
    some { w with machine := m }

instance (w : World) : DecidablePred (Allowed w)
  | .fork _ _ => inferInstanceAs (Decidable (_ ∧ _))
  | .wakeup _ => inferInstanceAs (Decidable (_ ∧ _))
  | .sleep _ => inferInstanceAs (Decidable (_ = _))
  | .exit => inferInstanceAs (Decidable (_ ∧ _))
  | .reap _ => inferInstanceAs (Decidable (_ ∧ _))
  | .setPriority _ => inferInstanceAs (Decidable (_ = _))
  | .tick => .isTrue trivial
  | .schedule => .isTrue trivial

/-- A list of events in turn, each of them allowed. -/
def play (fuel : ℕ) (w : World) : List Event → Option World
  | [] => some w
  | e :: es =>
    if Allowed w e then do
      let w ← perform fuel w e
      play fuel w es
    else none

/-- The machine when `idleproc` starts to run; `rq` is a static variable, so its
pool is `NULL` before `sched_init`. -/
def boot (c : SchedClass) (m : Machine) (idle : ℕ) : World where
  machine := procInit (schedInit c { m with lab6RunPool := none }) idle
  known := []

/-- The states of the runs in which one class stays active. -/
inductive Reachable (c : SchedClass) : World → Prop
  | boot (m : Machine) (idle : ℕ) : Reachable c (boot c m idle)
  | step {fuel : ℕ} {w w' : World} {e : Event} (reached : Reachable c w) (allowed : Allowed w e)
      (ran : perform fuel w e = some w') : Reachable c w'

theorem Reachable.play {c : SchedClass} {w w' : World} (fuel : ℕ) (events : List Event)
    (reached : Reachable c w) (ran : play fuel w events = some w') : Reachable c w' := by
  induction events generalizing w with
  | nil =>
    cases ran
    exact reached
  | cons e es ih =>
    unfold Sched.play at ran
    split at ran
    · obtain ⟨w₁, first, rest⟩ := Option.bind_eq_some_iff.mp ran
      exact ih (reached.step ‹_› first) rest
    · cases ran

end LiNos.Sched
