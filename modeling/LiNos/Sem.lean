import Mathlib.Algebra.Order.Ring.Int
import Mathlib.Logic.Function.Basic
import LiNos.CircularList
import LiNos.Proc

/-!
Kernel semaphores (sem.c) and the wait queue under them (wait.c).

A `wait_t` lives on the stack of the process that waits, so it is named by that
process. `__down` is cut in two at its call of `schedule`, and a run interleaves
what happens with interrupts off.

A fault is an assertion that fails, a null pointer that is followed, or an
overflow of `value`, which C leaves undefined.
-/

namespace LiNos.Sem

open CircularList Function
open Proc (ProcState wtInterrupted)

inductive Fault where
  | assertion
  | nullPointer
  | overflow
deriving DecidableEq, Repr

/-- The link nodes of the wait queue: its head and the `wait_link` of each `wait_t`. -/
inductive WaitEntry where
  | waitHead
  | waitLink (proc : ℕ)
deriving DecidableEq, Repr

def wtKsem : ℕ := 0x00000100

def intMax : ℤ := 2 ^ 31 - 1

/-- The process table, one semaphore and the `wait_t` of every process. `waitQueue`
says whether `wait->wait_queue` is the queue of the semaphore. -/
structure Machine where
  procs : Proc.Machine
  value : ℤ
  waitLinks : Links WaitEntry
  waitProc : ℕ → Option ℕ
  wakeupFlags : ℕ → ℕ
  waitQueue : ℕ → Bool

/-- `assert`. -/
def assert (condition : Bool) : Except Fault Unit :=
  if condition then .ok () else .error .assertion

def follow {α : Type*} : Option α → Except Fault α
  | some a => .ok a
  | none => .error .nullPointer

theorem bind_ok {α β : Type} {x : Except Fault α} {f : α → Except Fault β} {b : β}
    (ran : x >>= f = .ok b) : ∃ a, x = .ok a ∧ f a = .ok b := by
  cases x with
  | error e => cases ran
  | ok a => exact ⟨a, rfl, ran⟩

/-! ## wait.c -/

def waitInit (m : Machine) (wait proc : ℕ) : Machine :=
  { m with
    waitProc := update m.waitProc wait (some proc)
    wakeupFlags := update m.wakeupFlags wait wtInterrupted
    waitLinks := listInit m.waitLinks (.waitLink wait) }

def waitQueueInit (m : Machine) : Machine :=
  { m with waitLinks := listInit m.waitLinks .waitHead }

def waitQueueAdd (m : Machine) (wait : ℕ) : Except Fault Machine := do
  assert (listEmpty m.waitLinks (.waitLink wait) && (m.waitProc wait).isSome)
  .ok { m with
    waitQueue := update m.waitQueue wait true
    waitLinks := listAddBefore m.waitLinks .waitHead (.waitLink wait) }

def waitQueueDel (m : Machine) (wait : ℕ) : Except Fault Machine := do
  assert (!listEmpty m.waitLinks (.waitLink wait) && m.waitQueue wait)
  .ok { m with waitLinks := listDelInit m.waitLinks (.waitLink wait) }

def waitQueueFirst (m : Machine) : Option ℕ :=
  match m.waitLinks.next .waitHead with
  | .waitHead => none
  | .waitLink wait => some wait

def waitInQueue (m : Machine) (wait : ℕ) : Bool := !listEmpty m.waitLinks (.waitLink wait)

def wakeupProc (m : Machine) (proc : ℕ) : Except Fault Machine :=
  match Proc.wakeupProc m.procs proc with
  | some procs => .ok { m with procs := procs }
  | none => .error .assertion

def wakeupWait (m : Machine) (wait flags : ℕ) (del : Bool) : Except Fault Machine := do
  let m ← if del then waitQueueDel m wait else .ok m
  let m := { m with wakeupFlags := update m.wakeupFlags wait flags }
  let proc ← follow (m.waitProc wait)
  wakeupProc m proc

/-- `wait_current_set`; the `wait_t` is on the stack of the current process. -/
def waitCurrentSet (m : Machine) (waitState : ℕ) : Except Fault Machine :=
  let current := m.procs.current
  let m := waitInit m current current
  let m := { m with procs := { m.procs with
    state := update m.procs.state current .sleeping
    waitState := update m.procs.waitState current waitState } }
  waitQueueAdd m current

def waitCurrentDel (m : Machine) (wait : ℕ) : Except Fault Machine :=
  if waitInQueue m wait then waitQueueDel m wait else .ok m

/-! ## sem.c -/

def semInit (m : Machine) (value : ℤ) : Machine := waitQueueInit { m with value := value }

/-- `__up`. -/
def upAs (m : Machine) (waitState : ℕ) : Except Fault Machine :=
  match waitQueueFirst m with
  | none => if m.value < intMax then .ok { m with value := m.value + 1 } else .error .overflow
  | some wait => do
    let proc ← follow (m.waitProc wait)
    assert (m.procs.waitState proc == waitState)
    wakeupWait m wait waitState true

/-- `__down` up to its call of `schedule`, and whether it returned before that. -/
def downBegin (m : Machine) (waitState : ℕ) : Except Fault (Machine × Bool) :=
  if m.value > 0 then .ok ({ m with value := m.value - 1 }, true)
  else do
    let m ← waitCurrentSet m waitState
    .ok (m, false)

/-- The rest of `__down`, with the value it returns. -/
def downEnd (m : Machine) (waitState : ℕ) : Except Fault (Machine × ℕ) := do
  let wait := m.procs.current
  let m ← waitCurrentDel m wait
  if m.wakeupFlags wait ≠ waitState then .ok (m, m.wakeupFlags wait) else .ok (m, 0)

def up (m : Machine) : Except Fault Machine := upAs m wtKsem

/-- The rest of `down` after `schedule`. -/
def downReturn (m : Machine) : Except Fault Machine := do
  let (m, flags) ← downEnd m wtKsem
  assert (flags == 0)
  .ok m

def tryDown (m : Machine) : Machine × Bool :=
  if m.value > 0 then ({ m with value := m.value - 1 }, true) else (m, false)

/-! ## Runs -/

/-- Where a process is: in the call of `schedule` in `__down`, or elsewhere. -/
inductive Pc where
  | outside
  | waiting
deriving DecidableEq, Repr

/-- A state of a run with its history: how many `up`s, `down`s and successful
`try_down`s have returned, who queued and who was handed a unit, in order. -/
structure World where
  machine : Machine
  pc : ℕ → Pc
  ups : ℕ
  downs : ℕ
  tries : ℕ
  arrivals : List ℕ
  grants : List ℕ

/-- The process `p` runs. -/
def World.running (w : World) (p : ℕ) : Machine :=
  { w.machine with procs := { w.machine.procs with current := p } }

/-- What can happen. `wake` is a call of `wakeup_proc` other than that of `__up`;
`sleep` and `exit` are what processes do elsewhere. -/
inductive Event where
  | up (proc : ℕ)
  | down (proc : ℕ)
  | tryDown (proc : ℕ)
  | resume (proc : ℕ)
  | wake (proc : ℕ)
  | sleep (proc waitState : ℕ)
  | exit (proc : ℕ)

/-- A process acts only if it is runnable, and returns from `schedule` only then.
`others` says whether anyone but `__up` wakes the waiters. -/
def Allowed (others : Bool) (w : World) : Event → Prop
  | .up p | .down p | .tryDown p | .sleep p _ | .exit p =>
    w.machine.procs.state p = .runnable ∧ w.pc p = .outside
  | .resume p => w.machine.procs.state p = .runnable ∧ w.pc p = .waiting
  | .wake p => w.machine.procs.state p ≠ .zombie ∧ (w.pc p = .waiting → others = true)

def perform (w : World) : Event → Except Fault World
  | .up p => do
    let m ← up (w.running p)
    .ok { w with machine := m, ups := w.ups + 1, grants := w.grants ++ (waitQueueFirst w.machine).toList }
  | .down p => do
    let (m, returned) ← downBegin (w.running p) wtKsem
    if returned then .ok { w with machine := m, downs := w.downs + 1 }
    else .ok { w with
      machine := m
      pc := update w.pc p .waiting
      arrivals := w.arrivals ++ [p] }
  | .tryDown p =>
    let (m, taken) := tryDown (w.running p)
    .ok { w with machine := m, tries := if taken then w.tries + 1 else w.tries }
  | .resume p => do
    let m ← downReturn (w.running p)
    .ok { w with machine := m, pc := update w.pc p .outside, downs := w.downs + 1 }
  | .wake p => do
    let m ← wakeupProc w.machine p
    .ok { w with machine := m }
  | .sleep p waitState =>
    .ok { w with machine := { w.machine with procs := { w.machine.procs with
      state := update w.machine.procs.state p .sleeping
      waitState := update w.machine.procs.waitState p waitState } } }
  | .exit p =>
    .ok { w with machine := { w.machine with procs := { w.machine.procs with
      state := update w.machine.procs.state p .zombie } } }

/-- A semaphore nobody uses yet, on a machine in any state. -/
def start (m : Machine) (v₀ : ℤ) : World where
  machine := semInit m v₀
  pc _ := .outside
  ups := 0
  downs := 0
  tries := 0
  arrivals := []
  grants := []

inductive Run (others : Bool) (v₀ : ℤ) : World → Prop
  | start (m : Machine) : Run others v₀ (start m v₀)
  | step {w w' : World} {e : Event} (run : Run others v₀ w) (allowed : Allowed others w e)
      (ran : perform w e = .ok w') : Run others v₀ w'

end LiNos.Sem
