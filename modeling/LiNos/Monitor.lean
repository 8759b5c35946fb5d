import Mathlib.Data.Fintype.Basic
import Mathlib.Algebra.BigOperators.Fin
import Mathlib.Tactic.DeriveFintype
import LiNos.Semaphore
import LiNos.Tally

/-!
Monitors with condition variables (monitor.c) and the routines that use them
(monitor.h, check_sync.c).

The semaphores are those of `Semaphore`, which sem.c implements. Their operations
are atomic and so is each assignment and each test in between; `Pc` says which of
them is a process's next. A `down` that has to wait returns when an `up` hands it the
unit, and what its process does after that comes in steps of its own.
-/

namespace LiNos.Monitor

open Function

/-- The semaphores of a monitor with `n` condition variables. -/
inductive SemId (n : ℕ) where
  | mutex
  | next
  | cv (i : Fin n)
deriving DecidableEq, Fintype

/-- Where a process is: what it does next, or the `down` it waits in. The names of
`cond_wait` are `wait…`, those of `cond_signal` are `signal…`; `toNext` is the outcome
of the test of `next_count`. -/
inductive Pc (n : ℕ) where
  | outside
  | entering
  | body
  | waitTest (i : Fin n)
  | waitUp (i : Fin n) (toNext : Bool)
  | waitDown (i : Fin n)
  | waiting (i : Fin n)
  | waitDec (i : Fin n)
  | signalInc (i : Fin n)
  | signalUp (i : Fin n)
  | signalDown (i : Fin n)
  | signaling (i : Fin n)
  | signalDec (i : Fin n)
  | leaveUp (toNext : Bool)
deriving DecidableEq

namespace Pc

variable {n : ℕ}

/-- The semaphore of the `down` a process waits in. -/
def blockedOn : Pc n → Option (SemId n)
  | entering => some .mutex
  | waiting i => some (.cv i)
  | signaling _ => some .next
  | _ => none

/-- Where a process goes on when the `down` it waits in returns. -/
def returned : Pc n → Pc n
  | entering => body
  | waiting i => waitDec i
  | signaling i => signalDec i
  | pc => pc

/-- From the return of a `down` to the next `up`. -/
def active : Pc n → Bool
  | body | waitTest _ | waitUp _ _ | waitDec _ | signalInc _ | signalUp _ | signalDec _ | leaveUp _ => true
  | outside | entering | waitDown _ | waiting _ | signalDown _ | signaling _ => false

/-- In `cond_wait` on `cv[i]`, with `count` incremented. -/
def inWait (i : Fin n) : Pc n → Bool
  | waitTest j | waitUp j _ | waitDown j | waiting j | waitDec j => i = j
  | _ => false

/-- In `cond_signal` with `next_count` incremented. -/
def inSignal : Pc n → Bool
  | signalUp _ | signalDown _ | signaling _ | signalDec _ => true
  | _ => false

/-- A signaler that gave up the monitor and has not resumed. -/
def gaveUp (pc : Pc n) : Bool := pc.inSignal && !pc.active

end Pc

section Model

variable (P : Type*) (n : ℕ)

/-- The monitor, and where every process is. -/
structure World where
  sem : SemId n → Semaphore P
  nextCount : ℤ
  count : Fin n → ℤ
  pc : P → Pc n

end Model

/-- What the body of a routine does next. -/
inductive Call (n : ℕ) where
  | wait (i : Fin n)
  | signal (i : Fin n)
  | leave

variable {P : Type*} [DecidableEq P] {n : ℕ}

/-- `monitor_init`; nobody is in the monitor. -/
def monitorInit (P : Type*) (n : ℕ) : Option (World P n) :=
  if 0 < n then
    some {
      sem := fun
        | .mutex => .init 1
        | _ => .init 0
      nextCount := 0
      count := fun _ => 0
      pc := fun _ => .outside }
  else none

namespace World

def goto (w : World P n) (p : P) (pc : Pc n) : World P n :=
  { w with pc := update w.pc p pc }

/-- `up` by `p`, which goes on at `after`. -/
def up (w : World P n) (id : SemId n) (p : P) (after : Pc n) : World P n :=
  let (sem, handed) := (w.sem id).up
  let w := { w with sem := update w.sem id sem }.goto p after
  match handed with
  | none => w
  | some q => w.goto q (w.pc q).returned

/-- `down` by `p`, which goes on at `after` or waits at `blocked`. -/
def down (w : World P n) (id : SemId n) (p : P) (after blocked : Pc n) : World P n :=
  let (sem, taken) := (w.sem id).down p
  { w with sem := update w.sem id sem }.goto p (if taken then after else blocked)

/-- The `up` that gives up the monitor: on `next` if the test found a signaler. -/
def passOn (toNext : Bool) : SemId n := if toNext then .next else .mutex

end World

/-- The next step of process `p`; a process that waits makes none. -/
def step (w : World P n) (p : P) (call : Call n) : World P n :=
  match w.pc p with
  | .outside => w.down .mutex p .body .entering
  | .entering => w
  | .body =>
    match call with
    | .wait i => { w with count := update w.count i (w.count i + 1) }.goto p (.waitTest i)
    | .signal i => if w.count i > 0 then w.goto p (.signalInc i) else w
    | .leave => w.goto p (.leaveUp (w.nextCount > 0))
  | .waitTest i => w.goto p (.waitUp i (w.nextCount > 0))
  | .waitUp i toNext => w.up (World.passOn toNext) p (.waitDown i)
  | .waitDown i => w.down (.cv i) p (.waitDec i) (.waiting i)
  | .waiting _ => w
  | .waitDec i => { w with count := update w.count i (w.count i - 1) }.goto p .body
  | .signalInc i => { w with nextCount := w.nextCount + 1 }.goto p (.signalUp i)
  | .signalUp i => w.up (.cv i) p (.signalDown i)
  | .signalDown i => w.down .next p (.signalDec i) (.signaling i)
  | .signaling _ => w
  | .signalDec _ => { w with nextCount := w.nextCount - 1 }.goto p .body
  | .leaveUp toNext => w.up (World.passOn toNext) p .outside

/-- Every interleaving of any number of processes. -/
inductive Reachable : World P n → Prop
  | init {w : World P n} (made : monitorInit P n = some w) : Reachable w
  | step {w : World P n} (reached : Reachable w) (p : P) (call : Call n) : Reachable (step w p call)

end LiNos.Monitor
