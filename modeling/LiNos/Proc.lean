import Mathlib.Algebra.Order.Ring.Int
import LiNos.CircularList
import LiNos.SiblingChain

/-!
Process management (proc.c, with `wakeup_proc` of sched.c and `hash32`).

A `Machine` holds every field of every `proc_struct` at once, so a pointer write
reaches exactly one field of one structure. Structures are named by their
address; `NULL` is `none`. The two intrusive lists, `proc_list` and the buckets
of `hash_list`, live in link stores of their own.

A function returns `none` when the code panics, fails an assertion or follows a
null pointer. The loops over linked lists take a bound on their steps, and
`none` is also what they return when it is used up; a run may choose the bound
anew at every call, so every computation that ends is one of the model.
-/

namespace LiNos.Proc

open CircularList SiblingChain Function

/-- `enum proc_state`. -/
inductive ProcState where
  | uninit
  | sleeping
  | runnable
  | zombie
deriving DecidableEq, Repr

/-- The link nodes of `proc_list`: its head and the `list_link` of each process. -/
inductive ListEntry where
  | procList
  | listLink (proc : ℕ)
deriving DecidableEq, Repr

/-- The link nodes of `hash_list`: its heads and the `hash_link` of each process. -/
inductive HashEntry where
  | hashList (i : ℕ)
  | hashLink (proc : ℕ)
deriving DecidableEq, Repr

def maxProcess : ℤ := 4096
def maxPid : ℤ := maxProcess * 2
def hashShift : ℕ := 10
def hashListSize : ℕ := 1 <<< hashShift

def pfExiting : ℕ := 0x00000001
def wtInterrupted : ℕ := 0x80000000
def wtChild : ℕ := 0x00000001 ||| wtInterrupted

def eBadProc : ℤ := 2
def eInval : ℤ := 3
def eNoMem : ℤ := 4
def eNoFreeProc : ℤ := 5
def eKilled : ℤ := 9

/-- The process table and the variables of proc.c; `lastPid` and `nextSafe` are
the statics of `get_pid`. -/
structure Machine where
  state : ℕ → ProcState
  pid : ℕ → ℤ
  parent : ℕ → Option ℕ
  flags : ℕ → ℕ
  exitCode : ℕ → ℤ
  waitState : ℕ → ℕ
  cptr : ℕ → Option ℕ
  yptr : ℕ → Option ℕ
  optr : ℕ → Option ℕ
  listLinks : Links ListEntry
  hashLinks : Links HashEntry
  nrProcess : ℤ
  idleproc : Option ℕ
  initproc : Option ℕ
  current : ℕ
  lastPid : ℤ
  nextSafe : ℤ

/-- `hash32`, with the product of two 32-bit numbers. -/
def hash32 (val bits : ℕ) : ℕ := (val * 0x9e370001 % 2 ^ 32) >>> (32 - bits)

/-- `pid_hashfn`; the `int` is passed as a `uint32_t`. -/
def pidHashfn (x : ℤ) : ℕ := hash32 (x % 2 ^ 32).toNat hashShift

/-- What `alloc_proc` writes into the structure it got. `exit_code` and the two
link fields keep what the memory held. -/
def allocProc (s : Machine) (proc : ℕ) : Machine :=
  { s with
    state := update s.state proc .uninit
    pid := update s.pid proc (-1)
    parent := update s.parent proc none
    flags := update s.flags proc 0
    waitState := update s.waitState proc 0
    cptr := update s.cptr proc none
    optr := update s.optr proc none
    yptr := update s.yptr proc none }

/-- `set_links`. -/
def setLinks (s : Machine) (proc : ℕ) : Option Machine := do
  let parent ← s.parent proc
  some { s with
    listLinks := listAdd s.listLinks .procList (.listLink proc)
    yptr := youngerPush s.yptr (s.cptr parent) proc
    optr := update s.optr proc (s.cptr parent)
    cptr := update s.cptr parent (some proc)
    nrProcess := s.nrProcess + 1 }

/-- `remove_links`; the parent is looked at only when no younger sibling is
there. -/
def removeLinks (s : Machine) (proc : ℕ) : Option Machine := do
  let parent ← if s.yptr proc = none then s.parent proc else some proc
  some { s with
    listLinks := listDel s.listLinks (.listLink proc)
    yptr := youngerRemove s.optr s.yptr proc
    optr := olderRemove s.optr s.yptr proc
    cptr := firstRemove s.optr s.yptr s.cptr parent proc
    nrProcess := s.nrProcess - 1 }

/-- The loop of `get_pid` behind `repeat:`, from the entry `le` on; the results
are `last_pid` and `next_safe`. -/
def getPidLoop (s : Machine) : ℕ → ListEntry → ℤ → ℤ → Option (ℤ × ℤ)
  | 0, _, _, _ => none
  | fuel + 1, le, lastPid, nextSafe =>
    match s.listLinks.next le with
    | .procList => some (lastPid, nextSafe)
    | .listLink proc =>
      if s.pid proc = lastPid then
        if nextSafe ≤ lastPid + 1 then
          -- goto repeat
          getPidLoop s fuel .procList (if maxPid ≤ lastPid + 1 then 1 else lastPid + 1) maxPid
        else getPidLoop s fuel (.listLink proc) (lastPid + 1) nextSafe
      else if lastPid < s.pid proc ∧ s.pid proc < nextSafe then
        getPidLoop s fuel (.listLink proc) lastPid (s.pid proc)
      else getPidLoop s fuel (.listLink proc) lastPid nextSafe

/-- `get_pid`. -/
def getPid (fuel : ℕ) (s : Machine) : Option (Machine × ℤ) :=
  if maxPid ≤ s.lastPid + 1 then do
    let (lastPid, nextSafe) ← getPidLoop s fuel .procList 1 maxPid
    some ({ s with lastPid := lastPid, nextSafe := nextSafe }, lastPid)
  else if s.nextSafe ≤ s.lastPid + 1 then do
    let (lastPid, nextSafe) ← getPidLoop s fuel .procList (s.lastPid + 1) maxPid
    some ({ s with lastPid := lastPid, nextSafe := nextSafe }, lastPid)
  else some ({ s with lastPid := s.lastPid + 1 }, s.lastPid + 1)

/-- `hash_proc`. -/
def hashProc (s : Machine) (proc : ℕ) : Machine :=
  { s with
    hashLinks := listAdd s.hashLinks (.hashList (pidHashfn (s.pid proc))) (.hashLink proc) }

/-- `unhash_proc`. -/
def unhashProc (s : Machine) (proc : ℕ) : Machine :=
  { s with hashLinks := listDel s.hashLinks (.hashLink proc) }

/-- The loop of `find_proc` over one bucket. -/
def findProcLoop (s : Machine) (pid : ℤ) (list : HashEntry) : ℕ → HashEntry → Option (Option ℕ)
  | 0, _ => none
  | fuel + 1, le =>
    if s.hashLinks.next le = list then some none
    else
      match s.hashLinks.next le with
      | .hashList _ => none
      | .hashLink proc =>
        if s.pid proc = pid then some (some proc)
        else findProcLoop s pid list fuel (.hashLink proc)

/-- `find_proc`. -/
def findProc (fuel : ℕ) (s : Machine) (pid : ℤ) : Option (Option ℕ) :=
  if 0 < pid ∧ pid < maxPid then
    findProcLoop s pid (.hashList (pidHashfn pid)) fuel (.hashList (pidHashfn pid))
  else some none

/-- `wakeup_proc`, without the run queue. -/
def wakeupProc (s : Machine) (proc : ℕ) : Option Machine :=
  if s.state proc = .zombie then none
  else if s.state proc = .runnable then some s
  else some { s with
    state := update s.state proc .runnable
    waitState := update s.waitState proc 0 }

/-- What `do_fork` asks the memory managers for: the structure `kmalloc` gives
`alloc_proc`, and whether `setup_kstack`, `copy_fs` and `copy_mm` succeed. -/
structure ForkResources where
  proc : Option ℕ
  kstack : Bool
  fs : Bool
  mm : Bool

/-- `alloc_proc()` and `proc->parent = current` of `do_fork`. -/
def newProc (s : Machine) (proc : ℕ) : Machine :=
  let s := allocProc s proc
  { s with parent := update s.parent proc (some s.current) }

/-- The end of `do_fork`, once the child has its resources: it gets a pid, enters
both lists and is woken. -/
def enterProc (fuel : ℕ) (s : Machine) (proc : ℕ) : Option (Machine × ℤ) := do
  let (s, pid) ← getPid fuel s
  let s := { s with pid := update s.pid proc pid }
  let s := hashProc s proc
  let s ← setLinks s proc
  let s ← wakeupProc s proc
  some (s, s.pid proc)

/-- `do_fork`; the result is the pid of the child or an error. -/
def doFork (fuel : ℕ) (s : Machine) (r : ForkResources) : Option (Machine × ℤ) :=
  if maxProcess ≤ s.nrProcess then some (s, -eNoFreeProc)
  else
    match r.proc with
    | none => some (s, -eNoMem)
    | some proc =>
      let s := newProc s proc
      if s.waitState s.current ≠ 0 then none
      else if r.kstack && r.fs && r.mm then enterProc fuel s proc
      else some (s, -eNoMem)

/-- One round of the loop of `do_exit`: the youngest child goes to `initproc`. -/
def reparent (s : Machine) (proc initproc : ℕ) : Machine :=
  let s := { s with cptr := update s.cptr s.current (s.optr proc) }
  { s with
    yptr := youngerPush s.yptr (s.cptr initproc) proc
    optr := update s.optr proc (s.cptr initproc)
    parent := update s.parent proc (some initproc)
    cptr := update s.cptr initproc (some proc) }

/-- `while (current->cptr != NULL)` of `do_exit`. -/
def exitLoop : ℕ → Machine → Option Machine
  | 0, _ => none
  | fuel + 1, s =>
    match s.cptr s.current with
    | none => some s
    | some proc => do
      let initproc ← s.initproc
      let s := reparent s proc initproc
      if s.state proc = .zombie ∧ s.waitState initproc = wtChild then
        let s ← wakeupProc s initproc
        exitLoop fuel s
      else exitLoop fuel s

/-- `do_exit`, up to its call of `schedule`. -/
def doExit (fuel : ℕ) (s : Machine) (errorCode : ℤ) : Option Machine :=
  if s.idleproc = some s.current ∨ s.initproc = some s.current then none
  else do
    let s := { s with
      state := update s.state s.current .zombie
      exitCode := update s.exitCode s.current errorCode }
    let parent ← s.parent s.current
    let s ← if s.waitState parent = wtChild then wakeupProc s parent else some s
    exitLoop fuel s

/-- The loop of `do_wait(0, …)` over the children from `proc` on: a zombie if
there is one, and whether a child was seen. -/
def findZombie (s : Machine) : ℕ → Option ℕ → Bool → Option (Option ℕ × Bool)
  | 0, _, _ => none
  | _ + 1, none, haskid => some (none, haskid)
  | fuel + 1, some proc, _ =>
    if s.state proc = .zombie then some (some proc, true)
    else findZombie s fuel (s.optr proc) true

/-- The search of `do_wait`, from `repeat:` to `found:`. -/
def waitSearch (fuel : ℕ) (s : Machine) (pid : ℤ) : Option (Option ℕ × Bool) :=
  if pid ≠ 0 then do
    match ← findProc fuel s pid with
    | none => some (none, false)
    | some proc =>
      if s.parent proc = some s.current then
        some (if s.state proc = .zombie then some proc else none, true)
      else some (none, false)
  else findZombie s fuel (s.cptr s.current) false

/-- The argument `code_store`: null, or an address `user_mem_check` accepts or
refuses. -/
inductive CodeStore where
  | null
  | user (mapped : Bool)
deriving DecidableEq, Repr

/-- How a pass through `do_wait` ends: with an error, in `schedule` (the process
starts over at `repeat:` when it runs again, unless it is killed), or with a
child gone and the exit code stored, if there is a place for it. -/
inductive WaitOutcome where
  | failed (err : ℤ)
  | blocked
  | reaped (proc : ℕ) (stored : Option ℤ)
deriving DecidableEq, Repr

/-- `do_wait` up to its return or its call of `schedule`. -/
def doWait (fuel : ℕ) (s : Machine) (pid : ℤ) (codeStore : CodeStore) :
    Option (Machine × WaitOutcome) :=
  if codeStore = .user false then some (s, .failed (-eInval))
  else do
    match ← waitSearch fuel s pid with
    | (none, false) => some (s, .failed (-eBadProc))
    | (none, true) =>
      some ({ s with
        state := update s.state s.current .sleeping
        waitState := update s.waitState s.current wtChild }, .blocked)
    | (some proc, _) =>
      if s.idleproc = some proc ∨ s.initproc = some proc then none
      else
        let s ← removeLinks (unhashProc s proc) proc
        some (s, .reaped proc (if codeStore = .null then none else some (s.exitCode proc)))

/-- The head of `do_kill`. Its loop ends after the first entry in any case, so
only that entry is compared, and it is unlinked in one direction. -/
def unlinkFirst (s : Machine) (pid : ℤ) : Machine :=
  match s.listLinks.next .procList with
  | .procList => s
  | .listLink pbcw =>
    if s.pid pbcw = pid then
      { s with
        listLinks :=
          { s.listLinks with
            next := update s.listLinks.next .procList
              (s.listLinks.next (.listLink pbcw)) } }
    else s

/-- `do_kill`. -/
def doKill (fuel : ℕ) (s : Machine) (pid : ℤ) : Option (Machine × ℤ) := do
  let s := unlinkFirst s pid
  match ← findProc fuel s pid with
  | none => some (s, -eInval)
  | some proc =>
    if s.flags proc &&& pfExiting = 0 then
      let s := { s with flags := update s.flags proc (s.flags proc ||| pfExiting) }
      if s.waitState proc &&& wtInterrupted ≠ 0 then
        let s ← wakeupProc s proc
        some (s, 0)
      else some (s, 0)
    else some (s, -eKilled)

/-- The loop of `proc_init` over `hash_list`. -/
def initHashList (links : Links HashEntry) : Links HashEntry :=
  (List.range hashListSize).foldl (fun links i => listInit links (.hashList i)) links

/-- The part of `proc_init` that sets up the lists and `idleproc`. -/
def initIdle (s : Machine) (idleproc : ℕ) : Machine :=
  let s := { s with
    listLinks := listInit s.listLinks .procList
    hashLinks := initHashList s.hashLinks }
  let s := allocProc s idleproc
  { s with
    pid := update s.pid idleproc 0
    state := update s.state idleproc .runnable
    nrProcess := s.nrProcess + 1
    idleproc := some idleproc
    current := idleproc }

/-- `proc_init`; `idle` is what `kmalloc` returns for `idleproc`. -/
def procInit (fuel : ℕ) (s : Machine) (idle : Option ℕ) (r : ForkResources) : Option Machine := do
  let idleproc ← idle
  let (s, pid) ← doFork fuel (initIdle s idleproc) r
  if pid ≤ 0 then none
  else
    let found ← findProc fuel s pid
    let initproc ← found
    let s := { s with initproc := some initproc }
    if s.pid idleproc = 0 ∧ s.pid initproc = 1 then some s else none

end LiNos.Proc
