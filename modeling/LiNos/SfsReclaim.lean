import Mathlib.Data.Fintype.Basic
import Mathlib.Data.List.Count
import Mathlib.Logic.Function.Basic
import Mathlib.Tactic.Simps.Basic
import LiNos.FsDefs
import LiNos.Tally

/-!
Loading and reclaiming inodes (`sfs_load_inode` and `sfs_reclaim` in sfs_inode.c,
`inode_ref_dec` in inode.c).

The last reference to an inode is dropped without the lock of the file system, and
`sfs_reclaim` then waits for it; meanwhile the inode is in the hash list and can be
found, referenced and dropped again. `reclaim_count` decides which of the calls of
`sfs_reclaim` frees it.

A process sleeps while it waits for the lock, and with the lock while a block is read
or written. Processes are any finite type. The hash lists are one list, in which the
first inode with a number is the first of its hash list. `handles` are the references
that callers hold, with what they have opened; `freed` counts for each inode how
often it was freed. Both are not in the code.
-/

namespace LiNos.SfsReclaim

open Kernel Fs Tally Function

/-- `struct inode` with the fields of `struct sfs_inode` that take part. -/
structure Node where
  ino : ℕ
  refCount : ℕ
  openCount : ℕ
  reclaimCount : ℕ

/-- Where a process stands. -/
inductive Call where
  | outside
  /-- `sfs_load_inode`, waiting for the lock. -/
  | load (ino : ℕ)
  /-- `sfs_load_inode`, reading the block with the lock. -/
  | read (ino : ℕ)
  /-- `sfs_reclaim`, waiting for the lock. -/
  | reclaim (node : ℕ)
  /-- `sfs_reclaim`, writing the inode back with the lock. -/
  | write (node : ℕ)
deriving DecidableEq, Repr

/-- A reference that a process holds, and whether it has opened the inode through it. -/
structure Handle (π : Type) where
  proc : π
  node : ℕ
  opened : Bool
deriving DecidableEq

structure Cache (π : Type) where
  node : ℕ → Node
  /-- The next inode that `alloc_inode` gives. -/
  next : ℕ
  hashList : List ℕ
  /-- The process that has the lock of the file system. -/
  lock : Option π
  call : π → Call
  handles : List (Handle π)
  freed : ℕ → ℕ

variable {π : Type} [DecidableEq π]

abbrev Op (π : Type) := Kernel Fault (Cache π)

/-! ## Writes -/

namespace Cache

variable (c : Cache π)

@[simps -fullyApplied] def setNode (o : ℕ) (node : Node) : Cache π :=
  { c with node := update c.node o node }

@[simps -fullyApplied] def setCall (p : π) (call : Call) : Cache π :=
  { c with call := update c.call p call }

@[simps -fullyApplied] def setLock (lock : Option π) : Cache π := { c with lock := lock }

@[simps -fullyApplied] def setHandles (handles : List (Handle π)) : Cache π :=
  { c with handles := handles }

end Cache

/-- `assert`. -/
def check (p : Prop) [Decidable p] : Op π Unit := require p .assertion

/-- `unlock_sfs_fs`, and the call returns. -/
def leave (p : π) : Op π Unit := modify fun c => (c.setLock none).setCall p .outside

/-! ## The code -/

/-- `lookup_sfs_nolock`. -/
def lookupSfsNolock (ino : ℕ) : Op π (Option ℕ) := do
  let c ← get
  match c.hashList.find? fun o => (c.node o).ino = ino with
  | none => pure none
  | some o => do
    modify fun c => c.setNode o { c.node o with
      refCount := (c.node o).refCount + 1
      reclaimCount :=
        if (c.node o).refCount + 1 = 1 then (c.node o).reclaimCount + 1 else (c.node o).reclaimCount }
    pure (some o)

/-- The caller of `sfs_load_inode` has a reference. -/
def take (p : π) (o : ℕ) : Op π Unit := modify fun c => c.setHandles (⟨p, o, false⟩ :: c.handles)

/-- `sfs_load_inode` with the lock, up to the read. -/
def loadLocked (p : π) (ino : ℕ) : Op π Unit := do
  match ← lookupSfsNolock ino with
  | some o => do
    take p o
    leave p
  | none => modify fun c => c.setCall p (.read ino)

/-- `sfs_load_inode` behind the read: `sfs_create_inode` and `sfs_set_links`. -/
def loadRead (p : π) (ino : ℕ) (ok : Bool) : Op π Unit :=
  if ok then do
    let c ← get
    modify fun c => { c.setNode c.next ⟨ino, 1, 0, 1⟩ with
      next := c.next + 1, hashList := c.next :: c.hashList }
    take p c.next
    leave p
  else leave p

/-- `sfs_reclaim` with the lock, up to the write. -/
def reclaimLocked (p : π) (o : ℕ) : Op π Unit := do
  let c ← get
  check (0 < (c.node o).reclaimCount)
  modify fun c => c.setNode o { c.node o with reclaimCount := (c.node o).reclaimCount - 1 }
  if (c.node o).reclaimCount - 1 ≠ 0 ∨ (c.node o).refCount ≠ 0 then leave p
  else modify fun c => c.setCall p (.write o)

/-- `sfs_reclaim` behind the write, with `inode_kill`. -/
def reclaimWritten (p : π) (o : ℕ) : Op π Unit := do
  modify fun c => { c with hashList := c.hashList.erase o }
  leave p
  let c ← get
  check ((c.node o).refCount = 0)
  check ((c.node o).openCount = 0)
  modify fun c => { c with freed := update c.freed o (c.freed o + 1) }

/-- A change of `ref_count`. -/
def onRefCount (o : ℕ) (count : Kernel Fault ℕ Unit) : Op π Unit :=
  zoom (fun c => (c.node o).refCount) (fun c n => c.setNode o { c.node o with refCount := n }) count

/-- A change of `open_count`. -/
def onOpenCount (o : ℕ) (count : Kernel Fault ℕ Unit) : Op π Unit :=
  zoom (fun c => (c.node o).openCount) (fun c n => c.setNode o { c.node o with openCount := n }) count

/-- `inode_ref_inc`, by a process that has a reference. -/
def inodeRefInc (h : Handle π) : Op π Unit := do
  onRefCount h.node countUp
  modify fun c => c.setHandles (⟨h.proc, h.node, false⟩ :: c.handles)

/-- `inode_ref_dec`. -/
def inodeRefDec (h : Handle π) : Op π Unit := do
  onRefCount h.node (countDown .assertion)
  modify fun c => c.setHandles (c.handles.erase h)
  let c ← get
  if (c.node h.node).refCount = 0 then modify fun c => c.setCall h.proc (.reclaim h.node)

/-- `inode_open_inc`. -/
def inodeOpenInc (h : Handle π) : Op π Unit := do
  onOpenCount h.node countUp
  modify fun c => c.setHandles (⟨h.proc, h.node, true⟩ :: c.handles.erase h)

/-- `inode_open_dec`. -/
def inodeOpenDec (h : Handle π) : Op π Unit := do
  onOpenCount h.node (countDown .assertion)
  modify fun c => c.setHandles (⟨h.proc, h.node, false⟩ :: c.handles.erase h)

/-! ## Steps -/

inductive Event (π : Type) where
  /-- A process calls `sfs_load_inode`. -/
  | load (p : π) (ino : ℕ)
  /-- A process that waits for the lock gets it. -/
  | lock (p : π)
  /-- The disk answers; a write succeeds. -/
  | disk (p : π) (ok : Bool)
  | refInc (h : Handle π)
  | refDec (h : Handle π)
  | openInc (h : Handle π)
  | openDec (h : Handle π)

def Ready (c : Cache π) : Event π → Prop
  | .load p _ => c.call p = .outside
  | .lock p => c.lock = none ∧ ((∃ ino, c.call p = .load ino) ∨ ∃ o, c.call p = .reclaim o)
  | .disk p _ => (∃ ino, c.call p = .read ino) ∨ ∃ o, c.call p = .write o
  | .refInc h => c.call h.proc = .outside ∧ h ∈ c.handles
  | .refDec h => c.call h.proc = .outside ∧ h ∈ c.handles ∧ h.opened = false
  | .openInc h => c.call h.proc = .outside ∧ h ∈ c.handles ∧ h.opened = false
  | .openDec h => c.call h.proc = .outside ∧ h ∈ c.handles ∧ h.opened = true

def perform : Event π → Op π Unit
  | .load p ino => modify fun c => c.setCall p (.load ino)
  | .lock p => do
    let c ← get
    modify fun c => c.setLock (some p)
    match c.call p with
    | .load ino => loadLocked p ino
    | .reclaim o => reclaimLocked p o
    | _ => pure ()
  | .disk p ok => do
    let c ← get
    match c.call p with
    | .read ino => loadRead p ino ok
    | .write o => reclaimWritten p o
    | _ => pure ()
  | .refInc h => inodeRefInc h
  | .refDec h => inodeRefDec h
  | .openInc h => inodeOpenInc h
  | .openDec h => inodeOpenDec h

/-- A file system that was just mounted. -/
def mounted : Cache π where
  node := fun _ => ⟨0, 0, 0, 0⟩
  next := 0
  hashList := []
  lock := none
  call := fun _ => .outside
  handles := []
  freed := fun _ => 0

/-- The states that are reached. -/
inductive Run : Cache π → Prop
  | mounted : Run mounted
  | step {c c' : Cache π} {e : Event π} (run : Run c) (ready : Ready c e)
      (ran : perform e c = .ok () c') : Run c'

end LiNos.SfsReclaim
