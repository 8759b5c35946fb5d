import LiNos.SfsReach

/-!
One regular file behind several descriptors (file.c, vfs_open and the file operations
of sfs_inode.c).

A call sleeps where it waits for the lock of the inode. It has fixed what it is going to
do by then: a read or write its position, a truncation its length. So a call is two
steps, up to the lock and behind it, and other calls run in between. Behind the lock
nothing that other calls look at without it, the size, changes before the end, so that
part is one step.

`sfs_truncfile` of the length the file has returns without the lock; its assertion about
the number of blocks is not part of this model and may be thought to hold or to fail,
since the run ends when it fails.
-/

namespace LiNos.Fs

open Kernel Function

/-- `open_flags`; the access mode is one of the three that `file_open` accepts. -/
structure OpenFlags where
  readable : Bool
  writable : Bool
  create : Bool
  excl : Bool
  trunc : Bool
  append : Bool

/-- The refusals of `file_open` and `vfs_open` for a file that exists. -/
def OpenFlags.refused (flags : OpenFlags) : Bool :=
  (!flags.readable && !flags.writable) || (flags.trunc && !flags.writable) || (flags.excl && flags.create)

/-- `open_flags & O_TRUNC || create`. -/
def OpenFlags.empties (flags : OpenFlags) : Bool := flags.trunc || flags.create

/-- The fields of `struct file`. -/
structure File where
  pos : ℤ
  readable : Bool
  writable : Bool

/-- An entry of a descriptor table, by its `status`. -/
inductive Slot where
  | none
  | init
  | opened (file : File)

/-- `whence` of `file_seek`. -/
inductive Whence where
  | set
  | cur
  | fromEnd

/-- A call that waits for the lock of the inode. -/
inductive Waiting (δ : Type) where
  | io (fd : δ) (write : Bool) (offset : ℤ) (len : ℕ) (mem : Block)
  | seek (fd : δ) (pos : ℤ)
  | empty (fd : δ) (flags : OpenFlags)

/-- The descriptor a waiting call uses. -/
def Waiting.fd {δ : Type} : Waiting δ → δ
  | .io fd _ _ _ _ => fd
  | .seek fd _ => fd
  | .empty fd _ => fd

/-- The file, the descriptors `δ` on it, and what the processes `π` wait for. -/
structure Shared (δ π : Type) where
  ctx : Ctx
  slots : δ → Slot
  waiting : π → Option (Waiting δ)

inductive SharedEvent (δ π : Type) where
  | fileOpen (proc : π) (fd : δ) (flags : OpenFlags)
  | fileRead (proc : π) (fd : δ) (len : ℕ)
  | fileWrite (proc : π) (fd : δ) (len : ℕ) (mem : Block)
  | fileSeek (proc : π) (fd : δ) (pos : ℤ) (whence : Whence)
  | fdArrayDup (fd target : δ)
  | locked (proc : π)
  | elsewhere (vol : Vol)

namespace Shared

variable {δ π : Type} [DecidableEq δ] [DecidableEq π]

@[simps -fullyApplied] def setCtx (s : Shared δ π) (ctx : Ctx) : Shared δ π := { s with ctx := ctx }

@[simps -fullyApplied] def setSlot (s : Shared δ π) (fd : δ) (slot : Slot) : Shared δ π :=
  { s with slots := update s.slots fd slot }

@[simps -fullyApplied] def setWaiting (s : Shared δ π) (proc : π) (call : Option (Waiting δ)) :
    Shared δ π :=
  { s with waiting := update s.waiting proc call }

/-- The end of `file_open`. -/
def opened (s : Shared δ π) (fd : δ) (flags : OpenFlags) : Shared δ π :=
  s.setSlot fd (.opened { flags with pos := if flags.append then s.ctx.sin.din.size else 0 })

/-- `file_open`, up to the lock. -/
def fileOpen (s : Shared δ π) (proc : π) (fd : δ) (flags : OpenFlags) : Shared δ π :=
  match s.slots fd with
  | .none =>
    if flags.refused then s
    else if flags.empties ∧ s.ctx.sin.din.size ≠ 0 then
      (s.setSlot fd .init).setWaiting proc (some (.empty fd flags))
    else s.opened fd flags
  | _ => s

/-- `file_read` and `file_write`, up to the lock. -/
def fileIo (s : Shared δ π) (proc : π) (fd : δ) (write : Bool) (len : ℕ) (mem : Block) : Shared δ π :=
  match s.slots fd with
  | .opened file =>
    if (if write then file.writable else file.readable) then
      s.setWaiting proc (some (.io fd write file.pos len mem))
    else s
  | _ => s

/-- The position `file_seek` asks for. -/
def seekPos (s : Shared δ π) (file : File) (pos : ℤ) : Whence → ℤ
  | .set => pos
  | .cur => Int.bmod (pos + file.pos) (2 ^ 32)
  | .fromEnd => Int.bmod (pos + s.ctx.sin.din.size) (2 ^ 32)

/-- `file_seek` with `sfs_tryseek`, up to the lock. -/
def fileSeek (s : Shared δ π) (proc : π) (fd : δ) (pos : ℤ) (whence : Whence) : Shared δ π :=
  match s.slots fd with
  | .opened file =>
    let pos := s.seekPos file pos whence
    if pos < 0 ∨ (maxFileSize : ℤ) ≤ pos then s
    else if s.ctx.sin.din.size < pos.toNat then s.setWaiting proc (some (.seek fd pos))
    else s.setSlot fd (.opened { file with pos := pos })
  | _ => s

/-- `fd_array_dup`. -/
def fdArrayDup (s : Shared δ π) (fd target : δ) : Shared δ π :=
  match s.slots fd, s.slots target with
  | .opened file, .none => s.setSlot target (.opened file)
  | _, _ => s

/-- The end of `file_read` and `file_write`. -/
def advance (s : Shared δ π) (fd : δ) (copied : ℕ) : Shared δ π :=
  match s.slots fd with
  | .opened file => s.setSlot fd (.opened { file with pos := file.pos + copied })
  | _ => s

/-- The end of `file_seek`. -/
def moveTo (s : Shared δ π) (fd : δ) (pos : ℤ) : Shared δ π :=
  match s.slots fd with
  | .opened file => s.setSlot fd (.opened { file with pos := pos })
  | _ => s

/-- A waiting call from the lock on. -/
def run (s : Shared δ π) (proc : π) : Waiting δ → Outcome Fault (Shared δ π) Unit
  | .io fd write offset len mem => (sfsIo write (iobufInit len offset) mem s.ctx).conclude
      (fun moved c => ((s.setWaiting proc none).setCtx c).advance fd moved.iob.used)
      (fun c => (s.setWaiting proc none).setCtx c)
  | .seek fd pos => (truncLocked pos.toNat s.ctx).conclude
      (fun _ c => ((s.setWaiting proc none).setCtx c).moveTo fd pos)
      (fun c => (s.setWaiting proc none).setCtx c)
  | .empty fd flags => (truncLocked 0 s.ctx).conclude
      (fun _ c => ((s.setWaiting proc none).setCtx c).opened fd flags)
      (fun c => ((s.setWaiting proc none).setCtx c).setSlot fd .none)

/-- A process that waits does nothing else. -/
def ifIdle (s : Shared δ π) (proc : π) (t : Shared δ π) : Shared δ π :=
  match s.waiting proc with
  | none => t
  | some _ => s

/-- The process gets the lock it waits for. -/
def resume (s : Shared δ π) (proc : π) : Outcome Fault (Shared δ π) Unit :=
  match s.waiting proc with
  | some call => s.run proc call
  | none => .ok () s

/-- One step. An event that cannot happen changes nothing. -/
def step (s : Shared δ π) : SharedEvent δ π → Outcome Fault (Shared δ π) Unit
  | .fileOpen proc fd flags => .ok () (s.ifIdle proc (s.fileOpen proc fd flags))
  | .fileRead proc fd len => .ok () (s.ifIdle proc (s.fileIo proc fd false len zeroBlock))
  | .fileWrite proc fd len mem => .ok () (s.ifIdle proc (s.fileIo proc fd true len mem))
  | .fileSeek proc fd pos whence => .ok () (s.ifIdle proc (s.fileSeek proc fd pos whence))
  | .fdArrayDup fd target => .ok () (s.fdArrayDup fd target)
  | .locked proc => s.resume proc
  | .elsewhere vol => .ok () (s.setCtx (s.ctx.setVol vol))

/-- One event after the other, whatever the calls return. -/
def runs (s : Shared δ π) : List (SharedEvent δ π) → Outcome Fault (Shared δ π) Unit
  | [] => .ok () s
  | event :: rest =>
    match s.step event with
    | .ok _ t => t.runs rest
    | .err _ t => t.runs rest
    | .fault reason => .fault reason

end Shared

/-! ## When a truncation is harmless -/

section Runs

variable {δ π : Type} [DecidableEq δ] [DecidableEq π] {s s' start : Shared δ π} {fd : δ}
  {flags : OpenFlags} {proc : π} {mem : Block} {len : ℕ} {write : Bool} {pos : ℤ}

/-- No call of another process uses the descriptor. -/
def Shared.Alone (s : Shared δ π) (fd : δ) : Prop := ∀ proc call, s.waiting proc = some call → call.fd ≠ fd

/-- A truncation to `len` bytes that takes blocks away leaves no position of another
descriptor for writing behind the block after the last one, and the device answers it. -/
def Shared.SparesOthers (s : Shared δ π) (fd : δ) (len : ℕ) : Prop :=
  roundupDiv len blkSize < s.ctx.sin.din.blocks →
    Willing s.ctx.vol ∧ ∀ other file, other ≠ fd → s.slots other = .opened file → file.writable = true →
      file.pos.toNat / blkSize ≤ roundupDiv len blkSize

/-- The condition on what a waiting call is going to do. -/
def Shared.Spares (s : Shared δ π) : Waiting δ → Prop
  | .io _ _ _ _ _ => True
  | .seek fd pos => s.SparesOthers fd pos.toNat
  | .empty fd _ => s.SparesOthers fd 0

/-- The condition on a step. -/
def SharedEvent.Careful (s : Shared δ π) : SharedEvent δ π → Prop
  | .fileRead _ fd _ => s.Alone fd
  | .fileWrite _ fd _ _ => s.Alone fd
  | .fileSeek _ fd _ _ => s.Alone fd
  | .locked proc => ∀ call, s.waiting proc = some call → s.Spares call
  | _ => True

/-- The states reached from `start` by careful steps. -/
inductive SharedRun (start : Shared δ π) : Shared δ π → Prop
  | start : SharedRun start start
  | step {s s' : Shared δ π} (event : SharedEvent δ π) : SharedRun start s → event.Careful s →
      (s.step event).Leaves s' → SharedRun start s'

/-- A consistent file that no descriptor is open on yet. -/
structure Shared.Fresh (s : Shared δ π) : Prop where
  blocks : s.ctx.sin.din.blocks = roundupDiv s.ctx.sin.din.size blkSize
  slots : ∀ fd, s.slots fd = .none
  waiting : ∀ proc, s.waiting proc = none

/-! ## What every careful run keeps -/

/-- The map reaches the position, if the descriptor is open for writing. -/
def Slot.Covered (c : Ctx) (slot : Slot) : Prop :=
  ∀ file, slot = .opened file → file.writable = true → Reaches c file.pos.toNat

/-- The map reaches the size and the position of every descriptor for writing, each waiting
call is the only one on its descriptor, and the position it has fixed is still that of the
descriptor. -/
structure Steady (s : Shared δ π) : Prop where
  size : Reaches s.ctx s.ctx.sin.din.size
  slots : ∀ fd, (s.slots fd).Covered s.ctx
  only : ∀ p q a b, s.waiting p = some a → s.waiting q = some b → a.fd = b.fd → p = q
  held : ∀ p a, s.waiting p = some a → s.slots a.fd ≠ .none
  fixed : ∀ p fd write offset len mem, s.waiting p = some (.io fd write offset len mem) →
    ∃ file, s.slots fd = .opened file ∧ file.pos = offset ∧ (write = true → file.writable = true)
  reserved : ∀ p fd flags, s.waiting p = some (.empty fd flags) → s.slots fd = .init

theorem roundupDiv_reaches (n : ℕ) : n / blkSize ≤ roundupDiv n blkSize := by
  unfold roundupDiv blkSize
  omega

omit [DecidableEq δ] [DecidableEq π] in
theorem Shared.Fresh.steady (fresh : start.Fresh) : Steady start := by
  refine ⟨?_, ?_, ?_, ?_, ?_, ?_⟩
  · unfold Reaches
    rw [fresh.blocks]
    exact roundupDiv_reaches _
  · intro fd file opened
    rw [fresh.slots] at opened
    cases opened
  · intro p q a b waits
    rw [fresh.waiting] at waits
    cases waits
  · intro p a waits
    rw [fresh.waiting] at waits
    cases waits
  · intro p fd write offset len mem waits
    rw [fresh.waiting] at waits
    cases waits
  · intro p fd flags waits
    rw [fresh.waiting] at waits
    cases waits

section

variable (steady : Steady s)

include steady

omit [DecidableEq δ] in
/-- A call begins to wait on a descriptor that nobody else waits on. -/
theorem Steady.wait {proc : π} {call : Waiting δ} (idle : s.waiting proc = none)
    (alone : s.Alone call.fd) (held : s.slots call.fd ≠ .none)
    (fixed : ∀ fd write offset len mem, call = .io fd write offset len mem →
      ∃ file, s.slots fd = .opened file ∧ file.pos = offset ∧ (write = true → file.writable = true))
    (reserved : ∀ fd flags, call = .empty fd flags → s.slots fd = .init) :
    Steady (s.setWaiting proc (some call)) := by
  have waiter : ∀ p a, (s.setWaiting proc (some call)).waiting p = some a →
      (p = proc ∧ a = call) ∨ (p ≠ proc ∧ s.waiting p = some a) := by
    intro p a waits
    by_cases same : p = proc
    · subst same
      rw [Shared.setWaiting_waiting, update_self] at waits
      exact .inl ⟨rfl, (Option.some.inj waits).symm⟩
    · rw [Shared.setWaiting_waiting, update_of_ne same] at waits
      exact .inr ⟨same, waits⟩
  refine ⟨steady.size, steady.slots, ?_, ?_, ?_, ?_⟩
  · intro p q a b first second shared
    rcases waiter p a first with ⟨rfl, rfl⟩ | ⟨-, old⟩
    · rcases waiter q b second with ⟨rfl, -⟩ | ⟨-, old'⟩
      · rfl
      · exact absurd shared.symm (alone q b old')
    · rcases waiter q b second with ⟨rfl, rfl⟩ | ⟨-, old'⟩
      · exact absurd shared (alone p a old)
      · exact steady.only p q a b old old' shared
  · intro p a waits
    rcases waiter p a waits with ⟨rfl, rfl⟩ | ⟨-, old⟩
    · exact held
    · exact steady.held p a old
  · intro p fd write offset len mem waits
    rcases waiter p _ waits with ⟨-, same⟩ | ⟨-, old⟩
    · exact fixed fd write offset len mem same.symm
    · exact steady.fixed p fd write offset len mem old
  · intro p fd flags waits
    rcases waiter p _ waits with ⟨-, same⟩ | ⟨-, old⟩
    · exact reserved fd flags same.symm
    · exact steady.reserved p fd flags old

omit [DecidableEq π] in
/-- A descriptor changes that nobody waits on. -/
theorem Steady.setSlot {slot : Slot} (alone : s.Alone fd) (covered : slot.Covered s.ctx) :
    Steady (s.setSlot fd slot) := by
  refine ⟨steady.size, ?_, steady.only, ?_, ?_, ?_⟩
  · intro other
    rw [Shared.setSlot_slots]
    by_cases same : other = fd
    · rw [same, update_self]
      exact covered
    · rw [update_of_ne same]
      exact steady.slots other
  · intro p a waits
    rw [Shared.setSlot_slots, update_of_ne (alone p a waits)]
    exact steady.held p a waits
  · intro p other write offset len mem waits
    have apart : other ≠ fd := alone p _ waits
    rw [Shared.setSlot_slots, update_of_ne apart]
    exact steady.fixed p other write offset len mem waits
  · intro p other flags waits
    have apart : other ≠ fd := alone p _ waits
    rw [Shared.setSlot_slots, update_of_ne apart]
    exact steady.reserved p other flags waits

omit [DecidableEq δ] in
/-- A call has come back: nobody waits on its descriptor any more. -/
theorem Steady.returned {proc : π} {call : Waiting δ}
    (waits : s.waiting proc = some call) :
    (s.setWaiting proc none).Alone call.fd ∧ Steady (s.setWaiting proc none) := by
  have old : ∀ p a, (s.setWaiting proc none).waiting p = some a → p ≠ proc ∧ s.waiting p = some a := by
    intro p a still
    by_cases same : p = proc
    · rw [same, Shared.setWaiting_waiting, update_self] at still
      cases still
    · rw [Shared.setWaiting_waiting, update_of_ne same] at still
      exact ⟨same, still⟩
  refine ⟨?_, steady.size, steady.slots, ?_, ?_, ?_, ?_⟩
  · intro p a still shared
    obtain ⟨other, before⟩ := old p a still
    exact other (steady.only p proc a call before waits shared)
  · intro p q a b first second
    exact steady.only p q a b (old p a first).2 (old q b second).2
  · intro p a still
    exact steady.held p a (old p a still).2
  · intro p fd write offset len mem still
    exact steady.fixed p fd write offset len mem (old p _ still).2
  · intro p fd flags still
    exact steady.reserved p fd flags (old p _ still).2

omit [DecidableEq δ] [DecidableEq π] in
/-- The file changes, and its map still reaches everything. -/
theorem Steady.setCtx {c : Ctx} (size : Reaches c c.sin.din.size)
    (slots : ∀ fd, (s.slots fd).Covered c) : Steady (s.setCtx c) :=
  { steady with size := size, slots := slots }

omit [DecidableEq π] in
theorem Steady.opened {fd : δ} {flags : OpenFlags} (alone : s.Alone fd) :
    Steady (s.opened fd flags) := by
  apply steady.setSlot alone
  rintro file ⟨⟩ -
  split_ifs with append
  · rw [Int.toNat_natCast]
    exact steady.size
  · exact steady.size.mono (Nat.zero_le _) le_rfl

/-! ## Up to the lock -/

theorem Steady.fileOpen (idle : s.waiting proc = none) : Steady (s.fileOpen proc fd flags) := by
  unfold Shared.fileOpen
  cases slot : s.slots fd with
  | none =>
    have alone : s.Alone fd := by
      rintro p a waits rfl
      exact steady.held p a waits slot
    by_cases refused : flags.refused = true
    · rw [if_pos refused]
      exact steady
    · rw [if_neg refused]
      split_ifs with empties
      · have reserved : Steady (s.setSlot fd .init) := by
          apply steady.setSlot alone
          rintro file ⟨⟩
        have init : (s.setSlot fd .init).slots fd = .init := by
          rw [Shared.setSlot_slots, update_self]
        refine reserved.wait idle alone ?_ ?_ ?_
        · change (s.setSlot fd .init).slots fd ≠ .none
          rw [init]
          intro same
          cases same
        · intro _ _ _ _ _ same
          cases same
        · intro _ _ same
          cases same
          exact init
      · exact steady.opened alone
  | init => exact steady
  | opened file => exact steady

omit [DecidableEq δ] in
theorem Steady.fileIo
    (idle : s.waiting proc = none) (alone : s.Alone fd) : Steady (s.fileIo proc fd write len mem) := by
  unfold Shared.fileIo
  cases slot : s.slots fd with
  | none => exact steady
  | init => exact steady
  | opened file =>
    dsimp only
    by_cases allowed : (if write = true then file.writable else file.readable) = true
    · rw [if_pos allowed]
      refine steady.wait idle alone ?_ ?_ ?_
      · change s.slots fd ≠ .none
        rw [slot]
        intro same
        cases same
      · intro _ _ _ _ _ same
        cases same
        refine ⟨file, slot, rfl, fun writes => ?_⟩
        rwa [writes, if_pos rfl] at allowed
      · intro _ _ same
        cases same
    · rw [if_neg allowed]
      exact steady

theorem Steady.fileSeek {whence : Whence}
    (idle : s.waiting proc = none) (alone : s.Alone fd) : Steady (s.fileSeek proc fd pos whence) := by
  unfold Shared.fileSeek
  cases slot : s.slots fd with
  | none => exact steady
  | init => exact steady
  | opened file =>
    dsimp only
    obtain ⟨target, eq⟩ : ∃ target, target = s.seekPos file pos whence := ⟨_, rfl⟩
    rw [← eq]
    split
    · exact steady
    · split_ifs with beyond
      · refine steady.wait idle alone ?_ ?_ ?_
        · change s.slots fd ≠ .none
          rw [slot]
          intro same
          cases same
        · intro _ _ _ _ _ same
          cases same
        · intro _ _ same
          cases same
      · apply steady.setSlot alone
        rintro other ⟨⟩ -
        exact steady.size.mono (not_lt.mp beyond) le_rfl

omit [DecidableEq π] in
theorem Steady.fdArrayDup {target : δ} : Steady (s.fdArrayDup fd target) := by
  unfold Shared.fdArrayDup
  split
  · rename_i file opened free
    apply steady.setSlot
    · rintro p a waits rfl
      exact steady.held p a waits free
    · rintro other ⟨⟩
      exact steady.slots fd file opened
  · exact steady

/-! ## Behind the lock -/

/-- A read or write. -/
theorem Steady.runIo {offset : ℤ} (waits : s.waiting proc = some (.io fd write offset len mem)) :
    (s.run proc (.io fd write offset len mem)).Ends (fun _ => Steady) (fun _ => Steady) Harmless := by
  obtain ⟨alone, back⟩ := steady.returned waits
  obtain ⟨file, opened, rfl, allowed⟩ := steady.fixed proc fd write offset len mem waits
  apply Ends.conclude (sfsIo_left steady.size fun writes => steady.slots fd file opened (allowed writes))
  · rintro moved c ⟨left, -⟩
    have after : Steady ((s.setWaiting proc none).setCtx c) := by
      apply back.setCtx left.size
      intro other file opened writable
      exact (steady.slots other file opened writable).mono le_rfl left.grown
    have slot : ((s.setWaiting proc none).setCtx c).slots fd = .opened file := opened
    unfold Shared.advance
    rw [slot]
    apply after.setSlot alone
    rintro other ⟨⟩ writable
    change Reaches c (file.pos + moved.iob.used).toNat
    exact (left.next (steady.slots fd file opened writable)).mono (by omega) le_rfl
  · intro _ _ never
    exact never.elim

omit [DecidableEq δ] [DecidableEq π] in
/-- What a truncation that spares the other descriptors leaves them. -/
theorem Steady.truncated {fd : δ} {len : ℕ} (spares : s.SparesOthers fd len) :
    (truncLocked len s.ctx).Ends
      (fun _ c => Reaches c c.sin.din.size ∧ Reaches c len ∧
        ∀ other, other ≠ fd → (s.slots other).Covered c)
      (fun _ c => Reaches c c.sin.din.size ∧ ∀ other, (s.slots other).Covered c) Harmless := by
  apply Ends.mono (truncLocked_left steady.size fun fewer => (spares fewer).1)
  · rintro - c ⟨size, blocks⟩
    have reaches : Reaches c len := by
      unfold Reaches
      rw [blocks]
      exact roundupDiv_reaches len
    refine ⟨by rw [size]; exact reaches, reaches, ?_⟩
    intro other apart file opened writable
    by_cases fewer : roundupDiv len blkSize < s.ctx.sin.din.blocks
    · unfold Reaches
      rw [blocks]
      exact (spares fewer).2 other file apart opened writable
    · apply (steady.slots other file opened writable).mono le_rfl
      rw [blocks]
      omega
  · rintro e c ⟨size, grown⟩
    exact ⟨size, fun other file opened writable => (steady.slots other file opened writable).mono le_rfl grown⟩

theorem Steady.runSeek
    (waits : s.waiting proc = some (.seek fd pos)) (spares : s.SparesOthers fd pos.toNat) :
    (s.run proc (.seek fd pos)).Ends (fun _ => Steady) (fun _ => Steady) Harmless := by
  obtain ⟨alone, back⟩ := steady.returned waits
  apply Ends.conclude (steady.truncated spares)
  · rintro - c ⟨size, reaches, others⟩
    unfold Shared.moveTo
    cases slot : ((s.setWaiting proc none).setCtx c).slots fd with
    | none => exact absurd slot (steady.held proc _ waits)
    | init =>
      apply back.setCtx size
      intro other file opened
      apply others other _ file opened
      rintro rfl
      rw [Shared.setCtx_slots, Shared.setWaiting_slots] at slot
      rw [Shared.setWaiting_slots, slot] at opened
      cases opened
    | opened file =>
      -- the descriptor is set to the new length first, then the file is cut
      have moved : Steady ((s.setWaiting proc none).setSlot fd (.opened { file with pos := 0 })) := by
        apply back.setSlot alone
        rintro other ⟨⟩ -
        exact steady.size.mono (Nat.zero_le _) le_rfl
      have cut : Steady (((s.setWaiting proc none).setSlot fd (.opened { file with pos := 0 })).setCtx c) := by
        apply moved.setCtx size
        intro other
        rw [Shared.setSlot_slots]
        by_cases same : other = fd
        · rw [same, update_self]
          rintro old ⟨⟩ -
          exact size.mono (Nat.zero_le _) le_rfl
        · rw [update_of_ne same]
          exact others other same
      have placed := @Steady.setSlot _ _ _ _ fd cut (.opened { file with pos := pos }) alone (by
        rintro other ⟨⟩ -
        exact reaches)
      have same : ((s.setWaiting proc none).setCtx c).setSlot fd (.opened { file with pos := pos }) =
          (((s.setWaiting proc none).setSlot fd (.opened { file with pos := 0 })).setCtx c).setSlot fd
            (.opened { file with pos := pos }) := by
        simp [Shared.setSlot, Shared.setCtx, Shared.setWaiting]
      dsimp only
      rw [same]
      exact placed
  · rintro _ c ⟨size, others⟩
    exact back.setCtx size others

theorem Steady.runEmpty
    (waits : s.waiting proc = some (.empty fd flags)) (spares : s.SparesOthers fd 0) :
    (s.run proc (.empty fd flags)).Ends (fun _ => Steady) (fun _ => Steady) Harmless := by
  have init := steady.reserved proc fd flags waits
  obtain ⟨alone, back⟩ := steady.returned waits
  apply Ends.conclude (steady.truncated spares)
  · rintro - c ⟨size, -, others⟩
    have after : Steady ((s.setWaiting proc none).setCtx c) := by
      apply back.setCtx size
      intro other file opened
      apply others other _ file opened
      rintro rfl
      rw [Shared.setWaiting_slots, init] at opened
      cases opened
    exact after.opened alone
  · rintro _ c ⟨size, others⟩
    have after : Steady ((s.setWaiting proc none).setCtx c) := back.setCtx size others
    apply after.setSlot alone
    rintro file ⟨⟩

/-! ## Every careful run -/

omit [DecidableEq δ] [DecidableEq π] in
theorem Steady.ifIdle {t : Shared δ π}
    (kept : s.waiting proc = none → Steady t) : Steady (s.ifIdle proc t) := by
  unfold Shared.ifIdle
  cases waits : s.waiting proc with
  | none => exact kept waits
  | some _ => exact steady

theorem Steady.resume {proc : π}
    (spares : ∀ call, s.waiting proc = some call → s.Spares call) :
    (s.resume proc).Ends (fun _ => Steady) (fun _ => Steady) Harmless := by
  unfold Shared.resume
  cases waits : s.waiting proc with
  | none => exact steady
  | some call =>
    have careful := spares call waits
    cases call with
    | io fd write offset len mem => exact steady.runIo waits
    | seek fd pos => exact steady.runSeek waits careful
    | empty fd flags => exact steady.runEmpty waits careful

/-- A careful step does not run past the last block, and what it leaves is steady. -/
theorem Steady.step (event : SharedEvent δ π) (careful : event.Careful s) :
    (s.step event).Ends (fun _ => Steady) (fun _ => Steady) Harmless := by
  cases event with
  | fileOpen proc fd flags => exact steady.ifIdle steady.fileOpen
  | fileRead proc fd len => exact steady.ifIdle fun idle => steady.fileIo idle careful
  | fileWrite proc fd len mem => exact steady.ifIdle fun idle => steady.fileIo idle careful
  | fileSeek proc fd pos whence => exact steady.ifIdle fun idle => steady.fileSeek idle careful
  | fdArrayDup fd target => exact steady.fdArrayDup
  | locked proc => exact steady.resume careful
  | elsewhere vol => exact steady.setCtx steady.size steady.slots

end

/-- A last step, with what is to hold after it. -/
theorem SharedRun.finish {Q : Shared δ π → Prop} (run : SharedRun start s) (event : SharedEvent δ π)
    (careful : event.Careful s) (ends : (s.step event).Ends (fun _ => Q) (fun _ _ => False) (fun _ => False)) :
    ∃ t, SharedRun start t ∧ Q t := by
  obtain ⟨a, t, ran, holds⟩ := Ends.returned ends
  exact ⟨t, run.step event careful (.inl ⟨a, ran⟩), holds⟩

theorem SharedRun.steady (run : SharedRun start s) (fresh : start.Fresh) : Steady s := by
  induction run with
  | start => exact fresh.steady
  | step event _ careful leaves ih => exact Ends.leaves (ih.step event careful) leaves

/-- As long as no truncation cuts the file below the position of another descriptor that is
open for writing and no descriptor is used by two calls at once, loading a block never runs past the last one,
and a write that returns 0 has extended the file to where it ends. -/
theorem sharing_never_runs_past (fresh : start.Fresh) (run : SharedRun start s) :
    (∀ event : SharedEvent δ π, event.Careful s → s.step event ≠ .fault .indexPastBlocks) ∧
      ∀ proc fd offset len mem moved c, s.waiting proc = some (.io fd true offset len mem) → len < 2 ^ 32 →
        sfsIo true (iobufInit len offset) mem s.ctx = .ok moved c →
          moved.ret ≠ 0 ∨ Extended offset len moved.iob.used c := by
  have steady := run.steady fresh
  constructor
  · intro event careful stopped
    have ends := steady.step event careful
    rw [stopped] at ends
    exact ends rfl
  · intro proc fd offset len mem moved c waits word ran
    obtain ⟨file, opened, rfl, allowed⟩ := steady.fixed proc fd true offset len mem waits
    have ends := @sfsIo_left s.ctx true file.pos len mem steady.size fun writes =>
      steady.slots fd file opened (allowed writes)
    rw [ran] at ends
    by_cases failed : moved.ret = 0
    · exact .inr (ends.2 rfl word failed)
    · exact .inl failed

end Runs

/-! ## Two processes -/

/-- An empty file, and room for 28 blocks. -/
def unopened : Shared Bool Bool where
  ctx := {
    vol := {
      super := ⟨sfsMagic, 32, 28, fun _ => 0⟩
      superDirty := false
      freemap := ⟨32, 1, fun _ => 0xFFFFFFF0#32⟩
      disk := fun _ => zeroBlock
      outcomes := [] }
    sin := ⟨⟨0, typeFile, 1, 0, fun _ => 0, 0⟩, 3, false⟩ }
  slots := fun _ => .none
  waiting := fun _ => none

theorem unopened_fresh : unopened.Fresh := ⟨rfl, fun _ => rfl, fun _ => rfl⟩

/-- Open for reading and writing, and the same with `O_TRUNC`. -/
def rdwr : OpenFlags := ⟨true, true, false, false, false, false⟩

def rdwrTrunc : OpenFlags := { rdwr with trunc := true }

/-- One process moves to 4096, which extends the file to one block. -/
def extendedBy (proc : Bool) : List (SharedEvent Bool Bool) :=
  [.fileOpen proc false rdwr, .fileSeek proc false 4096 .set, .locked proc]

/-- The other process opens the file with `O_TRUNC`, and the first one writes a byte
where it is: the map has no blocks, and the byte belongs to block 1. -/
theorem truncation_below_position : unopened.Fresh ∧
    unopened.runs (extendedBy false ++ [.fileOpen true true rdwrTrunc, .locked true,
      .fileWrite false false 1 zeroBlock, .locked false]) = .fault .indexPastBlocks :=
  ⟨unopened_fresh, rfl⟩

/-- A truncation that takes a block away but leaves the position of the first descriptor
in the block that is missing then: the next byte is written there. -/
theorem sharing_never_runs_past_truncated : ∃ s : Shared Bool Bool,
    SharedRun unopened s ∧ s.ctx.sin.din.size = 2 ∧
    (∀ event : SharedEvent Bool Bool, event.Careful s → s.step event ≠ .fault .indexPastBlocks) ∧
      ∀ proc fd offset len mem moved c, s.waiting proc = some (.io fd true offset len mem) → len < 2 ^ 32 →
        sfsIo true (iobufInit len offset) mem s.ctx = .ok moved c →
          moved.ret ≠ 0 ∨ Extended offset len moved.iob.used c := by
  have opened := SharedRun.step (.fileOpen false false rdwr) (@SharedRun.start _ _ _ _ unopened) trivial
    (.inl ⟨(), rfl⟩)
  have begun := SharedRun.step (.fileWrite false false 1 zeroBlock) opened (by
    intro proc call waits
    cases waits) (.inl ⟨(), rfl⟩)
  have first := SharedRun.step (.locked false) begun (by
    intro call waits
    cases waits
    trivial) (.inl ⟨(), rfl⟩)
  have reopened := SharedRun.step (.fileOpen true true rdwrTrunc) first trivial (.inl ⟨(), rfl⟩)
  have emptied := SharedRun.step (.locked true) reopened (by
    intro call waits
    cases waits
    refine fun _ => ⟨?_, ?_⟩
    · intro ret member
      cases member
    · intro other file apart here _
      cases other with
      | false =>
        cases here
        exact (by decide : 1 / blkSize ≤ 0)
      | true => exact absurd rfl apart) (.inl ⟨(), rfl⟩)
  have again := SharedRun.step (.fileWrite false false 1 zeroBlock) emptied (by
    intro proc call waits
    cases proc <;> cases waits) (.inl ⟨(), rfl⟩)
  obtain ⟨s, wrote, size⟩ := again.finish (Q := fun s => s.ctx.sin.din.size = 2) (.locked false) (by
    intro call waits
    cases waits
    trivial) (by decide +kernel)
  exact ⟨s, wrote, size, sharing_never_runs_past unopened_fresh wrote⟩

end LiNos.Fs
