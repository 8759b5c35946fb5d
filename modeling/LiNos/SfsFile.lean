import LiNos.SfsBmap

/-!
Reading, writing, seeking and truncating a file (`sfs_io_nolock`, `sfs_io`,
`sfs_tryseek` and `sfs_truncfile` in sfs_inode.c, and iobuf.c).

A transfer works on the inode, the caller's buffer and the number of bytes done so
far; `buf` of the source has moved on by exactly that number. `off_t` is a signed
machine word and `size_t` an unsigned one, so the end of a request can wrap around.
-/

namespace LiNos.Fs

open Kernel LittleEndian

/-- The state of a transfer: `*alenp` and the memory behind the caller's buffer. -/
structure Io where
  ctx : Ctx
  alen : ℕ
  mem : Block

namespace Io

@[simps -fullyApplied] def setCtx (s : Io) (ctx : Ctx) : Io := { s with ctx := ctx }

@[simps -fullyApplied] def setAlen (s : Io) (alen : ℕ) : Io := { s with alen := alen }

@[simps -fullyApplied] def setMem (s : Io) (mem : Block) : Io := { s with mem := mem }

end Io

/-- A call on the inode. -/
def onCtx {α : Type} (m : Kernel Fault Ctx α) : Kernel Fault Io α := zoom Io.ctx Io.setCtx m

/-- `sfs_buf_op` on a piece of a block. -/
def sfsBufOp (write : Bool) (size ino blkoff : ℕ) : Kernel Fault Io Unit := do
  let s ← get
  if write then onCtx (onVol (sfsWbuf (fun i => s.mem (s.alen + i)) size ino blkoff))
  else do
    let data ← onCtx (onVol (sfsRbuf size ino blkoff))
    modify fun s => s.setMem (copy s.mem s.alen data size)

/-- `sfs_block_op` on a whole block. -/
def sfsBlockOp (write : Bool) (ino : ℕ) : Kernel Fault Io Unit := do
  let s ← get
  if write then onCtx (onVol (sfsWblock (fun i => s.mem (s.alen + i)) ino 1))
  else do
    let data ← onCtx (onVol (sfsRblock (fun i => s.mem (s.alen + i)) ino 1))
    modify fun s => s.setMem (copy s.mem s.alen data blkSize)

/-- The first or the last piece of a transfer. -/
def ioPiece (write : Bool) (blkno blkoff size : ℕ) : Kernel Fault Io Unit := do
  let ino ← onCtx (sfsBmapLoadNolock blkno)
  sfsBufOp write size ino blkoff
  modify fun s => s.setAlen (s.alen + size)

/-- One whole block of a transfer. -/
def ioBlock (write : Bool) (blkno : ℕ) : Kernel Fault Io Unit := do
  let ino ← onCtx (sfsBmapLoadNolock blkno)
  sfsBlockOp write ino
  modify fun s => s.setAlen (s.alen + blkSize)

/-- The loop over whole blocks. -/
def ioBlocks (write : Bool) (blkno : ℕ) : ℕ → Kernel Fault Io Unit
  | 0 => pure ()
  | nblks + 1 => do
    ioBlock write blkno
    ioBlocks write (blkno + 1) nblks

/-- The whole blocks and what is left behind them. -/
def ioRest (write : Bool) (blkno nblks endpos : ℕ) : Kernel Fault Io Unit := do
  ioBlocks write blkno nblks
  if endpos % blkSize ≠ 0 then ioPiece write (blkno + nblks) 0 (endpos % blkSize) else pure ()

/-- `sfs_io_nolock` between the checks and `out`. -/
def ioTransfer (write : Bool) (offset endpos : ℕ) : Kernel Fault Io Unit :=
  let blkno := offset / blkSize
  let nblks := endpos / blkSize - blkno
  let blkoff := offset % blkSize
  if blkoff ≠ 0 then
    if nblks ≠ 0 then do
      ioPiece write blkno blkoff (blkSize - blkoff)
      ioRest write (blkno + 1) (nblks - 1) endpos
    else ioPiece write blkno blkoff (endpos - offset)
  else ioRest write blkno nblks endpos

/-- `out` of `sfs_io_nolock`: the file has grown by what was done. -/
def ioOut (offset : ℕ) (s : Io) : Io :=
  if s.ctx.sin.din.size < offset + s.alen then
    s.setCtx (s.ctx.setDin { s.ctx.sin.din with size := offset + s.alen }).setDirty
  else s

section

variable (offset : ℕ) (s : Io)
include offset s

@[simp] theorem ioOut_alen : (ioOut offset s).alen = s.alen := by
  unfold ioOut
  split
  · rfl
  · rfl

@[simp] theorem ioOut_mem : (ioOut offset s).mem = s.mem := by
  unfold ioOut
  split
  · rfl
  · rfl

@[simp] theorem ioOut_vol : (ioOut offset s).ctx.vol = s.ctx.vol := by
  unfold ioOut
  split
  · rfl
  · rfl

theorem ioOut_din : (ioOut offset s).ctx.sin.din =
    { s.ctx.sin.din with size := max s.ctx.sin.din.size (offset + s.alen) } := by
  unfold ioOut
  split_ifs with longer
  · rw [max_eq_right longer.le]
    rfl
  · rw [max_eq_left (not_lt.mp longer)]

theorem ioOut_ino : (ioOut offset s).ctx.sin.ino = s.ctx.sin.ino := by
  unfold ioOut
  split
  · rfl
  · rfl

theorem ioOut_size : offset + s.alen ≤ (ioOut offset s).ctx.sin.din.size := by
  rw [ioOut_din]
  exact le_max_right _ _

end

/-- `offset + *alenp` as an `off_t`. -/
def endPos (offset : ℤ) (len : ℕ) : ℤ := Int.bmod (offset + len) (2 ^ 32)

/-- The end of a request that is not refused did not wrap around. -/
theorem endPos_eq {offset : ℤ} {len : ℕ} (valid : 0 ≤ offset) (small : offset < maxFileSize) (word : len < 2 ^ 32)
    (order : offset ≤ endPos offset len) : endPos offset len = offset + len := by
  unfold endPos maxFileSize at *
  rw [Int.bmod_def] at *
  split at order <;> omega

/-- `sfs_io_nolock` for a request of `len` bytes. -/
def sfsIoNolock (write : Bool) (offset : ℤ) (len : ℕ) : Kernel Fault Io Unit := do
  let s ← get
  require (s.ctx.sin.din.type ≠ typeDir) .assertion
  modify fun s => s.setAlen 0
  if offset < 0 ∨ (maxFileSize : ℤ) ≤ offset ∨ endPos offset len < offset then fail (-eInval)
  else if offset = endPos offset len then pure ()
  else if write = false ∧ s.ctx.sin.din.size ≤ offset.toNat then pure ()
  else do
    let endpos := min (endPos offset len).toNat maxFileSize
    let ret ← attempt
      (ioTransfer write offset.toNat (if write then endpos else min endpos s.ctx.sin.din.size))
    modify (ioOut offset.toNat)
    match ret with
    | .error e => fail e
    | .ok _ => pure ()

/-- What holds of `sfs_io_nolock`, from what holds of the transfer in it. -/
theorem sfsIoNolock_ends {write : Bool} {offset : ℤ} {len : ℕ} {s : Io} {A : Io → Prop} {E : ℤ → Io → Prop}
    {B : Fault → Prop} (dir : s.ctx.sin.din.type = typeDir → B .assertion)
    (refused : offset < 0 ∨ (maxFileSize : ℤ) ≤ offset ∨ endPos offset len < offset → E (-eInval) (s.setAlen 0))
    (idle : ¬ (offset < 0 ∨ (maxFileSize : ℤ) ≤ offset ∨ endPos offset len < offset) →
      offset = endPos offset len ∨ write = false ∧ s.ctx.sin.din.size ≤ offset.toNat → A (s.setAlen 0))
    (moves : ¬ (offset < 0 ∨ (maxFileSize : ℤ) ≤ offset ∨ endPos offset len < offset) → ∀ endpos,
      endpos = (if write then min (endPos offset len).toNat maxFileSize
        else min (min (endPos offset len).toNat maxFileSize) s.ctx.sin.din.size) → offset.toNat < endpos →
      (ioTransfer write offset.toNat endpos (s.setAlen 0)).Ends (fun _ u => A (ioOut offset.toNat u))
        (fun e u => E e (ioOut offset.toNat u)) B) :
    (sfsIoNolock write offset len s).Ends (fun _ => A) E B := by
  rw [sfsIoNolock, get_bind_run]
  by_cases kind : s.ctx.sin.din.type ≠ typeDir
  · rw [require_bind_run kind, modify_bind_run]
    by_cases invalid : offset < 0 ∨ (maxFileSize : ℤ) ≤ offset ∨ endPos offset len < offset
    · rw [if_pos invalid]
      exact refused invalid
    · rw [if_neg invalid]
      by_cases empty : offset = endPos offset len
      · rw [if_pos empty]
        exact idle invalid (Or.inl empty)
      · rw [if_neg empty]
        by_cases beyond : write = false ∧ s.ctx.sin.din.size ≤ offset.toNat
        · rw [if_pos beyond]
          exact idle invalid (Or.inr beyond)
        · rw [if_neg beyond]
          obtain ⟨endpos, cut⟩ : ∃ endpos, endpos = if write then min (endPos offset len).toNat maxFileSize
              else min (min (endPos offset len).toNat maxFileSize) s.ctx.sin.din.size := ⟨_, rfl⟩
          have order : offset.toNat < endpos := by
            cases write with
            | true =>
              rw [if_pos rfl] at cut
              omega
            | false =>
              have before := not_and.mp beyond rfl
              rw [if_neg (by decide)] at cut
              omega
          have transfer := moves invalid endpos cut order
          rw [← cut]
          exact Ends.attempt_bind transfer (fun _ _ done => done) fun _ _ done => done
  · rw [require_bind_fault kind]
    exact dir (not_not.mp kind)

/-- `struct iobuf`; `base` is how far `io_base` has moved in the caller's buffer. -/
structure Iobuf where
  base : ℕ
  offset : ℤ
  len : ℕ
  resid : ℕ

/-- `iobuf_init`. -/
def iobufInit (len : ℕ) (offset : ℤ) : Iobuf := ⟨0, offset, len, len⟩

/-- `iobuf_used`. -/
def Iobuf.used (iob : Iobuf) : ℕ := iob.len - iob.resid

/-- `iobuf_skip`. -/
def iobufSkip (iob : Iobuf) (n : ℕ) : Option Iobuf :=
  if n ≤ iob.resid then some ⟨iob.base + n, iob.offset + n, iob.len, iob.resid - n⟩ else none

/-- What a read or write hands back: the iobuf, the memory and the return code. -/
structure Transfer where
  iob : Iobuf
  mem : Block
  ret : ℤ

/-- `sfs_io` once the transfer is done. It worked on the memory from `io_base` on. -/
def ioDone (iob : Iobuf) (mem : Block) (ret : ℤ) (s : Io) : Outcome Fault Ctx Transfer :=
  let after : Block := fun i => if iob.base ≤ i then s.mem (i - iob.base) else mem i
  if s.alen ≠ 0 then
    match iobufSkip iob s.alen with
    | some iob => .ok ⟨iob, after, ret⟩ s.ctx
    | none => .fault .assertion
  else .ok ⟨iob, after, ret⟩ s.ctx

/-- `sfs_io`, and with it `sfs_read` and `sfs_write`. The return code is part of the
result, since the iobuf has moved whatever it is. -/
def sfsIo (write : Bool) (iob : Iobuf) (mem : Block) : Kernel Fault Ctx Transfer := fun c =>
  match sfsIoNolock write iob.offset iob.resid ⟨c, iob.resid, fun i => mem (iob.base + i)⟩ with
  | .ok _ s => ioDone iob mem 0 s
  | .err e s => ioDone iob mem e s
  | .fault reason => .fault reason

section Done

variable {write : Bool} {iob : Iobuf} {mem : Block} {c : Ctx} {s : Io}

theorem sfsIo_ok (ran : sfsIoNolock write iob.offset iob.resid
    ⟨c, iob.resid, fun i => mem (iob.base + i)⟩ = .ok () s) : sfsIo write iob mem c = ioDone iob mem 0 s := by
  rw [sfsIo, ran]

theorem sfsIo_err {e : ℤ} (ran : sfsIoNolock write iob.offset iob.resid
    ⟨c, iob.resid, fun i => mem (iob.base + i)⟩ = .err e s) : sfsIo write iob mem c = ioDone iob mem e s := by
  rw [sfsIo, ran]

theorem sfsIo_fault {reason : Fault} (ran : sfsIoNolock write iob.offset iob.resid
    ⟨c, iob.resid, fun i => mem (iob.base + i)⟩ = .fault reason) :
    sfsIo write iob mem c = .fault reason := by
  rw [sfsIo, ran]

/-- What holds of `sfs_io`, from what holds of `sfs_io_nolock`: the iobuf moves by what was
transferred. -/
theorem sfsIo_ends {len : ℕ} {offset : ℤ} {P : ℤ → ℕ → Ctx → Prop} {B : Fault → Prop}
    (transfer : (sfsIoNolock write offset len ⟨c, len, fun i => mem (0 + i)⟩).Ends
      (fun _ t => P 0 t.alen t.ctx) (fun e t => P e t.alen t.ctx) B)
    (tooLong : ∀ ret alen c', P ret alen c' → len < alen → B .assertion) :
    (sfsIo write (iobufInit len offset) mem c).Ends (fun moved c' => P moved.ret moved.iob.used c')
      (fun _ _ => False) B := by
  have done : ∀ ret (t : Io), P ret t.alen t.ctx → (ioDone (iobufInit len offset) mem ret t).Ends
      (fun moved c' => P moved.ret moved.iob.used c') (fun _ _ => False) B := by
    intro ret t left
    unfold ioDone iobufSkip
    by_cases moved : t.alen ≠ 0
    · rw [if_pos moved]
      split_ifs with fits
      · have used : len - (len - t.alen) = t.alen := Nat.sub_sub_self fits
        change P ret (len - (len - t.alen)) t.ctx
        rw [used]
        exact left
      · exact tooLong ret _ _ left (not_le.mp fits)
    · rw [if_neg moved]
      change P ret (len - len) t.ctx
      rw [Nat.sub_self, ← not_ne_iff.mp moved]
      exact left
  cases ran : sfsIoNolock write offset len ⟨c, len, fun i => mem (0 + i)⟩ with
  | ok _ t =>
    rw [ran] at transfer
    rw [sfsIo_ok ran]
    exact done 0 t transfer
  | err e t =>
    rw [ran] at transfer
    rw [sfsIo_err ran]
    exact done e t transfer
  | fault reason =>
    rw [ran] at transfer
    rw [sfsIo_fault ran]
    exact transfer

end Done

/-- The loop of `sfs_truncfile` that enlarges the file, with `more` blocks to go. -/
def truncGrow (nblks : ℕ) : ℕ → Kernel Fault Ctx Unit
  | 0 => pure ()
  | more + 1 => do
    let _ ← sfsBmapLoadNolock nblks
    truncGrow (nblks + 1) more

/-- The loop of `sfs_truncfile` that reduces the file, with `less` blocks to go. -/
def truncShrink : ℕ → Kernel Fault Ctx Unit
  | 0 => pure ()
  | less + 1 => do
    sfsBmapTruncateNolock
    truncShrink less

/-- `sfs_truncfile` once the lock is held. -/
def truncLocked (len : ℕ) : Kernel Fault Ctx Unit := do
  let c ← get
  let tblks := roundupDiv len blkSize
  if c.sin.din.blocks < tblks then truncGrow c.sin.din.blocks (tblks - c.sin.din.blocks)
  else truncShrink (c.sin.din.blocks - tblks)
  let c ← get
  require (c.sin.din.blocks = tblks) .assertion
  modify fun c => (c.setDin { c.sin.din with size := len }).setDirty

/-- `sfs_truncfile`. -/
def sfsTruncfile (len : ℤ) : Kernel Fault Ctx Unit := do
  if len < 0 ∨ (maxFileSize : ℤ) < len then fail (-eInval)
  else do
    let c ← get
    if c.sin.din.size = len.toNat then
      require (roundupDiv len.toNat blkSize = c.sin.din.blocks) .lengthMismatch
    else truncLocked len.toNat

/-- `sfs_tryseek`. -/
def sfsTryseek (pos : ℤ) : Kernel Fault Ctx Unit := do
  if pos < 0 ∨ (maxFileSize : ℤ) ≤ pos then fail (-eInval)
  else do
    let c ← get
    if c.sin.din.size < pos.toNat then sfsTruncfile pos else pure ()

end LiNos.Fs
