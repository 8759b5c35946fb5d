import LiNos.SfsTransfer

/-!
Size and block count of one file, over every sequence of calls.

A call may fail because the disk is full. What else happens on the volume meanwhile is
a step of its own: it may use up or give back any blocks that are not the file's.
-/

namespace LiNos.Fs

open Kernel LittleEndian

variable {c c' : Ctx} {bs bs' : List ℕ} {offset endpos len : ℕ}

/-! ## Running out of blocks -/

/-- How many blocks a file needs in order to get `target` blocks. -/
def DiskInode.need (din : DiskInode) (target : ℕ) : ℕ :=
  target - din.blocks + if din.indirect = 0 ∧ ndirect < target then 1 else 0

theorem Mapped.growth_eq {v : Vol} {din : DiskInode} (mapped : Mapped v din bs) :
    din.growth = if ndirect ≤ bs.length ∧ din.indirect = 0 then 2 else 1 := by
  rw [DiskInode.growth, mapped.blocks]

/-- A file that is stuck short of `target` blocks had fewer than it needs. -/
theorem Grown.lt_need (target : ℕ) (before : Mapped c.vol c.sin.din bs) (grown : Grown c c' bs bs')
    (short : bs'.length < target) (full : c'.vol.super.unusedBlocks < c'.sin.din.growth) :
    c.vol.super.unusedBlocks < c.sin.din.need target := by
  have count := grown.unused
  have longer := grown.longer
  rw [holds_length, holds_length] at count
  rw [grown.mapped.growth_eq] at full
  rw [DiskInode.need, before.blocks]
  by_cases none : c.sin.din.indirect = 0
  · by_cases none' : c'.sin.din.indirect = 0
    · have few := grown.mapped.few none'
      simp only [none, none', if_true, and_true, true_and] at *
      split at full <;> split <;> omega
    · have late := grown.late none none'
      simp only [none, none', if_true, if_false, and_false, true_and] at *
      split <;> omega
  · have kept := grown.kept none
    simp only [kept, none, if_false, and_false, false_and] at *
    omega

/-- A file that could not get one block more did not grow at all. -/
theorem Grown.eq_of_full (before : Mapped c.vol c.sin.din bs) (grown : Grown c c' bs bs')
    (full : c.vol.super.unusedBlocks < c.sin.din.growth) : bs'.length = bs.length := by
  have count := grown.unused
  have longer := grown.longer
  rw [holds_length, holds_length] at count
  rw [before.growth_eq] at full
  by_cases none : c.sin.din.indirect = 0
  · by_cases none' : c'.sin.din.indirect = 0
    · have few := grown.mapped.few none'
      simp only [none, none', if_true, and_true] at *
      split at full <;> omega
    · have late := grown.late none none'
      simp only [none, none', if_true, if_false, and_true] at *
      split at full <;> omega
  · have kept := grown.kept none
    simp only [kept, none, if_false, and_false] at *
    omega

/-! ## Size and blocks in step -/

/-- A regular file with exactly the blocks its size needs. -/
structure InStep (c : Ctx) : Prop where
  sound : c.vol.Sound
  type : c.sin.din.type = typeFile
  mapped : ∃ bs, Mapped c.vol c.sin.din bs
  blocks : c.sin.din.blocks = roundupDiv c.sin.din.size blkSize

/-- The number of blocks of the largest file the map has room for, in bytes. -/
def mapBytes : ℕ := blkSize * (ndirect + blkNentry)

/-- The free blocks allow for growing to `len` bytes, or for not one more block. -/
def Roomy (c : Ctx) (len : ℕ) : Prop :=
  roundupDiv len blkSize ≤ c.sin.din.blocks ∨
    c.sin.din.need (roundupDiv len blkSize) ≤ c.vol.freeCount ∨ c.vol.freeCount < c.sin.din.growth

/-- The file has got the length `len`. -/
def Ctx.resized (c : Ctx) (len : ℕ) : Ctx := (c.setDin { c.sin.din with size := len }).setDirty

theorem Reshaped.inStep (reshaped : Reshaped c c' bs bs') (type : c.sin.din.type = typeFile)
    (length : bs'.length = roundupDiv len blkSize) : InStep (c'.resized len) :=
  ⟨reshaped.sound, reshaped.type.trans type, ⟨bs', reshaped.mapped.resize len⟩,
    reshaped.mapped.blocks.trans length⟩

/-- `sfs_truncfile` behind the lock, for a length that needs no fewer blocks. -/
theorem truncLocked_grows (sound : c.vol.Sound) (mapped : Mapped c.vol c.sin.din bs)
    (more : c.sin.din.blocks ≤ roundupDiv len blkSize) (within : len ≤ mapBytes) :
    (truncLocked len c).Ends
      (fun _ c' => ∃ d bs', c' = d.resized len ∧ Grown c d bs bs' ∧ bs'.length = roundupDiv len blkSize ∧
        ∀ x, byteOf d.vol bs' x = byteOf c.vol bs x)
      (fun _ c' => ∃ bs', Grown c c' bs bs' ∧ bs'.length < roundupDiv len blkSize ∧
        c'.vol.super.unusedBlocks < c'.sin.din.growth)
      (fun _ => False) := by
  have most : roundupDiv len blkSize ≤ ndirect + blkNentry := (roundupDiv_le _ _).mpr within
  have blocks := mapped.blocks
  rw [truncLocked, get_bind_run]
  dsimp only
  by_cases same : c.sin.din.blocks = roundupDiv len blkSize
  · rw [if_neg (by omega), ← same, Nat.sub_self, truncShrink, pure_bind_run, get_bind_run, require_bind_run rfl]
    exact ⟨c, bs, rfl, .refl sound mapped, blocks.symm, fun _ => rfl⟩
  · rw [if_pos (by omega), blocks]
    have grows := @truncGrow_ends c bs (roundupDiv len blkSize - bs.length) sound mapped (by omega)
    cases ran : truncGrow bs.length (roundupDiv len blkSize - bs.length) c with
    | ok a d =>
      rw [ran] at grows
      obtain ⟨bs', grown, length, bytes⟩ := grows
      have count : bs'.length = roundupDiv len blkSize := by omega
      rw [bind_ok ran, get_bind_run, require_bind_run (grown.mapped.blocks.trans count)]
      exact ⟨d, bs', rfl, grown, count, bytes⟩
    | err e d =>
      rw [ran] at grows
      obtain ⟨-, bs', grown, short, -, full⟩ := grows
      rw [bind_err ran]
      exact ⟨bs', grown, by omega, full⟩
    | fault reason =>
      rw [ran] at grows
      exact grows.elim

/-- `sfs_truncfile` behind the lock, for a length that needs no more blocks. -/
theorem truncLocked_shrinks (sound : c.vol.Sound) (mapped : Mapped c.vol c.sin.din bs)
    (less : roundupDiv len blkSize ≤ c.sin.din.blocks) :
    ∃ d bs', truncLocked len c = .ok () (d.resized len) ∧ Reshaped c d bs bs' ∧
      bs'.length = roundupDiv len blkSize := by
  have blocks := mapped.blocks
  obtain ⟨d, bs', ran, reshaped, length, -⟩ := @truncShrink_run c bs
    (c.sin.din.blocks - roundupDiv len blkSize) sound mapped (by omega)
  have count : bs'.length = roundupDiv len blkSize := by omega
  refine ⟨d, bs', ?_, reshaped, count⟩
  rw [truncLocked, get_bind_run]
  dsimp only
  rw [if_neg (by omega), bind_ok ran, get_bind_run, require_bind_run (reshaped.mapped.blocks.trans count)]
  rfl

theorem truncLocked_inStep (inStep : InStep c) (within : len ≤ mapBytes) (roomy : Roomy c len) :
    (truncLocked len c).Ends (fun _ => InStep) (fun _ => InStep) (fun _ => False) := by
  obtain ⟨bs, mapped⟩ := inStep.mapped
  by_cases more : c.sin.din.blocks ≤ roundupDiv len blkSize
  · apply Ends.imp (truncLocked_grows inStep.sound mapped more within)
    · rintro - c' ⟨d, bs', rfl, grown, length, -⟩
      exact grown.inStep inStep.type length
    · rintro e c' ⟨bs', grown, short, full⟩
      -- it stopped short, so it cannot have had what it needs
      have less := grown.lt_need (roundupDiv len blkSize) mapped short full
      have longer := grown.longer
      have blocks := mapped.blocks
      rw [inStep.sound.unused] at less
      have first : c.vol.super.unusedBlocks < c.sin.din.growth := by
        rw [inStep.sound.unused]
        unfold Roomy at roomy
        omega
      have same := grown.eq_of_full mapped first
      refine ⟨grown.sound, grown.type.trans inStep.type, ⟨bs', grown.mapped⟩, ?_⟩
      rw [grown.mapped.blocks, same, ← blocks, grown.size]
      exact inStep.blocks
    · exact fun _ never => never
  · obtain ⟨d, bs', ran, reshaped, length⟩ := @truncLocked_shrinks c bs len inStep.sound mapped (by omega)
    rw [ran]
    exact reshaped.inStep inStep.type length

/-- `sfs_truncfile` keeps a file in step if it has the blocks it needs, or none at all. -/
theorem sfsTruncfile_inStep {len : ℤ} (inStep : InStep c)
    (within : len.toNat ≤ mapBytes ∨ (maxFileSize : ℤ) < len)
    (roomy : 0 ≤ len → len ≤ maxFileSize → c.sin.din.size ≠ len.toNat → Roomy c len.toNat) :
    (sfsTruncfile len c).Ends (fun _ => InStep) (fun _ => InStep) (fun _ => False) := by
  unfold sfsTruncfile
  by_cases invalid : len < 0 ∨ (maxFileSize : ℤ) < len
  · rw [if_pos invalid]
    exact inStep
  · rw [if_neg invalid, get_bind_run]
    by_cases same : c.sin.din.size = len.toNat
    · rw [if_pos same, require_run (by rw [← same, inStep.blocks])]
      exact inStep
    · rw [if_neg same]
      exact truncLocked_inStep inStep (by omega) (roomy (by omega) (by omega) same)

theorem sfsTryseek_inStep {pos : ℤ} (inStep : InStep c)
    (within : pos.toNat ≤ mapBytes ∨ (maxFileSize : ℤ) ≤ pos)
    (roomy : pos < maxFileSize → c.sin.din.size < pos.toNat → Roomy c pos.toNat) :
    (sfsTryseek pos c).Ends (fun _ => InStep) (fun _ => InStep) (fun _ => False) := by
  unfold sfsTryseek
  by_cases invalid : pos < 0 ∨ (maxFileSize : ℤ) ≤ pos
  · rw [if_pos invalid]
    exact inStep
  · rw [if_neg invalid, get_bind_run]
    by_cases beyond : c.sin.din.size < pos.toNat
    · rw [if_pos beyond]
      exact sfsTruncfile_inStep inStep (by omega) fun _ _ _ => roomy (by omega) beyond
    · rw [if_neg beyond]
      exact inStep

/-! ## Writing keeps a file in step -/

variable {s s' start : Io}

/-- What a write leaves at `out`, however far it came. -/
theorem Wrote.inStep {p : ℕ} (wrote : Wrote start s bs bs' offset p) (before : InStep start.ctx)
    (mapped : Mapped start.ctx.vol start.ctx.sin.din bs) : InStep (ioOut offset s).ctx := by
  have grown := wrote.grown
  have blocks : s.ctx.sin.din.blocks = max (roundupDiv start.ctx.sin.din.size blkSize)
      (roundupDiv (offset + s.alen) blkSize) := by
    rw [grown.mapped.blocks, wrote.length, ← mapped.blocks, before.blocks, wrote.alen]
  have size := grown.size
  refine ⟨by rw [ioOut_vol]; exact grown.sound, ?_, ⟨bs', ?_⟩, ?_⟩
  · rw [ioOut_din]
    exact grown.type.trans before.type
  · rw [ioOut_vol, ioOut_din]
    exact grown.mapped.resize _
  · rw [ioOut_din]
    change s.ctx.sin.din.blocks = roundupDiv (max s.ctx.sin.din.size (offset + s.alen)) blkSize
    rw [blocks, size]
    unfold roundupDiv blkSize
    omega

theorem endPos_within (within : offset + len ≤ mapBytes) :
    endPos offset len = (offset + len : ℕ) := by
  unfold endPos
  unfold mapBytes blkSize ndirect blkNentry blkSize at within
  rw [Int.bmod_def]
  split
  · omega
  · omega

/-- `sfs_io_nolock` for a write at most at the end of a file, within what a map has room for. -/
theorem sfsIoNolock_writes (inStep : InStep s.ctx)
    (mapped : Mapped s.ctx.vol s.ctx.sin.din bs) (reached : offset ≤ s.ctx.sin.din.size) (nonempty : 0 < len)
    (within : offset + len ≤ mapBytes) :
    (sfsIoNolock true offset len s).Ends
      (fun _ t => ∃ u, t = ioOut offset u ∧ WroteTo (s.setAlen 0) bs offset (offset + len) u)
      (fun e t => ∃ u, t = ioOut offset u ∧ WroteShort (s.setAlen 0) bs offset (offset + len) e u)
      (fun _ => False) := by
  have kind : s.ctx.sin.din.type ≠ typeDir := by
    rw [inStep.type]
    decide
  have ends := endPos_within within
  have small : offset + len ≤ maxFileSize := within.trans (by decide)
  rw [sfsIoNolock, get_bind_run, require_bind_run kind, modify_bind_run, ends, if_neg (by omega),
    if_neg (by omega), if_neg (by simp), if_pos rfl]
  rw [Int.toNat_natCast, Int.toNat_natCast, min_eq_left small]
  have transfer := @ioTransfer_write bs (s.setAlen 0) offset (offset + len) inStep.sound within mapped rfl
    (by omega)
    (by
      rw [← roundupDiv_le, ← mapped.blocks, inStep.blocks]
      unfold roundupDiv blkSize
      omega)
  cases ran : ioTransfer true offset (offset + len) (s.setAlen 0) with
  | ok a u =>
    rw [ran] at transfer
    rw [bind_ok (attempt_ok ran)]
    exact ⟨u, rfl, transfer⟩
  | err e u =>
    rw [ran] at transfer
    rw [bind_ok (attempt_err ran)]
    exact ⟨u, rfl, transfer⟩
  | fault reason =>
    rw [ran] at transfer
    exact transfer.elim

/-- `sfs_io_nolock` for a write at most at the end of a file in step. -/
theorem sfsIoNolock_inStep {offset : ℤ} (inStep : InStep s.ctx) (reached : offset ≤ s.ctx.sin.din.size)
    (within : offset + len ≤ mapBytes ∨ endPos offset len < offset) :
    (sfsIoNolock true offset len s).Ends (fun _ t => InStep t.ctx ∧ t.alen ≤ len)
      (fun _ t => InStep t.ctx ∧ t.alen ≤ len) (fun _ => False) := by
  have kind : s.ctx.sin.din.type ≠ typeDir := by
    rw [inStep.type]
    decide
  by_cases invalid : offset < 0 ∨ (maxFileSize : ℤ) ≤ offset ∨ endPos offset len < offset
  · rw [sfsIoNolock, get_bind_run, require_bind_run kind, modify_bind_run, if_pos invalid]
    exact ⟨inStep, Nat.zero_le _⟩
  · obtain ⟨start, rfl⟩ := Int.eq_ofNat_of_zero_le (show 0 ≤ offset by omega)
    have fits : start + len ≤ mapBytes := by omega
    by_cases empty : len = 0
    · have ends := endPos_within fits
      rw [sfsIoNolock, get_bind_run, require_bind_run kind, modify_bind_run, if_neg invalid,
        if_pos (by rw [ends]; omega)]
      exact ⟨inStep, Nat.zero_le _⟩
    · obtain ⟨bs, mapped⟩ := inStep.mapped
      have settled : ∀ u p, (∃ bs', Wrote (s.setAlen 0) u bs bs' start p) → p ≤ start + len →
          InStep (ioOut start u).ctx ∧ (ioOut start u).alen ≤ len := by
        rintro u p ⟨bs', wrote⟩ below
        have alen := wrote.alen
        refine ⟨wrote.inStep inStep mapped, ?_⟩
        rw [ioOut_alen]
        omega
      apply Ends.mono (sfsIoNolock_writes inStep mapped (by omega) (by omega) fits)
      · rintro - t ⟨u, rfl, wrote⟩
        exact settled u _ wrote le_rfl
      · rintro e t ⟨u, rfl, -, bs', p, wrote, -, below⟩
        exact settled u p ⟨bs', wrote⟩ below.le

/-- `sfs_write` keeps a file in step. -/
theorem sfsIo_inStep {offset : ℤ} {mem : Block} (inStep : InStep c) (reached : offset ≤ c.sin.din.size)
    (within : offset + len ≤ mapBytes ∨ endPos offset len < offset) :
    (sfsIo true (iobufInit len offset) mem c).Ends (fun _ => InStep) (fun _ => InStep) (fun _ => False) := by
  have transfer := @sfsIoNolock_inStep len ⟨c, len, fun i => mem (0 + i)⟩ offset inStep reached within
  have moved := @sfsIo_ends true mem c len offset (fun _ alen c' => InStep c' ∧ alen ≤ len) _ transfer
    fun _ _ _ after more => absurd after.2 (not_le.mpr more)
  exact Ends.imp moved (fun _ _ after => after.1) (fun _ _ never => never.elim) fun _ never => never

/-! ## Runs -/

/-- The calls on one file. -/
inductive FileCall where
  | write (offset : ℤ) (len : ℕ) (mem : Block)
  | tryseek (pos : ℤ)
  | truncfile (len : ℤ)

namespace FileCall

def run : FileCall → Kernel Fault Ctx Unit
  | .write offset len mem => do
    let _ ← sfsIo true (iobufInit len offset) mem
    pure ()
  | .tryseek pos => sfsTryseek pos
  | .truncfile len => sfsTruncfile len

/-- A write begins at most at the end of the file, and no request goes beyond the
blocks a map has room for unless it is refused for its size. -/
def Allowed (c : Ctx) : FileCall → Prop
  | .write offset len _ => offset ≤ c.sin.din.size ∧ len < 2 ^ 32 ∧
      (offset + len ≤ mapBytes ∨ endPos offset len < offset)
  | .tryseek pos => pos.toNat ≤ mapBytes ∨ (maxFileSize : ℤ) ≤ pos
  | .truncfile len => len.toNat ≤ mapBytes ∨ (maxFileSize : ℤ) < len

/-- A call that extends the file through `sfs_truncfile` finds all blocks it needs, or
not even the first one. A call that is refused for its argument needs none. -/
def HasRoom (c : Ctx) : FileCall → Prop
  | .write _ _ _ => True
  | .tryseek pos => pos < maxFileSize → c.sin.din.size < pos.toNat → Roomy c pos.toNat
  | .truncfile len =>
    0 ≤ len → len ≤ maxFileSize → c.sin.din.size ≠ len.toNat → Roomy c len.toNat

end FileCall

/-- Something else happened on the volume: the file has kept its blocks. -/
structure Elsewhere (c c' : Ctx) : Prop where
  sin : c'.sin = c.sin
  sound : c'.vol.Sound
  mapped : ∀ bs, Mapped c.vol c.sin.din bs → Mapped c'.vol c.sin.din bs

/-- The states a file goes through. -/
inductive FileRun (start : Ctx) : Ctx → Prop
  | start : FileRun start start
  | call {c c' : Ctx} (call : FileCall) : FileRun start c → call.Allowed c → call.HasRoom c →
      (call.run c).Leaves c' → FileRun start c'
  | elsewhere {c c' : Ctx} : FileRun start c → Elsewhere c c' → FileRun start c'

theorem FileCall.run_inStep (call : FileCall) (inStep : InStep c) (allowed : call.Allowed c)
    (room : call.HasRoom c) : (call.run c).Ends (fun _ => InStep) (fun _ => InStep) (fun _ => False) := by
  cases call with
  | write offset len mem =>
    obtain ⟨reached, -, within⟩ := allowed
    apply Ends.bind (sfsIo_inStep inStep reached within)
    intro _ t after
    exact after
  | tryseek pos => exact sfsTryseek_inStep inStep allowed room
  | truncfile len => exact sfsTruncfile_inStep inStep allowed room

theorem FileRun.inStep {start : Ctx} (run : FileRun start c) (inStep : InStep start) : InStep c := by
  induction run with
  | start => exact inStep
  | call call _ allowed room leaves ih =>
    exact Ends.leaves (call.run_inStep ih allowed room) leaves
  | elsewhere _ other ih =>
    obtain ⟨bs, mapped⟩ := ih.mapped
    have after := other.mapped bs mapped
    rw [← other.sin] at after
    refine ⟨other.sound, ?_, ⟨bs, after⟩, ?_⟩
    · rw [other.sin]
      exact ih.type
    · rw [other.sin]
      exact ih.blocks

/-- As long as every extension finds all the blocks it needs or none, a file has after
each call exactly the blocks its size needs, and no assertion fires. -/
theorem blocks_match_size {start : Ctx} (inStep : InStep start) (run : FileRun start c) :
    c.sin.din.blocks = roundupDiv c.sin.din.size blkSize ∧
      ∀ call : FileCall, call.Allowed c → call.HasRoom c → ∀ reason, call.run c ≠ .fault reason := by
  have after := run.inStep inStep
  refine ⟨after.blocks, ?_⟩
  intro call allowed room reason stopped
  have ends := call.run_inStep after allowed room
  rw [stopped] at ends
  exact ends

/-- An empty file on a volume with one free block. -/
def tight : Ctx where
  vol := {
    super := ⟨sfsMagic, 5, 1, fun _ => 0⟩
    superDirty := false
    freemap := ⟨32, 1, fun _ => 0x10#32⟩
    disk := fun _ => zeroBlock
    outcomes := [] }
  sin := ⟨⟨0, typeFile, 1, 0, fun _ => 0, 0⟩, 3, false⟩

theorem tight_inStep : InStep tight := by
  refine ⟨⟨rfl, rfl, by decide, ?_, by decide, by decide⟩, rfl, ⟨[], ?_⟩, rfl⟩
  · intro b free
    have spot : ∀ b < 32, tight.vol.freemap.bit b = true → b = 4 := by decide
    have place := spot b free.1 free.2
    subst place
    exact ⟨by decide, by decide⟩
  · refine ⟨rfl, fun _ => rfl, fun _ => by decide, fun there => absurd rfl there, by decide, ?_, ?_⟩
    · intro b member
      cases member
    · exact List.nodup_nil

/-- A seek to 100 has the one block it needs, and a write of 8 bytes there follows. -/
theorem blocks_match_size_tight : ∃ c, c.sin.din.size = 108 ∧
    (c.sin.din.blocks = roundupDiv c.sin.din.size blkSize ∧
      ∀ call : FileCall, call.Allowed c → call.HasRoom c → ∀ reason, call.run c ≠ .fault reason) := by
  have sought : FileRun tight _ := FileRun.call (.tryseek 100) .start (.inl (by decide))
    (fun _ _ => .inr (.inl (by decide))) (.inl ⟨(), rfl⟩)
  have wrote := FileRun.call (.write 100 8 zeroBlock) sought ⟨by decide, by decide, .inl (by decide)⟩ trivial
    (.inl ⟨(), rfl⟩)
  exact ⟨_, rfl, blocks_match_size tight_inStep wrote⟩

/-- Seeking to 8192 takes the one free block and fails for the second. The block stays
with the file, whose size is still 0, and truncating to 0 then stops the kernel. -/
theorem seek_leaves_block : ∃ c', InStep tight ∧ (FileCall.tryseek 8192).Allowed tight ∧
    (FileCall.tryseek 8192).run tight = .err (-eNoMem) c' ∧ c'.sin.din.blocks = 1 ∧
    c'.sin.din.size = 0 ∧ (FileCall.truncfile 0).run c' = .fault .lengthMismatch :=
  ⟨_, tight_inStep, .inl (by decide), rfl, rfl, rfl, rfl⟩

end LiNos.Fs
