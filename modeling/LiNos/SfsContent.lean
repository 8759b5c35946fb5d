import LiNos.SfsFileRuns

/-!
A regular file as a string of bytes.

`Spells` says which bytes the blocks of a file hold, zeros behind the last block
included, and each operation is described by what becomes of them. `Stores` adds that the
string ends at the size and that only zeros follow it. A run of calls then refines a
byte string that is written, read, extended and emptied.
-/

namespace LiNos.Fs

open Kernel LittleEndian List

variable {c c' : Ctx} {f : ℕ → UInt8} {bs bs' : List ℕ} {content : List UInt8} {mem : Block}
  {offset len i : ℕ} {s : Io}

/-- A regular file in step, and the bytes its blocks hold. -/
structure Spells (c : Ctx) (f : ℕ → UInt8) : Prop where
  inStep : InStep c
  bytes : ∃ bs, Mapped c.vol c.sin.din bs ∧ ∀ x, byteOf c.vol bs x = f x

/-- There are enough free blocks for the file to have `len` bytes. -/
def Affords (c : Ctx) (len : ℕ) : Prop := c.sin.din.need (roundupDiv len blkSize) ≤ c.vol.freeCount

theorem InStep.notDir (inStep : InStep c) : c.sin.din.type ≠ typeDir := by
  rw [inStep.type]
  decide

theorem InStep.size_le (inStep : InStep c) (mapped : Mapped c.vol c.sin.din bs) :
    c.sin.din.size ≤ blkSize * bs.length := by
  rw [← roundupDiv_le, ← mapped.blocks]
  exact inStep.blocks.ge

theorem InStep.size_le_mapBytes (inStep : InStep c) : c.sin.din.size ≤ mapBytes := by
  obtain ⟨bs, mapped⟩ := inStep.mapped
  exact (inStep.size_le mapped).trans (Nat.mul_le_mul le_rfl mapped.most)

theorem mapBytes_lt : mapBytes < maxFileSize := by decide

/-- A file with enough free blocks does not stop short. -/
theorem Affords.enough (affords : Affords c len) (sound : c.vol.Sound) (mapped : Mapped c.vol c.sin.din bs)
    (grown : Grown c c' bs bs') (short : bs'.length < roundupDiv len blkSize) :
    ¬ c'.vol.super.unusedBlocks < c'.sin.din.growth := by
  intro full
  have less := grown.lt_need (roundupDiv len blkSize) mapped short full
  rw [sound.unused] at less
  exact absurd affords (not_le.mpr less)

/-- `sfs_io` once the transfer has moved `alen` bytes. -/
theorem ioDone_moved {ret offset : ℤ} (fits : s.alen ≤ len) :
    ioDone (iobufInit len offset) mem ret s =
      .ok ⟨⟨s.alen, offset + s.alen, len, len - s.alen⟩, s.mem, ret⟩ s.ctx := by
  unfold ioDone iobufSkip iobufInit
  by_cases moved : s.alen = 0
  · simp [moved]
  · simp [moved, fits]

/-- A position outside the range of a file is refused. -/
theorem sfsIo_refused {write : Bool} {offset : ℤ} (kind : c.sin.din.type ≠ typeDir)
    (invalid : offset < 0 ∨ (maxFileSize : ℤ) ≤ offset) :
    sfsIo write (iobufInit len offset) mem c = .ok ⟨iobufInit len offset, mem, -eInval⟩ c := by
  have ran : sfsIoNolock write offset len ⟨c, len, fun i => mem (0 + i)⟩ =
      .err (-eInval) ⟨c, 0, fun i => mem (0 + i)⟩ := by
    rw [sfsIoNolock, get_bind_run, require_bind_run kind, modify_bind_run, if_pos (by tauto)]
    rfl
  rw [sfsIo_err ran, ioDone_moved (Nat.zero_le _)]
  simp [iobufInit]

/-! ## Writing -/

/-- What a write leaves at `out` when it has come to `p`. -/
theorem Wrote.spells {start u : Io} {p : ℕ} (wrote : Wrote start u bs bs' offset p)
    (inStep : InStep start.ctx) (mapped : Mapped start.ctx.vol start.ctx.sin.din bs) :
    Spells (ioOut offset u).ctx (copy (byteOf start.ctx.vol bs) offset start.mem (p - offset)) := by
  have alen := wrote.alen
  refine ⟨wrote.inStep inStep mapped, bs', ?_, ?_⟩
  · rw [ioOut_vol, ioOut_din]
    exact wrote.grown.mapped.resize _
  · intro x
    rw [ioOut_vol, wrote.bytes, copy, show offset + (p - offset) = p by omega]

/-- A write of no bytes. -/
theorem sfsIoNolock_none (kind : s.ctx.sin.din.type ≠ typeDir) (within : offset ≤ mapBytes) :
    sfsIoNolock true offset 0 s = .ok () (s.setAlen 0) := by
  have ends := @endPos_within offset 0 within
  have small := lt_of_le_of_lt within mapBytes_lt
  rw [sfsIoNolock, get_bind_run, require_bind_run kind, modify_bind_run, ends, if_neg (by omega),
    if_pos (by omega)]
  rfl

/-- `sfs_write` at most at the end of the file. -/
theorem Spells.write (spells : Spells c f) (reached : offset ≤ c.sin.din.size)
    (within : offset + len ≤ mapBytes) (affords : Affords c (offset + len)) :
    ∃ c', sfsIo true (iobufInit len offset) mem c = .ok ⟨⟨len, offset + len, len, 0⟩, mem, 0⟩ c' ∧
      Spells c' (copy f offset mem len) ∧ c'.sin.din.size = max c.sin.din.size (offset + len) := by
  obtain ⟨bs, mapped, bytes⟩ := spells.bytes
  have inStep := spells.inStep
  have buffer : (fun i => mem (0 + i)) = mem := by
    funext i
    rw [Nat.zero_add]
  by_cases empty : len = 0
  · subst empty
    have ran := @sfsIoNolock_none offset ⟨c, 0, fun i => mem (0 + i)⟩ inStep.notDir within
    have same : copy f offset mem 0 = f := by
      funext x
      exact copy_apart (by omega)
    refine ⟨c, ?_, ?_, ?_⟩
    · rw [sfsIo_ok ran, @ioDone_moved mem 0 _ _ _ le_rfl]
      rw [buffer]
      rfl
    · rw [same]
      exact spells
    · rw [max_eq_left (by omega)]
  · have ends := @sfsIoNolock_writes bs offset len ⟨c, len, fun i => mem (0 + i)⟩ inStep mapped reached (by omega)
      within
    cases ran : sfsIoNolock true offset len ⟨c, len, fun i => mem (0 + i)⟩ with
    | ok _ t =>
      rw [ran] at ends
      obtain ⟨u, rfl, bs', wrote⟩ := ends
      have alen := wrote.alen
      have count : u.alen = len := by omega
      refine ⟨(ioOut offset u).ctx, ?_, ?_, ?_⟩
      · rw [sfsIo_ok ran, ioDone_moved (by rw [ioOut_alen, count]),
          ioOut_alen, ioOut_mem, count, wrote.mem, Nat.sub_self, Io.setAlen_mem, buffer]
      · have after := wrote.spells inStep mapped
        rw [Nat.add_sub_cancel_left, Io.setAlen_mem, buffer, Io.setAlen_ctx, funext bytes] at after
        exact after
      · rw [ioOut_din, wrote.grown.size, count]
        rfl
    | err e t =>
      rw [ran] at ends
      obtain ⟨u, rfl, -, bs', p, wrote, stuck, below⟩ := ends
      have short : bs'.length < roundupDiv (offset + len) blkSize := by
        have place := stuck.place
        rw [← not_le, roundupDiv_le]
        omega
      exact absurd stuck.full (affords.enough inStep.sound mapped wrote.grown short)
    | fault reason =>
      rw [ran] at ends
      exact ends.elim

/-! ## Reading -/

/-- `KMEMSIZE`, which bounds every buffer of the kernel. -/
def kmemSize : ℕ := 0x38000000

/-- How many bytes a read finds. -/
def readCount (size : ℕ) (offset : ℤ) (len : ℕ) : ℕ := if 0 ≤ offset then min len (size - offset.toNat) else 0

/-- What a read does to the transfer it began with. -/
theorem sfsIoNolock_reads (inStep : InStep s.ctx) (mapped : Mapped s.ctx.vol s.ctx.sin.din bs)
    (buffer : len ≤ kmemSize) (small : offset < maxFileSize) :
    ∃ t, sfsIoNolock false offset len s = .ok () t ∧ t.ctx = s.ctx ∧
      t.alen = min len (s.ctx.sin.din.size - offset) ∧
      ∀ i, t.mem i = if i < t.alen then byteOf s.ctx.vol bs (offset + i) else s.mem i := by
  have size := inStep.size_le_mapBytes
  have most := mapBytes_lt
  have ends : endPos offset len = (offset + len : ℕ) := by
    unfold kmemSize at buffer
    unfold maxFileSize at small
    unfold endPos
    rw [Int.bmod_def]
    split
    · omega
    · omega
  rw [sfsIoNolock, get_bind_run, require_bind_run inStep.notDir, modify_bind_run, ends, if_neg (by omega)]
  by_cases none : len = 0 ∨ s.ctx.sin.din.size ≤ offset
  · refine ⟨s.setAlen 0, ?_, rfl, by change 0 = _; omega, fun i => (if_neg (Nat.not_lt_zero i)).symm⟩
    by_cases empty : len = 0
    · rw [if_pos (by omega)]
      rfl
    · rw [if_neg (by omega), if_pos ⟨rfl, by omega⟩]
      rfl
  · have stop : min (min (offset + len) maxFileSize) s.ctx.sin.din.size =
        offset + min len (s.ctx.sin.din.size - offset) := by omega
    rw [if_neg (by omega), if_neg (by omega), if_neg (by simp)]
    rw [Int.toNat_natCast, Int.toNat_natCast, stop]
    have transfer := @ioTransfer_read bs (s.setAlen 0) offset (offset + min len (s.ctx.sin.din.size - offset))
      inStep.sound mapped ((by omega : _ ≤ s.ctx.sin.din.size).trans (inStep.size_le mapped)) rfl (by omega)
    cases ran : ioTransfer false offset (offset + min len (s.ctx.sin.din.size - offset)) (s.setAlen 0) with
    | ok a u =>
      rw [ran] at transfer
      have alen := transfer.alen
      have same : ioOut offset u = u := by
        unfold ioOut
        rw [if_neg]
        rw [transfer.ctx, Io.setAlen_ctx]
        omega
      rw [bind_ok (attempt_ok ran)]
      exact ⟨u, by rw [modify_bind_run, same]; rfl, transfer.ctx, by omega, transfer.mem⟩
    | err e u =>
      rw [ran] at transfer
      exact transfer.elim
    | fault reason =>
      rw [ran] at transfer
      exact transfer.elim

/-- `sfs_read` into a buffer of the kernel. -/
theorem Spells.read {offset : ℤ} (spells : Spells c f) (buffer : len ≤ kmemSize) :
    sfsIo false (iobufInit len offset) mem c =
      .ok ⟨⟨readCount c.sin.din.size offset len, offset + readCount c.sin.din.size offset len, len,
          len - readCount c.sin.din.size offset len⟩,
        fun i => if i < readCount c.sin.din.size offset len then f (offset.toNat + i) else mem i,
        if offset < 0 ∨ (maxFileSize : ℤ) ≤ offset then -eInval else 0⟩ c := by
  obtain ⟨bs, mapped, bytes⟩ := spells.bytes
  have inStep := spells.inStep
  by_cases invalid : offset < 0 ∨ (maxFileSize : ℤ) ≤ offset
  · have count : readCount c.sin.din.size offset len = 0 := by
      have size := inStep.size_le_mapBytes
      have most := mapBytes_lt
      unfold readCount
      split
      · omega
      · rfl
    rw [sfsIo_refused inStep.notDir invalid, if_pos invalid, count]
    simp [iobufInit]
  · obtain ⟨start, rfl⟩ := Int.eq_ofNat_of_zero_le (show 0 ≤ offset by omega)
    have count : readCount c.sin.din.size start len = min len (c.sin.din.size - start) := by
      rw [readCount, if_pos (Int.natCast_nonneg _), Int.toNat_natCast]
    obtain ⟨t, ran, ctx, alen, bytesRead⟩ := @sfsIoNolock_reads bs start len ⟨c, len, fun i => mem (0 + i)⟩ inStep
      mapped buffer (by omega)
    rw [sfsIo_ok ran, ioDone_moved (by omega), if_neg invalid, count, ctx, ← alen]
    congr 2
    funext i
    rw [bytesRead, Int.toNat_natCast, bytes]
    dsimp only
    rw [Nat.zero_add]

/-! ## Truncating -/

/-- An extension adds zeros, which the bytes behind the last block are already. -/
theorem Spells.extend (spells : Spells c f) (longer : c.sin.din.size ≤ len) (within : len ≤ mapBytes)
    (affords : Affords c len) :
    ∃ c', truncLocked len c = .ok () c' ∧ Spells c' f ∧ c'.sin.din.size = len := by
  obtain ⟨bs, mapped, bytes⟩ := spells.bytes
  have inStep := spells.inStep
  have more : c.sin.din.blocks ≤ roundupDiv len blkSize := by
    rw [inStep.blocks]
    unfold roundupDiv blkSize
    omega
  have ends := truncLocked_grows inStep.sound mapped more within
  cases ran : truncLocked len c with
  | ok _ t =>
    rw [ran] at ends
    obtain ⟨d, bs', rfl, grown, length, same⟩ := ends
    exact ⟨_, rfl, ⟨grown.inStep inStep.type length, bs', grown.mapped.resize len,
      fun x => (same x).trans (bytes x)⟩, rfl⟩
  | err e t =>
    rw [ran] at ends
    obtain ⟨bs', grown, short, full⟩ := ends
    exact absurd full (affords.enough inStep.sound mapped grown short)
  | fault reason =>
    rw [ran] at ends
    exact ends.elim

/-- Truncation to 0 leaves no bytes. -/
theorem Spells.empty (spells : Spells c f) :
    ∃ c', truncLocked 0 c = .ok () c' ∧ Spells c' (fun _ => 0) ∧ c'.sin.din.size = 0 := by
  obtain ⟨bs, mapped, -⟩ := spells.bytes
  have inStep := spells.inStep
  obtain ⟨d, bs', ran, reshaped, length⟩ := @truncLocked_shrinks c bs 0 inStep.sound mapped (Nat.zero_le _)
  have none : bs' = [] := length_eq_zero_iff.mp length
  subst none
  exact ⟨_, ran, ⟨reshaped.inStep inStep.type length, [], reshaped.mapped.resize 0, fun _ => rfl⟩, rfl⟩

/-! ## Byte strings -/

/-- The file holds exactly the bytes of `content`, and zeros behind them in its last block. -/
structure Stores (c : Ctx) (content : List UInt8) : Prop where
  spells : Spells c fun x => content.getD x 0
  size : c.sin.din.size = content.length

/-- The first `len` bytes of a buffer. -/
def bytesOf (mem : Block) (len : ℕ) : List UInt8 := (range len).map mem

@[simp] theorem length_bytesOf : (bytesOf mem len).length = len := by
  rw [bytesOf, length_map, length_range]

theorem getElem_bytesOf (inside : i < (bytesOf mem len).length) : (bytesOf mem len)[i] = mem i := by
  simp [bytesOf]

/-- A string with `buf` written over it from `offset` on. -/
def overwrite (content : List UInt8) (offset : ℕ) (buf : List UInt8) : List UInt8 :=
  content.take offset ++ buf ++ content.drop (offset + buf.length)

theorem length_overwrite (reached : offset ≤ content.length) :
    (overwrite content offset (bytesOf mem len)).length = max content.length (offset + len) := by
  simp only [overwrite, length_append, length_take, length_drop, length_bytesOf]
  omega

theorem getD_overwrite (reached : offset ≤ content.length) (x : ℕ) :
    (overwrite content offset (bytesOf mem len)).getD x 0 = copy (fun x => content.getD x 0) offset mem len x := by
  have first : (content.take offset).length = offset := by
    rw [length_take]
    omega
  have both : (content.take offset ++ bytesOf mem len).length = offset + len := by
    rw [length_append, first, length_bytesOf]
  rw [overwrite, copy]
  rcases Nat.lt_or_ge x offset with before | after
  · rw [if_neg (by omega), getD_append _ _ _ _ (by omega), getD_append _ _ _ _ (by omega),
      getD_eq_getElem _ _ (by omega), getD_eq_getElem _ _ (by omega), getElem_take]
  · rcases Nat.lt_or_ge x (offset + len) with inside | beyond
    · rw [if_pos ⟨after, inside⟩, getD_append _ _ _ _ (by omega), getD_append_right _ _ _ _ (by omega),
        first, getD_eq_getElem _ _ (by rw [length_bytesOf]; omega), getElem_bytesOf]
    · rw [if_neg (by omega), getD_append_right _ _ _ _ (by omega), both, length_bytesOf, getD_eq_getElem?_getD,
        getD_eq_getElem?_getD, getElem?_drop]
      congr 2
      omega

/-- The part of a string that a read of `len` bytes at `offset` finds. -/
def slice (content : List UInt8) (offset : ℤ) (len : ℕ) : List UInt8 :=
  if 0 ≤ offset then (content.drop offset.toNat).take len else []

theorem length_slice (offset : ℤ) : (slice content offset len).length = readCount content.length offset len := by
  unfold slice readCount
  split
  · rw [length_take, length_drop]
  · rfl

theorem getD_slice {offset : ℤ} {x : UInt8} : (slice content offset len).getD i x =
    if i < readCount content.length offset len then content.getD (offset.toNat + i) 0 else x := by
  have length := @length_slice content len offset
  by_cases inside : i < readCount content.length offset len
  · have valid : 0 ≤ offset := by
      by_contra negative
      rw [readCount, if_neg negative] at inside
      omega
    have found : i < (slice content offset len).length := by omega
    rw [if_pos inside, getD_eq_getElem _ _ found]
    rw [readCount, if_pos valid] at inside
    simp only [slice, if_pos valid, getElem_take, getElem_drop]
    rw [getD_eq_getElem _ _ (by omega)]
  · rw [if_neg inside, getD_eq_default _ _ (by omega)]

/-! ## Calls on a file and on a byte string -/

/-- The calls on one file. -/
inductive ByteCall where
  | write (offset : ℤ) (len : ℕ) (mem : Block)
  | read (offset : ℤ) (len : ℕ) (mem : Block)
  | tryseek (pos : ℕ)
  | truncate

namespace ByteCall

def run : ByteCall → Kernel Fault Ctx (Option Transfer)
  | .write offset len mem => do
    let moved ← sfsIo true (iobufInit len offset) mem
    pure (some moved)
  | .read offset len mem => do
    let moved ← sfsIo false (iobufInit len offset) mem
    pure (some moved)
  | .tryseek pos => do
    sfsTryseek pos
    pure none
  | .truncate => do
    sfsTruncfile 0
    pure none

/-- A write begins at most at the end of the file; the file stays within what its map has
room for, and the disk has the blocks for it. -/
def Allowed (c : Ctx) : ByteCall → Prop
  | .write offset len _ => offset ≤ c.sin.din.size ∧
      (0 ≤ offset → offset.toNat + len ≤ mapBytes ∧ Affords c (offset.toNat + len))
  | .read _ len _ => len ≤ kmemSize
  | .tryseek pos => pos ≤ mapBytes ∧ Affords c pos
  | .truncate => True

/-- What the call makes of a byte string. -/
def effect (content : List UInt8) : ByteCall → List UInt8
  | .write offset len mem => if 0 ≤ offset then overwrite content offset.toNat (bytesOf mem len) else content
  | .read _ _ _ => content
  | .tryseek pos => content ++ replicate (pos - content.length) 0
  | .truncate => []

/-- What the call hands back: the iobuf moved by the bytes written or read, the buffer, and
the return code. -/
def answer (content : List UInt8) : ByteCall → Option Transfer
  | .write offset len mem =>
    if 0 ≤ offset then some ⟨⟨len, offset + len, len, 0⟩, mem, 0⟩
    else some ⟨iobufInit len offset, mem, -eInval⟩
  | .read offset len mem =>
    let found := slice content offset len
    some ⟨⟨found.length, offset + found.length, len, len - found.length⟩, fun i => found.getD i (mem i),
      if offset < 0 ∨ (maxFileSize : ℤ) ≤ offset then -eInval else 0⟩
  | .tryseek _ => none
  | .truncate => none

end ByteCall

theorem Stores.write (stores : Stores c content) (reached : offset ≤ c.sin.din.size)
    (within : offset + len ≤ mapBytes) (affords : Affords c (offset + len)) :
    ∃ c', sfsIo true (iobufInit len offset) mem c = .ok ⟨⟨len, offset + len, len, 0⟩, mem, 0⟩ c' ∧
      Stores c' (overwrite content offset (bytesOf mem len)) := by
  have inside : offset ≤ content.length := by
    rw [← stores.size]
    exact reached
  obtain ⟨c', ran, spells, size⟩ := stores.spells.write reached within affords
  have same : (fun x => (overwrite content offset (bytesOf mem len)).getD x 0) =
      copy (fun x => content.getD x 0) offset mem len := funext (getD_overwrite inside)
  refine ⟨c', ran, ?_, ?_⟩
  · rw [same]
    exact spells
  · rw [size, length_overwrite inside, stores.size]

theorem Stores.tryseek {pos : ℕ} (stores : Stores c content) (within : pos ≤ mapBytes) (affords : Affords c pos) :
    ∃ c', sfsTryseek pos c = .ok () c' ∧ Stores c' (content ++ replicate (pos - content.length) 0) := by
  have most := mapBytes_lt
  have size := stores.size
  rw [sfsTryseek, if_neg (by omega), get_bind_run, Int.toNat_natCast]
  by_cases beyond : c.sin.din.size < pos
  · obtain ⟨c', ran, spells, length⟩ := stores.spells.extend beyond.le within affords
    rw [if_pos beyond, sfsTruncfile, if_neg (by omega), get_bind_run, Int.toNat_natCast, if_neg (by omega)]
    refine ⟨c', ran, ?_, ?_⟩
    · have same : (fun x => (content ++ replicate (pos - content.length) 0).getD x 0) =
          fun x => content.getD x 0 := by
        funext x
        rcases Nat.lt_or_ge x content.length with inside | outside
        · rw [getD_append _ _ _ _ inside]
        · rw [getD_append_right _ _ _ _ outside, getD_eq_getElem?_getD, getElem?_getD_replicate_default_eq,
            getD_eq_default _ _ outside]
      rw [same]
      exact spells
    · rw [length, length_append, length_replicate]
      omega
  · rw [if_neg beyond, show pos - content.length = 0 by omega, replicate_zero, append_nil]
    exact ⟨c, rfl, stores⟩

theorem Stores.truncate (stores : Stores c content) : ∃ c', sfsTruncfile 0 c = .ok () c' ∧ Stores c' [] := by
  have valid : ¬ ((0 : ℤ) < 0 ∨ (maxFileSize : ℤ) < 0) := by decide
  rw [sfsTruncfile, if_neg valid, get_bind_run, Int.toNat_zero]
  by_cases same : c.sin.din.size = 0
  · rw [if_pos same, require_run (by rw [stores.spells.inStep.blocks, same])]
    have none : content = [] := length_eq_zero_iff.mp (stores.size.symm.trans same)
    exact ⟨c, rfl, none ▸ stores⟩
  · obtain ⟨c', ran, spells, size⟩ := stores.spells.empty
    rw [if_neg same]
    exact ⟨c', ran, spells, size⟩

/-- A call on a file does and answers what it does on the byte string. -/
theorem Stores.call (stores : Stores c content) (call : ByteCall) (allowed : call.Allowed c) :
    ∃ c', call.run c = .ok (call.answer content) c' ∧ Stores c' (call.effect content) := by
  cases call with
  | write offset len mem =>
    obtain ⟨reached, room⟩ := allowed
    rw [ByteCall.run, ByteCall.answer, ByteCall.effect]
    by_cases valid : 0 ≤ offset
    · obtain ⟨start, rfl⟩ := Int.eq_ofNat_of_zero_le valid
      obtain ⟨within, affords⟩ := room valid
      obtain ⟨c', ran, after⟩ := @Stores.write c content mem start len stores (by omega) within affords
      rw [if_pos valid, if_pos valid, bind_ok ran]
      exact ⟨c', rfl, after⟩
    · have ran := @sfsIo_refused c mem len true offset stores.spells.inStep.notDir (Or.inl (by omega))
      rw [if_neg valid, if_neg valid, bind_ok ran]
      exact ⟨c, rfl, stores⟩
  | read offset len mem =>
    have ran := @Spells.read c _ mem len offset stores.spells allowed
    refine ⟨c, ?_, stores⟩
    rw [ByteCall.run, bind_ok ran, ByteCall.answer, stores.size]
    simp only [length_slice, getD_slice]
    rfl
  | tryseek pos =>
    obtain ⟨within, affords⟩ := allowed
    obtain ⟨c', ran, after⟩ := stores.tryseek within affords
    exact ⟨c', by rw [ByteCall.run, bind_ok ran]; rfl, after⟩
  | truncate =>
    obtain ⟨c', ran, after⟩ := stores.truncate
    exact ⟨c', by rw [ByteCall.run, bind_ok ran]; rfl, after⟩

/-! ## Runs -/

/-- Something else happened on the volume: the file has kept its blocks and what is in them. -/
structure Aside (c c' : Ctx) : Prop extends Elsewhere c c' where
  disk : ∀ bs, Mapped c.vol c.sin.din bs → ∀ b ∈ bs, c'.vol.disk b = c.vol.disk b

/-- The states a file goes through, and beside them the byte string. -/
inductive ByteRun (start : Ctx) (initial : List UInt8) : Ctx → List UInt8 → Prop
  | start : ByteRun start initial start initial
  | call {c c' : Ctx} {content : List UInt8} (call : ByteCall) : ByteRun start initial c content →
      call.Allowed c → (call.run c).Leaves c' → ByteRun start initial c' (call.effect content)
  | aside {c c' : Ctx} {content : List UInt8} : ByteRun start initial c content → Aside c c' →
      ByteRun start initial c' content

theorem Spells.aside (spells : Spells c f) (aside : Aside c c') : Spells c' f := by
  obtain ⟨bs, mapped, bytes⟩ := spells.bytes
  have inStep := spells.inStep
  have kept := aside.mapped bs mapped
  rw [← aside.sin] at kept
  refine ⟨⟨aside.sound, ?_, ⟨bs, kept⟩, ?_⟩, bs, kept, ?_⟩
  · rw [aside.sin]
    exact inStep.type
  · rw [aside.sin]
    exact inStep.blocks
  · intro x
    rw [byteOf_congr (aside.disk bs mapped) x, bytes]

theorem Stores.aside (stores : Stores c content) (aside : Aside c c') : Stores c' content :=
  ⟨stores.spells.aside aside, by rw [aside.sin]; exact stores.size⟩

theorem ByteRun.stores {start : Ctx} {initial : List UInt8} (run : ByteRun start initial c content)
    (stores : Stores start initial) : Stores c content := by
  induction run with
  | start => exact stores
  | call call _ allowed leaves ih =>
    obtain ⟨c', ran, after⟩ := ih.call call allowed
    rw [ran] at leaves
    rcases leaves with ⟨_, same⟩ | ⟨_, same⟩
    · cases same
      exact after
    · cases same
  | aside _ aside ih => exact ih.aside aside

/-- A regular file refines a byte string: after every sequence of calls the size is the
length of the string, and the next call comes back with what the string answers and does to
the file what it does to the string. -/
theorem file_refines_bytes {start : Ctx} {initial : List UInt8} (stores : Stores start initial)
    (run : ByteRun start initial c content) : c.sin.din.size = content.length ∧
      ∀ call : ByteCall, call.Allowed c →
        ∃ c', call.run c = .ok (call.answer content) c' ∧ Stores c' (call.effect content) := by
  have reached := run.stores stores
  exact ⟨reached.size, reached.call⟩

theorem tight_stores : Stores tight [] := by
  obtain ⟨bs, mapped⟩ := tight_inStep.mapped
  have none : bs = [] := length_eq_zero_iff.mp mapped.blocks.symm
  subst none
  exact ⟨⟨tight_inStep, [], mapped, fun _ => rfl⟩, rfl⟩

/-- Three bytes are written to an empty file, and more bytes than these are asked for. -/
theorem file_refines_bytes_tight : ∃ c, c.sin.din.size = 3 ∧
    ∃ c', (ByteCall.read 1 8 zeroBlock).run c =
      .ok ((ByteCall.read 1 8 zeroBlock).answer (bytesOf (fun i => UInt8.ofNat (i + 1)) 3)) c' := by
  have run : ByteRun tight [] _ _ := ByteRun.call (.write 0 3 fun i => UInt8.ofNat (i + 1)) .start
    ⟨by decide, fun _ => ⟨by decide, by unfold Affords; decide⟩⟩ (Or.inl ⟨_, rfl⟩)
  obtain ⟨size, calls⟩ := file_refines_bytes tight_stores run
  obtain ⟨c', ran, -⟩ := calls (.read 1 8 zeroBlock) (show 8 ≤ kmemSize by decide)
  exact ⟨_, size, c', ran⟩

end LiNos.Fs
