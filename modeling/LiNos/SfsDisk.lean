import Mathlib.Tactic.Simps.Basic
import Mathlib.Data.Finset.Card
import Mathlib.Order.Interval.Finset.Nat
import LiNos.LittleEndian
import LiNos.Bitmap

/-!
The blocks of a mounted SFS volume (sfs.h, sfs_io.c and the block functions of
sfs_inode.c).

A block is 4096 bytes of memory. The structures that lie in blocks are given by
their fields and their widths, so that their place in the block is that of the C
structures. A `Vol` is what `struct sfs_fs` says about the disk: the super block, the
free map and, behind the device, the blocks. The answers of the device are a list
that `dop_io` takes its next answer from; when the list is used up it succeeds.

The locks are not part of this model: here one call runs at a time.
-/

namespace LiNos.Fs

open Kernel LittleEndian Function Finset

def blkSize : ℕ := 4096
def ndirect : ℕ := 12
def blkNentry : ℕ := blkSize / 4
def blkBits : ℕ := blkSize * 8
def maxFnameLen : ℕ := 255
def maxFileSize : ℕ := 1024 * 1024 * 128
def blknSuper : ℕ := 0
def blknRoot : ℕ := 1
def blknFreemap : ℕ := 2
def sfsMagic : ℕ := 0x2f8dbe2a

def typeFile : ℕ := 1
def typeDir : ℕ := 2
def typeLink : ℕ := 3

/-- The bytes of a block, or of a buffer. -/
abbrev Block := ℕ → UInt8

def zeroBlock : Block := fun _ => 0

/-- `ROUNDUP_DIV`. -/
def roundupDiv (a n : ℕ) : ℕ := (a + n - 1) / n

/-! ## On-disk structures -/

/-- `struct sfs_super`. -/
structure Super where
  magic : ℕ
  blocks : ℕ
  unusedBlocks : ℕ
  info : ℕ → UInt8

/-- The 44 bytes of a super block. -/
def Super.image (super : Super) : Block := fun i =>
  if i < 12 then packed [(4, super.magic), (4, super.blocks), (4, super.unusedBlocks)] i
  else super.info (i - 12)

def Super.load (mem : Block) : Super where
  magic := getLE mem 0 4
  blocks := getLE mem 4 4
  unusedBlocks := getLE mem 8 4
  info := fun i => mem (12 + i)

/-- `struct sfs_disk_inode`. -/
structure DiskInode where
  size : ℕ
  type : ℕ
  nlinks : ℕ
  blocks : ℕ
  direct : Fin 12 → ℕ
  indirect : ℕ

/-- `sizeof(struct sfs_disk_inode)`. -/
def dinSize : ℕ := 64

def DiskInode.fields (din : DiskInode) : List (ℕ × ℕ) :=
  [(4, din.size), (2, din.type), (2, din.nlinks), (4, din.blocks)] ++
    (List.ofFn din.direct).map (fun block => (4, block)) ++ [(4, din.indirect)]

/-- The bytes of an inode. -/
def DiskInode.image (din : DiskInode) : Block := packed din.fields

def DiskInode.load (mem : Block) : DiskInode where
  size := getLE mem 0 4
  type := getLE mem 4 2
  nlinks := getLE mem 6 2
  blocks := getLE mem 8 4
  direct := fun i => getLE mem (12 + 4 * i) 4
  indirect := getLE mem 60 4

/-- The fields have the widths of the C structure. -/
structure DiskInode.Fits (din : DiskInode) : Prop where
  size : din.size < 2 ^ 32
  type : din.type < 2 ^ 16
  nlinks : din.nlinks < 2 ^ 16
  blocks : din.blocks < 2 ^ 32
  direct : ∀ i, din.direct i < 2 ^ 32
  indirect : din.indirect < 2 ^ 32

/-- A string up to its NUL, in a field of at most `max` bytes. -/
def cString (mem : Block) (pos : ℕ) : ℕ → List UInt8
  | 0 => []
  | max + 1 => if mem pos = 0 then [] else mem pos :: cString mem (pos + 1) max

/-- `struct sfs_disk_entry` as it is read; the name is what string functions see
once `name[SFS_MAX_FNAME_LEN]` is set to NUL. -/
structure DiskEntry where
  ino : ℕ
  name : List UInt8
deriving DecidableEq

def DiskEntry.load (mem : Block) : DiskEntry where
  ino := getLE mem 0 4
  name := cString mem 4 maxFnameLen

/-- The entry that is written: behind the name and its NUL the memory from `kmalloc`
is as it was. -/
def DiskEntry.image (entry : DiskEntry) (memory : Block) : Block := fun i =>
  if i < 4 then bytesLE entry.ino i
  else if i - 4 < entry.name.length then entry.name.getD (i - 4) 0
  else if i - 4 = entry.name.length then 0
  else memory i

/-- `sizeof(struct sfs_disk_entry)`. -/
def entrySize : ℕ := 260

def dot : List UInt8 := [46]
def dotdot : List UInt8 := [46, 46]

/-! ## The volume -/

/-- The part of `struct sfs_fs` that stands for the disk. -/
structure Vol where
  super : Super
  superDirty : Bool
  freemap : Bitmap
  disk : ℕ → Block
  outcomes : List ℤ

namespace Vol

/-- A block is written. -/
@[simps -fullyApplied] def write (v : Vol) (blkno : ℕ) (data : Block) : Vol :=
  { v with disk := update v.disk blkno data }

/-- `super.unused_blocks` is written, and the super block is dirty. -/
def setUnused (v : Vol) (unused : ℕ) : Vol :=
  { v with super := { v.super with unusedBlocks := unused }, superDirty := true }

end Vol

/-- The answer of the device to the next request. -/
def dopIo : Kernel Fault Vol Unit := fun v =>
  match v.outcomes with
  | [] => .ok () v
  | ret :: rest =>
    if ret = 0 then .ok () { v with outcomes := rest } else .err ret { v with outcomes := rest }

/-- `sfs_rwblock_nolock`; the result is the buffer afterwards. -/
def sfsRwblockNolock (buf : Block) (blkno : ℕ) (write check : Bool) : Kernel Fault Vol Block := do
  let v ← get
  require ((blkno ≠ 0 ∨ check = false) ∧ blkno < v.super.blocks) .assertion
  dopIo
  if write then
    modify fun v => v.write blkno buf
    pure buf
  else pure (v.disk blkno)

/-- `sfs_rwblock`, over a buffer of `nblks` blocks. -/
def sfsRwblock (buf : Block) (blkno : ℕ) (write : Bool) : ℕ → Kernel Fault Vol Block
  | 0 => pure buf
  | nblks + 1 => do
    let first ← sfsRwblockNolock buf blkno write true
    let rest ← sfsRwblock (fun i => buf (blkSize + i)) (blkno + 1) write nblks
    pure fun i => if i < blkSize then first i else rest (i - blkSize)

/-- `sfs_rblock`. -/
def sfsRblock (buf : Block) (blkno nblks : ℕ) : Kernel Fault Vol Block :=
  sfsRwblock buf blkno false nblks

/-- `sfs_wblock`. -/
def sfsWblock (buf : Block) (blkno nblks : ℕ) : Kernel Fault Vol Unit := do
  let _ ← sfsRwblock buf blkno true nblks
  pure ()

/-- `sfs_rbuf`; the result is what is copied to the start of the caller's buffer. -/
def sfsRbuf (len blkno offset : ℕ) : Kernel Fault Vol Block := do
  require (offset < blkSize ∧ offset + len ≤ blkSize) .assertion
  let buffer ← sfsRwblockNolock zeroBlock blkno false true
  pure fun i => buffer (offset + i)

/-- `sfs_wbuf`. -/
def sfsWbuf (buf : Block) (len blkno offset : ℕ) : Kernel Fault Vol Unit := do
  require (offset < blkSize ∧ offset + len ≤ blkSize) .assertion
  let buffer ← sfsRwblockNolock zeroBlock blkno false true
  let _ ← sfsRwblockNolock (copy buffer offset buf len) blkno true true
  pure ()

/-- `sfs_sync_super`. -/
def sfsSyncSuper : Kernel Fault Vol Unit := do
  let v ← get
  let _ ← sfsRwblockNolock (copy zeroBlock 0 v.super.image 44) blknSuper true false
  pure ()

/-- The bytes of the words of a bitmap (`bitmap_getdata`). -/
def Bitmap.data (bitmap : Bitmap) : Block := fun i => bytesLE (bitmap.map (i / 4)).toNat (i % 4)

/-- `sfs_sync_freemap`, with `sfs_freemap_blocks`. -/
def sfsSyncFreemap : Kernel Fault Vol Unit := do
  let v ← get
  sfsWblock v.freemap.data blknFreemap (roundupDiv v.super.blocks blkBits)

/-- `sfs_clear_block`. -/
def sfsClearBlock (blkno : ℕ) : ℕ → Kernel Fault Vol Unit
  | 0 => pure ()
  | nblks + 1 => do
    let _ ← sfsRwblockNolock zeroBlock blkno true true
    sfsClearBlock (blkno + 1) nblks

/-- A call on the free map. -/
def onFreemap {α : Type} (m : Kernel Fault Bitmap α) : Kernel Fault Vol α :=
  zoom Vol.freemap (fun v freemap => { v with freemap := freemap }) m

/-- `sfs_block_inuse`. -/
def sfsBlockInuse (ino : ℕ) : Kernel Fault Vol Bool := do
  let v ← get
  if ino ≠ 0 ∧ ino < v.super.blocks then do
    let free ← onFreemap (bitmapTest ino)
    pure (!free)
  else stop .blockOutOfRange

/-- `sfs_block_alloc`. -/
def sfsBlockAlloc : Kernel Fault Vol ℕ := do
  let ino ← onFreemap bitmapAlloc
  let v ← get
  require (0 < v.super.unusedBlocks) .assertion
  modify fun v => v.setUnused (v.super.unusedBlocks - 1)
  let inuse ← sfsBlockInuse ino
  require (inuse = true) .assertion
  sfsClearBlock ino 1
  pure ino

/-- `sfs_block_free`. -/
def sfsBlockFree (ino : ℕ) : Kernel Fault Vol Unit := do
  let inuse ← sfsBlockInuse ino
  require (inuse = true) .assertion
  onFreemap (bitmapFree ino)
  modify fun v => v.setUnused (v.super.unusedBlocks + 1)

/-! ## Layouts are inverse -/

variable {v v' : Vol} {blkno offset len b i : ℕ} {buf mem : Block} {din : DiskInode}

/-- An inode is read back from the memory its bytes were copied to. -/
theorem DiskInode.load_image (fits : din.Fits) :
    DiskInode.load (copy mem 0 din.image dinSize) = din := by
  obtain ⟨size, type, nlinks, blocks, direct, indirect⟩ := din
  have read : ∀ pos width, pos + width ≤ dinSize →
      getLE (copy mem 0 (DiskInode.image ⟨size, type, nlinks, blocks, direct, indirect⟩) dinSize) pos width =
        getLE (DiskInode.image ⟨size, type, nlinks, blocks, direct, indirect⟩) pos width := by
    intro pos width inside
    have moved := @getLE_copy mem (DiskInode.image ⟨size, type, nlinks, blocks, direct, indirect⟩) 0 pos
      width dinSize inside
    rwa [zero_add] at moved
  simp only [DiskInode.load, DiskInode.mk.injEq]
  refine ⟨?_, ?_, ?_, ?_, ?_, ?_⟩
  · rw [read 0 4 (by decide)]
    exact getLE_packed [] _ fits.size
  · rw [read 4 2 (by decide)]
    exact getLE_packed [(4, size)] _ fits.type
  · rw [read 6 2 (by decide)]
    exact getLE_packed [(4, size), (2, type)] _ fits.nlinks
  · rw [read 8 4 (by decide)]
    exact getLE_packed [(4, size), (2, type), (2, nlinks)] _ fits.blocks
  · funext i
    rw [read (12 + 4 * i) 4 (by unfold dinSize; omega)]
    -- the pointer is the `i`-th of the array, behind four fields of 12 bytes
    have array : List.ofFn direct =
        (List.ofFn direct).take i ++ direct i :: (List.ofFn direct).drop (i + 1) := by
      have inside : (i : ℕ) < (List.ofFn direct).length := by
        rw [List.length_ofFn]
        exact i.isLt
      have rest := List.drop_eq_getElem_cons inside
      rw [List.getElem_ofFn] at rest
      exact (List.take_append_drop i (List.ofFn direct)).symm.trans (congrArg _ rest)
    have found := @getLE_packed 4 (direct i)
      ([(4, size), (2, type), (2, nlinks), (4, blocks)] ++
        ((List.ofFn direct).take i).map fun block => (4, block))
      (((List.ofFn direct).drop (i + 1)).map (fun block => (4, block)) ++ [(4, indirect)])
      (fits.direct i)
    have place : span ([(4, size), (2, type), (2, nlinks), (4, blocks)] ++
        ((List.ofFn direct).take i).map fun block => (4, block)) = 12 + 4 * i := by
      rw [span_append, span_map, List.length_take, List.length_ofFn,
        min_eq_left i.isLt.le, mul_comm]
      rfl
    rw [place] at found
    rw [DiskInode.image, DiskInode.fields, array]
    simpa using found
  · rw [read 60 4 (by decide)]
    have found := @getLE_packed 4 indirect
      ([(4, size), (2, type), (2, nlinks), (4, blocks)] ++
        (List.ofFn direct).map fun block => (4, block)) [] fits.indirect
    simpa [DiskInode.image, DiskInode.fields] using found

/-- The fields of a super block are read back from the memory its bytes were copied to. -/
theorem Super.load_image {super : Super} (magic : super.magic < 2 ^ 32)
    (blocks : super.blocks < 2 ^ 32) (unused : super.unusedBlocks < 2 ^ 32) :
    (Super.load (copy mem 0 super.image 44)).magic = super.magic ∧
      (Super.load (copy mem 0 super.image 44)).blocks = super.blocks ∧
      (Super.load (copy mem 0 super.image 44)).unusedBlocks = super.unusedBlocks := by
  have read : ∀ pos, pos + 4 ≤ 12 → getLE (copy mem 0 super.image 44) pos 4 =
      getLE (packed [(4, super.magic), (4, super.blocks), (4, super.unusedBlocks)]) pos 4 := by
    intro pos inside
    apply getLE_congr
    intro i below
    rw [copy, if_pos (by omega), Super.image, if_pos (by omega), Nat.sub_zero]
  refine ⟨?_, ?_, ?_⟩
  · rw [Super.load, read 0 (by decide)]
    exact getLE_packed [] _ magic
  · rw [Super.load, read 4 (by decide)]
    exact getLE_packed [(4, super.magic)] _ blocks
  · rw [Super.load, read 8 (by decide)]
    exact getLE_packed [(4, super.magic), (4, super.blocks)] _ unused

/-! ## Reading and writing blocks -/

/-- A block that can be asked for. -/
def Vol.Valid (v : Vol) (blkno : ℕ) : Prop := blkno ≠ 0 ∧ blkno < v.super.blocks

section Transfers

variable (device : v.outcomes = []) (valid : v.Valid blkno)
include device valid

theorem sfsRwblockNolock_read :
    sfsRwblockNolock buf blkno false true v = .ok (v.disk blkno) v := by
  have answered : dopIo v = .ok () v := by rw [dopIo, device]
  rw [sfsRwblockNolock, get_bind_run, require_bind_run ⟨Or.inl valid.1, valid.2⟩, bind_ok answered]
  rfl

theorem sfsRwblockNolock_write :
    sfsRwblockNolock buf blkno true true v = .ok buf (v.write blkno buf) := by
  have answered : dopIo v = .ok () v := by rw [dopIo, device]
  rw [sfsRwblockNolock, get_bind_run, require_bind_run ⟨Or.inl valid.1, valid.2⟩, bind_ok answered]
  rfl

theorem sfsRblock_run :
    ∃ data : Block, sfsRblock buf blkno 1 v = .ok data v ∧ ∀ i < blkSize, data i = v.disk blkno i := by
  refine ⟨fun i => if i < blkSize then v.disk blkno i else buf (blkSize + (i - blkSize)), ?_, ?_⟩
  · rw [sfsRblock, sfsRwblock, bind_ok (sfsRwblockNolock_read device valid)]
    rfl
  · intro i inside
    exact if_pos inside

theorem sfsWblock_run : sfsWblock buf blkno 1 v = .ok () (v.write blkno buf) := by
  have first : sfsRwblock buf blkno true 1 v =
      .ok (fun i => if i < blkSize then buf i else buf (blkSize + (i - blkSize))) (v.write blkno buf) := by
    rw [sfsRwblock, bind_ok (sfsRwblockNolock_write device valid)]
    rfl
  rw [sfsWblock, bind_ok first]
  rfl

theorem sfsRbuf_run (inside : offset < blkSize) (fits : offset + len ≤ blkSize) :
    sfsRbuf len blkno offset v = .ok (fun i => v.disk blkno (offset + i)) v := by
  rw [sfsRbuf, require_bind_run ⟨inside, fits⟩, bind_ok (sfsRwblockNolock_read device valid)]
  rfl

theorem sfsWbuf_run (inside : offset < blkSize) (fits : offset + len ≤ blkSize) :
    sfsWbuf buf len blkno offset v =
      .ok () (v.write blkno (copy (v.disk blkno) offset buf len)) := by
  rw [sfsWbuf, require_bind_run ⟨inside, fits⟩, bind_ok (sfsRwblockNolock_read device valid),
    bind_ok (sfsRwblockNolock_write device valid)]
  rfl

theorem sfsClearBlock_run : sfsClearBlock blkno 1 v = .ok () (v.write blkno zeroBlock) := by
  rw [sfsClearBlock, bind_ok (sfsRwblockNolock_write device valid)]
  rfl

end Transfers

/-! ## Taking and giving back blocks -/

namespace Vol

/-- The free map says that a block is free. -/
def Free (v : Vol) (b : ℕ) : Prop := b < v.freemap.nbits ∧ v.freemap.bit b = true

/-- The free map says that a block is in use. -/
def InUse (v : Vol) (b : ℕ) : Prop := v.Valid b ∧ v.freemap.bit b = false

/-- How many blocks are free. -/
def freeCount (v : Vol) : ℕ := ((range v.freemap.nbits).filter fun i => v.freemap.bit i = true).card

/-- A stretch of free blocks. -/
theorem card_stretch {first last bound : ℕ} (below : last ≤ bound) :
    ((range bound).filter fun i => first ≤ i ∧ i < last).card = last - first := by
  have interval : ((range bound).filter fun i => first ≤ i ∧ i < last) = Ico first last := by
    ext i
    simp only [mem_filter, mem_range, mem_Ico]
    omega
  rw [interval, Nat.card_Ico]

/-- A volume as it is mounted: the free map covers the blocks and has whole words,
what it says is free is a block behind the super block, and the super block counts
the free blocks. The device answers every request. -/
structure Sound (v : Vol) : Prop where
  device : v.outcomes = []
  words : v.freemap.nbits = v.freemap.nwords * wordBits
  covered : v.super.blocks ≤ v.freemap.nbits
  free : ∀ b, v.Free b → v.Valid b
  unused : v.super.unusedBlocks = v.freeCount
  small : v.super.blocks ≤ 2 ^ 32

/-- Block `b` is taken: it is marked and cleared. -/
structure Took (v v' : Vol) (b : ℕ) : Prop where
  super : v'.super = { v.super with unusedBlocks := v.super.unusedBlocks - 1 }
  nbits : v'.freemap.nbits = v.freemap.nbits
  nwords : v'.freemap.nwords = v.freemap.nwords
  bits : ∀ i, v'.freemap.bit i = if i = b then false else v.freemap.bit i
  disk : v'.disk = update v.disk b zeroBlock
  outcomes : v'.outcomes = v.outcomes

/-- Block `b` is given back. -/
structure Gave (v v' : Vol) (b : ℕ) : Prop where
  super : v'.super = { v.super with unusedBlocks := v.super.unusedBlocks + 1 }
  nbits : v'.freemap.nbits = v.freemap.nbits
  nwords : v'.freemap.nwords = v.freemap.nwords
  bits : ∀ i, v'.freemap.bit i = if i = b then true else v.freemap.bit i
  disk : v'.disk = v.disk
  outcomes : v'.outcomes = v.outcomes

theorem Sound.write (sound : v.Sound) (b : ℕ) (data : Block) : (v.write b data).Sound :=
  { sound with }

theorem Sound.inUse_lt (sound : v.Sound) (used : v.InUse b) : b < v.freemap.nbits :=
  used.1.2.trans_le sound.covered

theorem Sound.not_free (used : v.InUse b) : ¬ v.Free b := by
  intro free
  have clear := used.2
  rw [free.2] at clear
  cases clear

theorem freeCount_pos (free : v.Free b) : 0 < v.freeCount := by
  apply card_pos.mpr
  exact ⟨b, mem_filter.mpr ⟨mem_range.mpr free.1, free.2⟩⟩

theorem Took.inUse (took : v.Took v' b) (valid : v.Valid b) : v'.InUse b := by
  refine ⟨?_, by rw [took.bits, if_pos rfl]⟩
  unfold Valid at *
  rw [took.super]
  exact valid

theorem Took.inUse_iff (took : v.Took v' b) (other : i ≠ b) : v'.InUse i ↔ v.InUse i := by
  unfold InUse Valid
  rw [took.bits, if_neg other, took.super]

theorem Took.free_iff (took : v.Took v' b) : v'.Free i ↔ v.Free i ∧ i ≠ b := by
  unfold Free
  rw [took.bits, took.nbits]
  by_cases same : i = b
  · simp [same]
  · simp [same]

theorem Took.sound (took : v.Took v' b) (sound : v.Sound) (free : v.Free b) : v'.Sound := by
  refine ⟨took.outcomes.trans sound.device, ?_, ?_, ?_, ?_, ?_⟩
  · rw [took.nbits, took.nwords, sound.words]
  · rw [took.super, took.nbits]
    exact sound.covered
  · intro i before
    have valid := sound.free i (took.free_iff.mp before).1
    unfold Valid at *
    rwa [took.super]
  · have fewer : ((range v'.freemap.nbits).filter fun i => v'.freemap.bit i = true) =
        ((range v.freemap.nbits).filter fun i => v.freemap.bit i = true).erase b := by
      ext i
      simp only [mem_filter, mem_range, mem_erase]
      have iff := @Took.free_iff v v' b i took
      unfold Free at iff
      tauto
    rw [took.super, freeCount, fewer, card_erase_of_mem, sound.unused, freeCount]
    exact mem_filter.mpr ⟨mem_range.mpr free.1, free.2⟩
  · rw [took.super]
    exact sound.small

theorem Gave.free_iff (gave : v.Gave v' b) (below : b < v.freemap.nbits) :
    v'.Free i ↔ v.Free i ∨ i = b := by
  unfold Free
  rw [gave.bits, gave.nbits]
  by_cases same : i = b
  · simp [same, below]
  · simp [same]

theorem Gave.inUse_iff (gave : v.Gave v' b) : v'.InUse i ↔ v.InUse i ∧ i ≠ b := by
  unfold InUse Valid
  rw [gave.bits, gave.super]
  by_cases same : i = b
  · simp [same]
  · simp [same]

theorem Gave.sound (gave : v.Gave v' b) (sound : v.Sound) (used : v.InUse b) : v'.Sound := by
  have below := sound.inUse_lt used
  refine ⟨gave.outcomes.trans sound.device, ?_, ?_, ?_, ?_, ?_⟩
  · rw [gave.nbits, gave.nwords, sound.words]
  · rw [gave.super, gave.nbits]
    exact sound.covered
  · intro i after
    have valid : v.Valid i := by
      rcases (gave.free_iff below).mp after with before | rfl
      · exact sound.free i before
      · exact used.1
    unfold Valid at *
    rwa [gave.super]
  · have more : ((range v'.freemap.nbits).filter fun i => v'.freemap.bit i = true) =
        insert b ((range v.freemap.nbits).filter fun i => v.freemap.bit i = true) := by
      ext i
      simp only [mem_filter, mem_range, mem_insert]
      have iff := @Gave.free_iff v v' b i gave below
      unfold Free at iff
      tauto
    rw [gave.super, freeCount, more, card_insert_of_notMem, sound.unused, freeCount]
    intro member
    exact Sound.not_free used ⟨below, (mem_filter.mp member).2⟩
  · rw [gave.super]
    exact sound.small

end Vol

theorem sfsBlockInuse_run (valid : v.Valid b) (below : b < v.freemap.nbits) :
    sfsBlockInuse b v = .ok (!v.freemap.bit b) v := by
  have tested : onFreemap (bitmapTest b) v = .ok (v.freemap.bit b) v :=
    zoom_ok (bitmapTest_run below)
  rw [sfsBlockInuse, get_bind_run, if_pos ⟨valid.1, valid.2⟩, bind_ok tested]
  rfl

/-- `sfs_block_alloc` takes a free block, if there is one. -/
theorem sfsBlockAlloc_cases (sound : v.Sound) :
    (∃ b v', sfsBlockAlloc v = .ok b v' ∧ v.Free b ∧ v.Took v' b) ∨
      (sfsBlockAlloc v = .err (-eNoMem) v ∧ ∀ b, ¬ v.Free b) := by
  rcases bitmapAlloc_cases v.freemap with
    ⟨b, freemap, ran, below, set, -, nbits, nwords, bits⟩ | ⟨ran, full⟩
  · left
    rw [← sound.words] at below
    have free : v.Free b := ⟨below, set⟩
    have valid := sound.free b free
    have taken : onFreemap bitmapAlloc v = .ok b { v with freemap := freemap } := zoom_ok ran
    have counted : 0 < v.super.unusedBlocks := by
      rw [sound.unused]
      exact Vol.freeCount_pos free
    -- the volume between the two assertions
    let w : Vol := Vol.setUnused { v with freemap := freemap } (v.super.unusedBlocks - 1)
    have tested : sfsBlockInuse b w = .ok true w := by
      rw [@sfsBlockInuse_run w b valid (below.trans_eq nbits.symm), show w.freemap.bit b = _ from bits b,
        if_pos rfl, Bool.not_false]
    have cleared : sfsClearBlock b 1 w = .ok () (w.write b zeroBlock) :=
      sfsClearBlock_run sound.device valid
    refine ⟨b, w.write b zeroBlock, ?_, free, ⟨rfl, nbits, nwords, bits, rfl, rfl⟩⟩
    rw [sfsBlockAlloc, bind_ok taken, get_bind_run, require_bind_run counted, modify_bind_run]
    rw [bind_ok tested, require_bind_run rfl, bind_ok cleared]
    rfl
  · right
    have failed : onFreemap bitmapAlloc v = .err (-eNoMem) v := zoom_err ran
    refine ⟨by rw [sfsBlockAlloc, bind_err failed], ?_⟩
    intro b free
    have clear := full b (by rw [← sound.words]; exact free.1)
    rw [free.2] at clear
    cases clear

/-- The block may lie outside of any layout, as long as it is marked. -/
theorem sfsBlockFree_gives (valid : v.Valid b) (below : b < v.freemap.nbits)
    (used : v.freemap.bit b = false) : ∃ v', sfsBlockFree b v = .ok () v' ∧ v.Gave v' b := by
  obtain ⟨freemap, ran, nbits, nwords, bits⟩ := bitmapFree_run below used
  have tested := sfsBlockInuse_run valid below
  rw [used, Bool.not_false] at tested
  have given : onFreemap (bitmapFree b) v = .ok () { v with freemap := freemap } := zoom_ok ran
  refine ⟨Vol.setUnused { v with freemap := freemap } (v.super.unusedBlocks + 1), ?_,
    ⟨rfl, nbits, nwords, bits, rfl, rfl⟩⟩
  rw [sfsBlockFree, bind_ok tested, require_bind_run rfl, bind_ok given, modify_run]

theorem sfsBlockFree_run (sound : v.Sound) (used : v.InUse b) :
    ∃ v', sfsBlockFree b v = .ok () v' ∧ v.Gave v' b :=
  sfsBlockFree_gives used.1 (sound.inUse_lt used) used.2

end LiNos.Fs
