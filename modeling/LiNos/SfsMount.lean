import LiNos.SfsDisk

/-!
Mounting a volume (`sfs_do_mount` in sfs_fs.c).

The memory `sfs_do_mount` asks for is there. `unmounted` is the volume before: the
blocks of the device, and nothing known about them.
-/

namespace LiNos.Fs

open Kernel LittleEndian Finset

/-- A device with its blocks. -/
def unmounted (disk : ℕ → Block) (outcomes : List ℤ) : Vol where
  super := ⟨0, 0, 0, fun _ => 0⟩
  superDirty := false
  freemap := ⟨0, 0, fun _ => 0#32⟩
  disk := disk
  outcomes := outcomes

/-- `sfs_init_read`, with the range check of `disk0_io`. -/
def sfsInitRead (dBlocks blkno : ℕ) : Kernel Fault Vol Block := do
  if dBlocks < blkno + 1 then fail (-eInval)
  else do
    dopIo
    let v ← get
    pure (v.disk blkno)

/-- The loop of `sfs_init_freemap`: `nblks` blocks are read one behind the other. -/
def readFreemap (dBlocks : ℕ) : ℕ → ℕ → Kernel Fault Vol Block
  | _, 0 => pure zeroBlock
  | blkno, nblks + 1 => do
    let first ← sfsInitRead dBlocks blkno
    let rest ← readFreemap dBlocks (blkno + 1) nblks
    pure fun i => if i < blkSize then first i else rest (i - blkSize)

/-- The words that lie in a piece of memory. -/
def wordsOf (data : Block) : ℕ → BitVec 32 := fun ix => BitVec.ofNat 32 (getLE data (4 * ix) 4)

/-- `sfs_init_freemap`. -/
def sfsInitFreemap (dBlocks : ℕ) (freemap : Bitmap) (blkno nblks : ℕ) : Kernel Fault Vol Bitmap := do
  require (4 * freemap.nwords = nblks * blkSize) .assertion
  let data ← readFreemap dBlocks blkno nblks
  pure { freemap with map := wordsOf data }

/-- The loop that counts the free blocks. -/
def countFree : ℕ → Kernel Fault Bitmap ℕ
  | 0 => pure 0
  | n + 1 => do
    let unused ← countFree n
    let free ← bitmapTest n
    pure (if free then unused + 1 else unused)

/-- `sfs_freemap_bits`. -/
def freemapBits (blocks : ℕ) : ℕ :=
  (blocks + blkBits - 1) % 2 ^ 32 - (blocks + blkBits - 1) % 2 ^ 32 % blkBits

/-- `sfs_freemap_blocks`. -/
def freemapBlocks (blocks : ℕ) : ℕ := (blocks + blkBits - 1) % 2 ^ 32 / blkBits

/-- `sfs_do_mount` on a device of `dBlocks` blocks of `SFS_BLKSIZE` bytes. -/
def sfsDoMount (dBlocks : ℕ) : Kernel Fault Vol Unit := do
  let buffer ← sfsInitRead dBlocks blknSuper
  let super := Super.load buffer
  if super.magic ≠ sfsMagic then fail (-eInval)
  else if dBlocks < super.blocks then fail (-eInval)
  else
    match bitmapCreate (freemapBits super.blocks) with
    | .error fault => stop fault
    | .ok freemap => do
      let freemap ← sfsInitFreemap dBlocks freemap blknFreemap (freemapBlocks super.blocks)
      modify fun v => { v with super := super, freemap := freemap, superDirty := false }
      let unused ← onFreemap (countFree freemap.nbits)
      require (unused = super.unusedBlocks) .assertion

/-! ## What is read -/

variable {v : Vol} {dBlocks blkno nblks n : ℕ} {bitmap : Bitmap} {disk : ℕ → Block}

theorem sfsInitRead_run (device : v.outcomes = []) (inside : blkno < dBlocks) :
    sfsInitRead dBlocks blkno v = .ok (v.disk blkno) v := by
  have answered : dopIo v = .ok () v := by rw [dopIo, device]
  rw [sfsInitRead, if_neg (by omega), bind_ok answered]
  rfl

/-- The blocks come one behind the other. -/
theorem readFreemap_run (device : v.outcomes = []) (inside : blkno + nblks ≤ dBlocks) :
    ∃ data : Block, readFreemap dBlocks blkno nblks v = .ok data v ∧
      ∀ k < nblks, ∀ i < blkSize, data (k * blkSize + i) = v.disk (blkno + k) i := by
  induction nblks generalizing blkno with
  | zero => exact ⟨zeroBlock, rfl, fun k below => by omega⟩
  | succ nblks ih =>
    obtain ⟨rest, ran, blocks⟩ := @ih (blkno + 1) (by omega)
    refine ⟨fun i => if i < blkSize then v.disk blkno i else rest (i - blkSize), ?_, ?_⟩
    · rw [readFreemap, bind_ok (sfsInitRead_run device (by omega)), bind_ok ran]
      rfl
    · intro k below i small
      cases k with
      | zero => simp [small]
      | succ k =>
        have behind : ¬ (k + 1) * blkSize + i < blkSize := by
          rw [Nat.succ_mul]
          omega
        simp only [behind, if_false]
        have there := blocks k (by omega) i small
        rw [Nat.succ_mul, show k * blkSize + blkSize + i - blkSize = k * blkSize + i by omega, there,
          show blkno + 1 + k = blkno + (k + 1) by omega]

/-- Word `ix` of the free map lies in block `ix / 1024` of it. -/
theorem wordsOf_blocks {data : Block}
    (blocks : ∀ k < nblks, ∀ i < blkSize, data (k * blkSize + i) = disk (blkno + k) i) {ix : ℕ}
    (inside : ix < nblks * blkNentry) :
    wordsOf data ix =
      BitVec.ofNat 32 (getLE (disk (blkno + ix / blkNentry)) (4 * (ix % blkNentry)) 4) := by
  have below : ix / blkNentry < nblks := Nat.div_lt_of_lt_mul (by rw [mul_comm]; exact inside)
  unfold wordsOf
  congr 1
  apply getLE_congr
  intro i small
  have place : 4 * ix + i = ix / blkNentry * blkSize + (4 * (ix % blkNentry) + i) := by
    unfold blkNentry blkSize
    omega
  rw [place]
  apply blocks _ below
  unfold blkNentry blkSize
  omega

/-- The count is the number of free bits. -/
theorem countFree_run (inside : n ≤ bitmap.nbits) :
    countFree n bitmap =
      .ok ((range n).filter fun i => bitmap.bit i = true).card bitmap := by
  induction n with
  | zero => rfl
  | succ n ih =>
    rw [countFree, bind_ok (ih (by omega)), bind_ok (bitmapTest_run (by omega)), pure_run,
      range_add_one, filter_insert]
    cases free : bitmap.bit n with
    | false => simp
    | true => simp

theorem freemapBits_eq (small : n + blkBits ≤ 2 ^ 32) (positive : 0 < n) :
    freemapBits n = freemapBlocks n * blkBits := by
  unfold freemapBits freemapBlocks
  rw [Nat.mod_eq_of_lt (by omega)]
  have whole := Nat.div_add_mod (n + blkBits - 1) blkBits
  rw [mul_comm] at whole
  omega

theorem le_freemapBits (small : n + blkBits ≤ 2 ^ 32) (positive : 0 < n) : n ≤ freemapBits n := by
  unfold freemapBits blkBits blkSize at *
  omega

/-- A bitmap of whole blocks has no bits left over. -/
theorem bitmapCreate_run (positive : 0 < nblks) (small : nblks * blkBits + wordBits ≤ 2 ^ 32) :
    bitmapCreate (nblks * blkBits) =
      .ok ⟨nblks * blkBits, nblks * blkNentry, fun _ => 0xFFFFFFFF#32⟩ := by
  have words : (nblks * blkBits + wordBits - 1) / wordBits = nblks * blkNentry := by
    unfold blkBits blkNentry blkSize wordBits at *
    omega
  have whole : nblks * blkBits = nblks * blkNentry * wordBits := by
    unfold blkBits blkNentry blkSize wordBits at *
    omega
  have accepted : nblks * blkBits ≠ 0 ∧ nblks * blkBits < (nblks * blkBits + wordBits) % 2 ^ 32 := by
    unfold blkBits blkSize wordBits at *
    omega
  unfold bitmapCreate
  rw [if_pos accepted]
  simp only [words]
  rw [if_neg (by rw [← whole]; simp)]

/-- The free map of the blocks behind the super block. -/
def freemapOf (disk : ℕ → Block) : ℕ → Bool := fun i =>
  (getLE (disk (blknFreemap + i / blkBits)) (4 * (i % blkBits / wordBits)) 4).testBit (i % wordBits)

/-- A volume whose super block counts the free blocks of its free map is mounted. -/
theorem sfsDoMount_run {super : Super} (loaded : Super.load (disk blknSuper) = super)
    (magic : super.magic = sfsMagic) (positive : 0 < super.blocks)
    (small : super.blocks + blkBits + wordBits ≤ 2 ^ 32) (fits : super.blocks ≤ dBlocks)
    (area : blknFreemap + freemapBlocks super.blocks ≤ dBlocks)
    (counted : super.unusedBlocks = ((range (freemapBits super.blocks)).filter fun i =>
      freemapOf disk i = true).card) :
    ∃ v, sfsDoMount dBlocks (unmounted disk []) = .ok () v ∧ v.super = super ∧
      v.freemap.nbits = freemapBits super.blocks ∧ ∀ i < v.freemap.nbits, v.freemap.bit i = freemapOf disk i := by
  have bits := freemapBits_eq (by omega) positive
  have cover := le_freemapBits (by omega) positive
  have any : 0 < freemapBlocks super.blocks := by
    by_contra none
    rw [bits, show freemapBlocks super.blocks = 0 by omega] at cover
    omega
  have created := bitmapCreate_run any (by
    rw [← bits]
    unfold freemapBits
    omega)
  rw [← bits] at created
  obtain ⟨data, read, blocks⟩ :=
    @readFreemap_run (unmounted disk []) dBlocks blknFreemap (freemapBlocks super.blocks) rfl area
  -- the free map in memory
  obtain ⟨freemap, made⟩ : ∃ freemap : Bitmap, freemap =
    ⟨freemapBits super.blocks, freemapBlocks super.blocks * blkNentry, wordsOf data⟩ := ⟨_, rfl⟩
  have words : freemap.nbits = freemap.nwords * wordBits := by
    rw [made]
    change freemapBits super.blocks = freemapBlocks super.blocks * blkNentry * wordBits
    rw [bits]
    unfold blkBits blkNentry blkSize wordBits
    omega
  have same : ∀ i < freemap.nbits, freemap.bit i = freemapOf disk i := by
    intro i inside
    have word : i / wordBits < freemapBlocks super.blocks * blkNentry := by
      rw [words, made] at inside
      exact Nat.div_lt_of_lt_mul (by rw [mul_comm]; exact inside)
    have block : i / wordBits / blkNentry = i / blkBits := by
      unfold blkBits blkNentry blkSize wordBits
      omega
    have place : i / wordBits % blkNentry = i % blkBits / wordBits := by
      unfold blkBits blkNentry blkSize wordBits
      omega
    have offset : i % wordBits < 32 := Nat.mod_lt _ (by decide)
    rw [made]
    change (wordsOf data (i / wordBits)).getLsbD (i % wordBits) = _
    rw [wordsOf_blocks blocks word, BitVec.getLsbD_ofNat, block, place]
    simp [freemapOf, offset, unmounted]
  have nbits : freemap.nbits = freemapBits super.blocks := by rw [made]
  have count : onFreemap (countFree freemap.nbits) ⟨super, false, freemap, disk, []⟩ =
      .ok super.unusedBlocks ⟨super, false, freemap, disk, []⟩ := by
    have ran := @countFree_run freemap.nbits freemap le_rfl
    have equal : ((range freemap.nbits).filter fun i => freemap.bit i = true) =
        (range freemap.nbits).filter fun i => freemapOf disk i = true := by
      apply filter_congr
      intro i member
      rw [same i (mem_range.mp member)]
    rw [equal] at ran
    nth_rewrite 2 [nbits] at ran
    rw [← counted] at ran
    exact zoom_ok ran
  refine ⟨⟨super, false, freemap, disk, []⟩, ?_, rfl, nbits, same⟩
  have filled : sfsInitFreemap dBlocks ⟨freemapBits super.blocks, freemapBlocks super.blocks * blkNentry,
      fun _ => 0xFFFFFFFF#32⟩ blknFreemap (freemapBlocks super.blocks) (unmounted disk []) =
        .ok freemap (unmounted disk []) := by
    have whole : 4 * (freemapBlocks super.blocks * blkNentry) = freemapBlocks super.blocks * blkSize := by
      unfold blkNentry blkSize
      omega
    rw [sfsInitFreemap, require_bind_run whole, bind_ok read, made]
    rfl
  have started : sfsInitRead dBlocks blknSuper (unmounted disk []) =
      .ok (disk blknSuper) (unmounted disk []) := sfsInitRead_run rfl (by unfold blknSuper; omega)
  rw [sfsDoMount, bind_ok started]
  rw [loaded]
  rw [if_neg (not_not.mpr magic), if_neg (by omega), created]
  refine (bind_ok filled).trans ?_
  rw [modify_bind_run]
  exact (bind_ok count).trans (require_run rfl _ _)

end LiNos.Fs
