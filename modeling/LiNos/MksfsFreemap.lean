import LiNos.Mksfs
import LiNos.SfsMount

/-!
The free map in an image.

`close_sfs` fills the free map block by block, with bits set from `next_ino` on and up
to the number of blocks; the kernel reads it as words. Both find the bit of a block
in the same word, so the map means the same to both, wherever the two borders lie.
-/

namespace LiNos.Mksfs

open Kernel LittleEndian Fs Function List

variable {sfs sfs' : Sfs} {ino number size len i j k start count left real type : ℕ}
  {image : ℕ → Block} {buffer data : Block} {α : Type}

/-- The first block behind the free map. -/
def firstIno (ninos : ℕ) : ℕ := blknFreemap + (ninos + blkBits - 1) / blkBits

/-! ## States of a packing run -/

/-- The states of the builder between `create_sfs` and `close_sfs`: blocks, cached
blocks and cached inodes are allocated in any number and order, blocks that were
allocated are written, and what is cached changes. -/
inductive Packing : Sfs → Prop
  | create {size root : ℕ} {image : ℕ → Block} {sfs : Sfs}
      (made : createSfs size image = .ok root sfs) : Packing sfs
  | alloc {sfs sfs' : Sfs} {ino : ℕ} (run : Packing sfs) (took : sfsAllocIno sfs = .ok ino sfs') :
      Packing sfs'
  | cacheBlock {sfs sfs' : Sfs} {number : ℕ} (run : Packing sfs)
      (took : allocCacheBlock 0 sfs = .ok number sfs') : Packing sfs'
  | cacheInode {sfs sfs' : Sfs} {number real type : ℕ} (run : Packing sfs)
      (took : allocCacheInode real 0 type sfs = .ok number sfs') : Packing sfs'
  | write {sfs sfs' : Sfs} {data : Block} {len ino : ℕ} (run : Packing sfs)
      (behind : firstIno sfs.ninos ≤ ino) (below : ino < sfs.nextIno)
      (wrote : writeBlock data len ino sfs = .ok () sfs') : Packing sfs'
  | inode {sfs : Sfs} {file : ℕ} {change : CacheInode → CacheInode} (run : Packing sfs)
      (kept : ∀ ci, (change ci).ino = ci.ino) :
      Packing { sfs with inode := update sfs.inode file (change (sfs.inode file)) }
  | index {sfs : Sfs} {block i ino : ℕ} (run : Packing sfs) :
      Packing { sfs with
        cache := update sfs.cache block (copy (sfs.cache block) (4 * i) (bytesLE ino) 4) }
  | entry {sfs : Sfs} (entry : Block) (run : Packing sfs) : Packing { sfs with entry := entry }

/-- What is known of such a state: the blocks from `first_ino` up to `next_ino` are
taken and the super block counts the rest; what is cached lies in blocks that were
taken, or is the root. -/
structure Laid (sfs : Sfs) : Prop where
  magic : sfs.super.magic = sfsMagic
  blocks : sfs.super.blocks = sfs.ninos
  most : sfs.ninos ≤ maxNblks
  room : firstIno sfs.ninos < sfs.ninos
  first : firstIno sfs.ninos ≤ sfs.nextIno
  last : sfs.nextIno ≤ sfs.ninos
  unused : sfs.super.unusedBlocks = sfs.ninos - sfs.nextIno
  inodes : ∀ i, ∀ n ∈ sfs.inodes i, (n = blknRoot ∨ firstIno sfs.ninos ≤ n ∧ n < sfs.nextIno) ∧
    (sfs.inode n).ino = n
  cached : ∀ i, ∀ n ∈ sfs.blocks i, firstIno sfs.ninos ≤ n ∧ n < sfs.nextIno

theorem sfsAllocIno_ok (took : sfsAllocIno sfs = .ok ino sfs') :
    sfs.nextIno < sfs.ninos ∧ ino = sfs.nextIno ∧ sfs' = { sfs with
      super := { sfs.super with unusedBlocks := sfs.super.unusedBlocks - 1 }
      nextIno := sfs.nextIno + 1 } := by
  rw [sfsAllocIno, get_bind_run] at took
  split at took
  · cases took
    exact ⟨‹_›, rfl, rfl⟩
  · cases took

theorem writeBlock_ok (wrote : writeBlock data len ino sfs = .ok () sfs') :
    sfs' = { sfs with
      image := update sfs.image ino
        (if len ≠ blkSize then copy zeroBlock 0 data len else data) } := by
  rw [writeBlock, get_bind_run] at wrote
  obtain ⟨_, t, required, stored⟩ := bind_eq_ok wrote
  obtain ⟨-, rfl⟩ := require_eq_ok required
  cases stored
  rfl

theorem writeBlock_run (short : len ≤ blkSize) (below : ino < sfs.ninos) :
    writeBlock data len ino sfs = .ok () { sfs with
      image := update sfs.image ino
        (if len ≠ blkSize then copy zeroBlock 0 data len else data) } := by
  rw [writeBlock, get_bind_run, require_bind_run ⟨short, below⟩]
  rfl

theorem Laid.alloc (laid : Laid sfs) (took : sfsAllocIno sfs = .ok ino sfs') :
    Laid sfs' ∧ firstIno sfs'.ninos ≤ ino ∧ ino < sfs'.nextIno := by
  obtain ⟨room, rfl, rfl⟩ := sfsAllocIno_ok took
  obtain ⟨magic, blocks, most, large, first, last, unused, inodes, cached⟩ := laid
  refine ⟨⟨magic, blocks, most, large, by simp only; omega, by simp only; omega,
    by simp only; omega, ?_, ?_⟩, first, by simp⟩
  · intro i n member
    obtain ⟨place, same⟩ := inodes i n member
    exact ⟨place.imp_right fun ⟨low, high⟩ => ⟨low, by simp only; omega⟩, same⟩
  · intro i n member
    obtain ⟨low, high⟩ := cached i n member
    exact ⟨low, by simp only; omega⟩

/-- A new number on a hash list. -/
theorem mem_push {lists : ℕ → List ℕ} {h n : ℕ}
    (member : n ∈ update lists h (number :: lists h) i) : n = number ∨ n ∈ lists i := by
  by_cases same : i = h
  · subst same
    simpa using member
  · rw [update_of_ne same] at member
    exact .inr member

theorem Laid.cacheBlock (laid : Laid sfs) (took : allocCacheBlock 0 sfs = .ok number sfs') :
    Laid sfs' := by
  obtain ⟨n, t, allocated, pushed⟩ := bind_eq_ok took
  obtain ⟨⟨magic, blocks, most, large, first, last, unused, inodes, cached⟩, low, high⟩ :=
    laid.alloc allocated
  cases pushed
  refine ⟨magic, blocks, most, large, first, last, unused, inodes, ?_⟩
  intro i n member
  rcases mem_push member with rfl | member
  · exact ⟨low, high⟩
  · exact cached i n member

/-- A cached inode is entered under its number. -/
theorem Laid.enter (laid : Laid sfs)
    (place : number = blknRoot ∨ firstIno sfs.ninos ≤ number ∧ number < sfs.nextIno) :
    Laid { sfs with
      inode := update sfs.inode number
        { inode := newInode type, real := real, ino := number, nblks := 0, l1 := none, l2 := none }
      inodes := update sfs.inodes (hash32 real) (number :: sfs.inodes (hash32 real)) } := by
  refine { laid with inodes := ?_ }
  intro i n member
  by_cases same : n = number
  · subst same
    exact ⟨place, by simp⟩
  · rcases mem_push member with rfl | member
    · exact absurd rfl same
    · have known := laid.inodes i n member
      exact ⟨known.1, by simpa [same] using known.2⟩

theorem Laid.cacheInode (laid : Laid sfs)
    (took : allocCacheInode real 0 type sfs = .ok number sfs') : Laid sfs' := by
  obtain ⟨n, t, allocated, entered⟩ := bind_eq_ok took
  obtain ⟨moved, low, high⟩ := laid.alloc allocated
  cases entered
  exact moved.enter (.inr ⟨low, high⟩)

theorem createSfs_laid {root : ℕ} (made : createSfs size image = .ok root sfs) : Laid sfs := by
  unfold createSfs at made
  cases empty : emptySfs size image with
  | none => simp [empty] at made
  | some start =>
    simp only [empty] at made
    unfold emptySfs at empty
    simp only at empty
    split at empty
    · cases empty
    · rename_i large
      cases empty
      obtain ⟨n, t, allocated, entered⟩ := bind_eq_ok made
      cases allocated
      cases entered
      refine Laid.enter ⟨rfl, rfl, min_le_right _ _, ?_, le_rfl, ?_, rfl, ?_, ?_⟩ (.inl rfl)
      · simpa [firstIno] using large
      · exact (not_le.mp large).le
      · intro i n member
        cases member
      · intro i n member
        cases member

theorem Packing.laid (run : Packing sfs) : Laid sfs := by
  induction run with
  | create made => exact createSfs_laid made
  | alloc _ took ih => exact (ih.alloc took).1
  | cacheBlock _ took ih => exact ih.cacheBlock took
  | cacheInode _ took ih => exact ih.cacheInode took
  | write _ _ _ wrote ih =>
    obtain rfl := writeBlock_ok wrote
    exact { ih with }
  | @inode sfs file change _ kept ih =>
    refine { ih with inodes := ?_ }
    intro i n member
    obtain ⟨place, same⟩ := ih.inodes i n member
    refine ⟨place, ?_⟩
    change (update sfs.inode file (change (sfs.inode file)) n).ino = n
    by_cases changed : n = file
    · subst changed
      rw [update_self, kept, same]
    · rw [update_of_ne changed, same]
  | index _ ih =>
    exact { ih with }
  | entry _ _ ih =>
    exact { ih with }

/-! ## What packing a tree does

Every function of the builder is made of these steps. -/

section Steps

variable (current file : ℕ) (name : List UInt8)

/-- The step goes from such a state to such states. -/
abbrev Packs (m : Pack α) : Prop := Meets Packing m fun _ => Packing

theorem sfsAllocIno_packing :
    Meets Packing sfsAllocIno fun ino sfs =>
      Packing sfs ∧ firstIno sfs.ninos ≤ ino ∧ ino < sfs.nextIno := fun _ _ _ run took =>
  ⟨run.alloc took, (run.laid.alloc took).2⟩

theorem writeBlock_packing (data : Block) (len ino : ℕ) :
    Meets (fun sfs => Packing sfs ∧ firstIno sfs.ninos ≤ ino ∧ ino < sfs.nextIno)
      (writeBlock data len ino) fun _ => Packing := by
  rintro s ⟨⟩ t ⟨run, behind, below⟩ wrote
  exact run.write behind below wrote

theorem setInode_packing (change : CacheInode → CacheInode) (kept : ∀ ci, (change ci).ino = ci.ino) :
    Packs (setInode file change) :=
  meets_modify fun _ run => run.inode kept

theorem setIndex_packing (block i ino : ℕ) : Packs (setIndex block i ino) :=
  meets_modify fun _ run => run.index

/-- Looking at the state changes nothing. -/
theorem look_packing {m : Sfs → Pack α} (rest : ∀ sfs, Packs (m sfs)) : Packs (Kernel.get >>= m) :=
  meets_get.bind fun sfs => (rest sfs).imp (fun _ both => both.1) fun _ _ run => run

/-- One step after the other. -/
theorem then_packing {β : Type} {m : Pack α} {f : α → Pack β} (first : Packs m)
    (rest : ∀ a, Packs (f a)) : Packs (m >>= f) :=
  first.bind rest

theorem require_packing {p : Prop} [Decidable p] (reason : Exit) : Packs (require p reason) :=
  meets_require.imp (fun _ run => run) fun _ _ both => both.1

theorem updateCache_packing (cb : Option ℕ) (ino : ℕ) : Packs (updateCache cb ino) := by
  apply meets_ite
  · intro _ s number t run took
    exact run.cacheBlock took
  · intro _
    apply meets_ite
    · intro _
      apply look_packing
      intro sfs
      exact (require_packing _).bind fun _ => meets_pure fun _ run => run
    · intro _
      exact meets_pure fun _ run => run

theorem placeBlock_packing (nblks ino : ℕ) : Packs (placeBlock file nblks ino) := by
  apply look_packing
  intro sfs
  by_cases direct : nblks < l0Nblks
  · simp only [direct, dite_true]
    exact setInode_packing file _ fun _ => rfl
  · simp only [direct, dite_false]
    apply meets_ite
    · intro _
      refine (updateCache_packing _ _).bind fun l1 => ?_
      apply then_packing
      · exact setInode_packing file _ fun _ => rfl
      · exact fun _ => setIndex_packing _ _ _
    · intro _
      apply meets_ite
      · intro _
        refine (updateCache_packing _ _).bind fun l2 => ?_
        apply then_packing
        · exact setInode_packing file _ fun _ => rfl
        · intro _
          apply look_packing
          intro sfs
          refine (updateCache_packing _ _).bind fun l1 => ?_
          apply then_packing
          · exact setInode_packing file _ fun _ => rfl
          · exact fun _ => (setIndex_packing _ _ _).bind fun _ => setIndex_packing _ _ _
      · intro _
        exact meets_pure fun _ run => run

theorem appendBlock_packing (size ino : ℕ) : Packs (appendBlock file size ino) := by
  refine (require_packing _).bind fun _ => ?_
  apply look_packing
  intro sfs
  apply meets_ite
  · intro _
    exact meets_stop
  · intro _
    exact (placeBlock_packing file _ ino).bind fun _ => setInode_packing file _ fun _ => rfl

theorem addEntry_packing : Packs (addEntry current file name) := by
  apply look_packing
  intro sfs
  refine (require_packing _).bind fun _ => ?_
  apply then_packing
  · exact meets_modify fun _ run => run.entry _
  · intro _
    refine sfsAllocIno_packing.bind fun ino => ?_
    refine (writeBlock_packing _ _ ino).bind fun _ => ?_
    exact (appendBlock_packing current _ ino).bind fun _ => setInode_packing file _ fun _ => rfl

theorem openFileLoop_packing (last : ℕ) (chunks : List (List UInt8)) :
    Packs (openFileLoop file last chunks) := by
  induction chunks generalizing last with
  | nil => exact meets_pure fun _ run => run
  | cons chunk chunks ih =>
    refine (require_packing _).bind fun _ => ?_
    refine sfsAllocIno_packing.bind fun ino => ?_
    refine (writeBlock_packing _ _ ino).bind fun _ => ?_
    exact (appendBlock_packing file _ ino).bind fun _ => ih _

theorem allocCacheInode_packing (real type : ℕ) :
    Packs (allocCacheInode real 0 type) := fun _ _ _ run took =>
  run.cacheInode took

theorem addFile_packing (real : ℕ) (bytes : List UInt8) :
    Packs (addFile current name real bytes) := by
  apply look_packing
  intro sfs
  cases searchCacheInode sfs real with
  | some file => exact addEntry_packing current file name
  | none =>
    refine (allocCacheInode_packing real typeFile).bind fun file => ?_
    exact (openFileLoop_packing file _ _).bind fun _ => addEntry_packing current file name

theorem addLink_packing (real : ℕ) (target : List UInt8) :
    Packs (addLink current name real target) := by
  refine (allocCacheInode_packing real typeLink).bind fun file => ?_
  have opened : Packs (openLink file target) := by
    refine sfsAllocIno_packing.bind fun ino => ?_
    apply meets_ite
    · intro _
      exact meets_stop
    · intro _
      exact (writeBlock_packing _ _ ino).bind fun _ => appendBlock_packing file _ ino
  exact opened.bind fun _ => addEntry_packing current file name

mutual

theorem addNode_packing (current : ℕ) (name : List UInt8) :
    ∀ node, Packs (addNode current name node)
  | .file real bytes => addFile_packing current name real bytes
  | .link real target => addLink_packing current name real target
  | .other => meets_pure fun _ run => run
  | .dir real entries => by
    apply look_packing
    intro sfs
    refine (require_packing _).bind fun _ => ?_
    refine (allocCacheInode_packing real typeDir).bind fun dir => ?_
    refine (addEntry_packing dir dir dot).bind fun _ => ?_
    refine (addEntry_packing dir current dotdot).bind fun _ => ?_
    exact (addEntries_packing dir entries).bind fun _ => addEntry_packing current dir name

theorem addEntries_packing (current : ℕ) :
    ∀ entries, Packs (addEntries current entries)
  | .nil => meets_pure fun _ run => run
  | .cons name node rest => by
    rw [addEntries]
    apply meets_ite
    · intro _
      exact addEntries_packing current rest
    · intro _
      apply meets_ite
      · intro _
        exact meets_stop
      · intro _
        exact (addNode_packing current name node).bind fun _ => addEntries_packing current rest

end

/-- Whatever tree is packed, the builder goes through such states. -/
theorem openDir_packing (parent : ℕ) (entries : Entries) :
    Packs (openDir current parent entries) := by
  refine (addEntry_packing current current dot).bind fun _ => ?_
  exact (addEntry_packing current parent dotdot).bind fun _ => addEntries_packing current entries

end Steps

/-! ## The bits of the map -/

/-- Bit `j` of a block of the free map. -/
def bitAt (buffer : Block) (j : ℕ) : Bool := (getLE buffer (4 * (j / 32)) 4).testBit (j % 32)

/-- A bit is set in its word. -/
theorem bitAt_set (buffer : Block) (i j : ℕ) :
    bitAt (copy buffer (4 * (i / 32)) (bytesLE (getLE buffer (4 * (i / 32)) 4 ||| 1 <<< (i % 32))) 4) j =
      (decide (j = i) || bitAt buffer j) := by
  unfold bitAt
  by_cases home : j / 32 = i / 32
  · have small : getLE buffer (4 * (i / 32)) 4 ||| 1 <<< (i % 32) < 256 ^ 4 := by
      apply Nat.or_lt_two_pow (n := 32) (getLE_lt buffer _ 4)
      rw [Nat.one_shiftLeft]
      exact Nat.pow_lt_pow_right (by decide) (Nat.mod_lt _ (by decide))
    rw [home, getLE_copy_bytesLE small, Nat.testBit_or, Nat.one_shiftLeft, Nat.testBit_two_pow,
      Bool.or_comm]
    congr 1
    rw [decide_eq_decide]
    omega
  · have other : j ≠ i := by
      rintro rfl
      exact home rfl
    rw [getLE_copy_apart (by omega)]
    simp [other]

theorem bitAt_zeroBlock (j : ℕ) : bitAt zeroBlock j = false := by
  have zero : getLE zeroBlock (4 * (j / 32)) 4 = 0 := by simp [getLE, zeroBlock]
  simp [bitAt, zero]

theorem bitAt_freeBits (start count j : ℕ) :
    bitAt (freeBits zeroBlock start count) j = decide (start ≤ j ∧ j < start + count) := by
  induction count with
  | zero =>
    rw [freeBits, bitAt_zeroBlock]
    simp
  | succ count ih =>
    rw [freeBits, bitAt_set, ih]
    rw [← Bool.decide_or, decide_eq_decide]
    omega

/-- Bit `j` of the map's block for the blocks from `i` on. -/
theorem bitAt_freemapBlock {ninos nextIno : ℕ} (inside : j < blkBits) (last : nextIno ≤ ninos) :
    bitAt (freemapBlock ninos nextIno i) j = decide (nextIno ≤ i + j ∧ i + j < ninos) := by
  unfold freemapBlock
  split
  · rw [bitAt_freeBits, decide_eq_decide]
    split <;> split <;> omega
  · rw [bitAt_zeroBlock]
    simp
    omega

/-! ## Closing -/

/-- The blocks of the free map are written, and no others. -/
theorem writeFreemap_run (enough : sfs.ninos ≤ i + left * blkBits)
    (inside : ∀ b, ino ≤ b → i + (b - ino) * blkBits < sfs.ninos → b < sfs.ninos) :
    writeFreemap i ino left sfs = .ok () { sfs with
      image := fun b =>
        if ino ≤ b ∧ i + (b - ino) * blkBits < sfs.ninos then
          freemapBlock sfs.ninos sfs.nextIno (i + (b - ino) * blkBits)
        else sfs.image b } := by
  induction left generalizing sfs i ino with
  | zero =>
    have none : ∀ b, ¬ (ino ≤ b ∧ i + (b - ino) * blkBits < sfs.ninos) := by
      intro b
      omega
    simp [writeFreemap, none]
  | succ left ih =>
    have next : ∀ b, ino < b → i + (b - ino) * blkBits = i + blkBits + (b - (ino + 1)) * blkBits := by
      intro b behind
      rw [show b - ino = b - (ino + 1) + 1 by omega, Nat.succ_mul]
      omega
    rw [writeFreemap, get_bind_run]
    by_cases more : i < sfs.ninos
    · have first := @writeBlock_run sfs ino blkSize (freemapBlock sfs.ninos sfs.nextIno i) le_rfl
        (inside ino le_rfl (by simpa using more))
      rw [if_pos more, bind_ok first, ih]
      · congr 2
        funext b
        rcases lt_trichotomy b ino with before | rfl | behind
        · have notYet : ¬ ino ≤ b := by omega
          have notNext : ¬ ino + 1 ≤ b := by omega
          simp [notYet, notNext, before.ne]
        · simp [more]
        · simp only [next b behind, update_of_ne behind.ne', Nat.succ_le_of_lt behind,
            behind.le, true_and]
      · rw [Nat.succ_mul] at enough
        simp only
        omega
      · intro b behind below
        rw [← next b behind] at below
        exact inside b (by omega) below
    · have none : ∀ b, ¬ (ino ≤ b ∧ i + (b - ino) * blkBits < sfs.ninos) := by
        intro b
        omega
      simp [more, none]

/-- A cached block is in the image, or the block is not cached. -/
theorem flushBlocks_run {numbers : List ℕ} (inside : ∀ n ∈ numbers, n < sfs.ninos) :
    flushBlocks numbers sfs = .ok () { sfs with
      image := fun b => if b ∈ numbers then sfs.cache b else sfs.image b } := by
  induction numbers generalizing sfs with
  | nil => simp [flushBlocks]
  | cons number rest ih =>
    have first := @writeBlock_run sfs number blkSize (sfs.cache number) le_rfl
      (inside number mem_cons_self)
    rw [flushBlocks, get_bind_run, bind_ok first, ih]
    · congr 2
      funext b
      by_cases later : b ∈ rest
      · simp [later]
      · by_cases same : b = number
        · subst same
          simp [later]
        · simp [later, same]
    · intro n member
      exact inside n (mem_cons_of_mem _ member)

/-- The block of a cached inode. -/
def inodeBlock (sfs : Sfs) (b : ℕ) : Block := copy zeroBlock 0 (sfs.inode b).inode.image inodeSize

theorem flushInodes_run {numbers : List ℕ} (inside : ∀ n ∈ numbers, n < sfs.ninos)
    (named : ∀ n ∈ numbers, (sfs.inode n).ino = n) :
    flushInodes numbers sfs = .ok () { sfs with
      image := fun b => if b ∈ numbers then inodeBlock sfs b else sfs.image b } := by
  induction numbers generalizing sfs with
  | nil => simp [flushInodes]
  | cons number rest ih =>
    have name := named number mem_cons_self
    have first := @writeBlock_run sfs (sfs.inode number).ino inodeSize (sfs.inode number).inode.image
      (by decide) (by rw [name]; exact inside number mem_cons_self)
    rw [flushInodes, get_bind_run, bind_ok first, ih]
    · congr 2
      funext b
      by_cases later : b ∈ rest
      · simp [later, inodeBlock]
      · by_cases same : b = number
        · subst same
          simp [later, name, inodeBlock, show inodeSize ≠ blkSize by decide]
        · simp [later, same, name]
    · intro n member
      exact inside n (mem_cons_of_mem _ member)
    · intro n member
      exact named n (mem_cons_of_mem _ member)

/-- The blocks that the last loop of `close_sfs` does not write stay as they are. -/
theorem flushAll_run (inodes : ∀ i, ∀ n ∈ sfs.inodes i, n < sfs.ninos ∧ (sfs.inode n).ino = n)
    (cached : ∀ i, ∀ n ∈ sfs.blocks i, n < sfs.ninos) :
    ∃ image, flushAll i left sfs = .ok () { sfs with image := image } ∧
      ∀ b, (∀ k, b ∉ sfs.inodes k ∧ b ∉ sfs.blocks k) → image b = sfs.image b := by
  induction left generalizing sfs i with
  | zero => exact ⟨sfs.image, rfl, fun b _ => rfl⟩
  | succ left ih =>
    have one := flushBlocks_run (cached i)
    have two := @flushInodes_run { sfs with
      image := fun b => if b ∈ sfs.blocks i then sfs.cache b else sfs.image b } (sfs.inodes i)
      (fun n member => (inodes i n member).1) (fun n member => (inodes i n member).2)
    obtain ⟨image, rest, kept⟩ := @ih { sfs with
      image := fun b => if b ∈ sfs.inodes i then inodeBlock sfs b
        else if b ∈ sfs.blocks i then sfs.cache b else sfs.image b } (i + 1) inodes cached
    refine ⟨image, ?_, ?_⟩
    · rw [flushAll, get_bind_run, bind_ok one, bind_ok two]
      exact rest
    · intro b outside
      rw [kept b outside]
      simp [(outside i).1, (outside i).2]

theorem Laid.firstIno_blocks (b : ℕ) :
    blknFreemap ≤ b ∧ 0 + (b - blknFreemap) * blkBits < sfs.ninos ↔
      blknFreemap ≤ b ∧ b < firstIno sfs.ninos := by
  unfold firstIno blknFreemap blkBits blkSize
  omega

theorem two_le_firstIno (ninos : ℕ) : 2 ≤ firstIno ninos := Nat.le_add_right _ _

/-- Nothing cached lies in front of the first block that packing takes, but the root. -/
theorem Laid.uncached (laid : Laid sfs) {b : ℕ} (before : b < firstIno sfs.ninos) (other : b ≠ blknRoot)
    (k : ℕ) : b ∉ sfs.inodes k ∧ b ∉ sfs.blocks k := by
  constructor
  · intro member
    rcases (laid.inodes k b member).1 with root | ⟨behind, -⟩
    · exact other root
    · omega
  · intro member
    have behind := (laid.cached k b member).1
    omega

/-- What `close_sfs` leaves in the image: the free map and the super block. The blocks
that are flushed at the end lie elsewhere. -/
theorem closeSfs_run (laid : Laid sfs) :
    ∃ image, closeSfs sfs = .ok () { sfs with image := image } ∧
      image blknSuper = copy zeroBlock 0 sfs.super.image 44 ∧
      ∀ b, blknFreemap ≤ b → b < firstIno sfs.ninos →
        image b = freemapBlock sfs.ninos sfs.nextIno ((b - blknFreemap) * blkBits) := by
  have room := laid.room
  have map := @writeFreemap_run sfs blknFreemap 0 sfs.ninos (by unfold blkBits blkSize; omega) (by
    intro b behind below
    have inside := ((Laid.firstIno_blocks b).mp ⟨behind, below⟩).2
    omega)
  have super := fun image => @writeBlock_run { sfs with image := image } blknSuper 44 sfs.super.image
    (by decide) (by simp only [blknSuper]; omega)
  obtain ⟨image, flushed, kept⟩ := @flushAll_run { sfs with
      image := update (fun b =>
        if blknFreemap ≤ b ∧ 0 + (b - blknFreemap) * blkBits < sfs.ninos then
          freemapBlock sfs.ninos sfs.nextIno (0 + (b - blknFreemap) * blkBits)
        else sfs.image b) blknSuper (copy zeroBlock 0 sfs.super.image 44) } 0 hashListSize
    (by
      intro i n member
      obtain ⟨place, name⟩ := laid.inodes i n member
      have last := laid.last
      refine ⟨?_, name⟩
      have low := two_le_firstIno sfs.ninos
      rcases place with rfl | ⟨-, below⟩
      · simp only [blknRoot]
        omega
      · exact below.trans_le last)
    (by
      intro i n member
      have last := laid.last
      exact (laid.cached i n member).2.trans_le last)
  refine ⟨image, ?_, ?_, ?_⟩
  · rw [closeSfs, get_bind_run, bind_ok map, bind_ok (super _)]
    exact flushed
  · have low := two_le_firstIno sfs.ninos
    rw [kept blknSuper (laid.uncached (by unfold blknSuper; omega) (by decide))]
    simp only [update_self]
  · intro b behind below
    have notSuper : b ≠ blknSuper := by
      unfold blknFreemap at behind
      unfold blknSuper
      omega
    have notRoot : b ≠ blknRoot := by
      unfold blknFreemap at behind
      unfold blknRoot
      omega
    rw [kept b (laid.uncached below notRoot)]
    simp only [update_of_ne notSuper]
    rw [if_pos ((Laid.firstIno_blocks b).mpr ⟨behind, below⟩), zero_add]

/-! ## The kernel's view -/

theorem freemapBlocks_eq {ninos : ℕ} (most : ninos ≤ maxNblks) :
    blknFreemap + freemapBlocks ninos = firstIno ninos := by
  unfold freemapBlocks firstIno
  rw [Nat.mod_eq_of_lt]
  unfold maxNblks at most
  unfold blkBits blkSize
  omega

/-- The kernel finds in the blocks that `close_sfs` wrote the bits it has set. -/
theorem freemapOf_closed {ninos nextIno : ℕ} (most : ninos ≤ maxNblks) (last : nextIno ≤ ninos)
    (map : ∀ b, blknFreemap ≤ b → b < firstIno ninos →
      image b = freemapBlock ninos nextIno ((b - blknFreemap) * blkBits))
    (inside : i < freemapBlocks ninos * blkBits) :
    freemapOf image i = decide (nextIno ≤ i ∧ i < ninos) := by
  have area := freemapBlocks_eq most
  have block : i / blkBits < freemapBlocks ninos := Nat.div_lt_of_lt_mul (by rwa [mul_comm])
  have offset : i % blkBits < blkBits := Nat.mod_lt _ (by decide)
  have bit := @bitAt_freemapBlock (i / blkBits * blkBits) (i % blkBits) ninos nextIno offset last
  rw [Nat.div_add_mod'] at bit
  rw [← bit, freemapOf, map _ (Nat.le_add_right _ _) (by omega), Nat.add_sub_cancel_left, bitAt]
  have within : i % blkBits % 32 = i % 32 := by
    unfold blkBits blkSize
    omega
  rw [within]
  rfl

/-- The free map of the kernel has exactly the bits of the blocks that packing has not
taken: as many as the super block says, and none behind the last block. -/
structure Agrees (sfs : Sfs) (v : Vol) : Prop where
  blocks : v.super.blocks = sfs.ninos
  cover : v.super.blocks ≤ v.freemap.nbits
  test : ∀ i < v.freemap.nbits, bitmapTest i v.freemap =
    .ok (decide (sfs.nextIno ≤ i ∧ i < sfs.ninos)) v.freemap
  behind : ∀ i < v.freemap.nbits, v.super.blocks ≤ i → bitmapTest i v.freemap = .ok false v.freemap
  count : v.freeCount = v.super.unusedBlocks
  unused : v.super.unusedBlocks = sfs.ninos - sfs.nextIno

theorem Packing.mounts {dBlocks : ℕ} (run : Packing sfs) (fits : sfs.ninos ≤ dBlocks) :
    ∃ image v, closeSfs sfs = .ok () { sfs with image := image } ∧
      sfsDoMount dBlocks (unmounted image []) = .ok () v ∧ Agrees sfs v := by
  have laid := run.laid
  obtain ⟨image, closed, super, map⟩ := closeSfs_run laid
  have most := laid.most
  have small : sfs.ninos + blkBits + wordBits ≤ 2 ^ 32 ∧ sfs.ninos < 2 ^ 32 := by
    unfold maxNblks at most
    unfold blkBits blkSize wordBits
    omega
  have positive : 0 < sfs.ninos := by
    have room := laid.room
    omega
  have bits := freemapBits_eq (by omega) positive
  have cover := le_freemapBits (by omega) positive
  have decoded : ∀ i < freemapBits sfs.ninos,
      freemapOf image i = decide (sfs.nextIno ≤ i ∧ i < sfs.ninos) := by
    intro i inside
    exact freemapOf_closed most laid.last map (by rwa [← bits])
  -- the super block as the kernel reads it
  have loaded := @Super.load_image zeroBlock sfs.super (by rw [laid.magic]; decide)
    (by rw [laid.blocks]; exact small.2)
    (by rw [laid.unused]; exact (Nat.sub_le _ _).trans_lt small.2)
  rw [← super] at loaded
  obtain ⟨magic, blocks, unused⟩ := loaded
  rw [laid.magic] at magic
  rw [laid.blocks] at blocks
  rw [laid.unused] at unused
  have counted : ((Finset.range (freemapBits sfs.ninos)).filter fun i => freemapOf image i = true).card =
      sfs.ninos - sfs.nextIno := by
    rw [← Vol.card_stretch cover]
    apply congrArg Finset.card
    apply Finset.filter_congr
    intro i member
    rw [decoded i (Finset.mem_range.mp member), decide_eq_true_iff]
  obtain ⟨v, mounted, same, nbits, read⟩ := @sfsDoMount_run dBlocks image _ rfl magic
    (by rw [blocks]; exact positive) (by rw [blocks]; exact small.1) (by rw [blocks]; exact fits)
    (by
      have room := laid.room
      rw [blocks, freemapBlocks_eq most]
      omega)
    (by rw [blocks, unused, counted])
  rw [blocks] at nbits
  have test : ∀ i < v.freemap.nbits, bitmapTest i v.freemap =
      .ok (decide (sfs.nextIno ≤ i ∧ i < sfs.ninos)) v.freemap := by
    intro i inside
    rw [bitmapTest_run inside, read i inside, decoded i (by rwa [← nbits])]
  refine ⟨_, v, closed, mounted, by rw [same, blocks], by rw [same, blocks, nbits]; exact cover, test,
    ?_, ?_, by rw [same, unused]⟩
  · intro i inside behind
    rw [same, blocks] at behind
    rw [test i inside, decide_eq_false (by omega)]
  · rw [same, unused, ← counted, Vol.freeCount, nbits]
    apply congrArg Finset.card
    apply Finset.filter_congr
    intro i member
    rw [read i (by rw [nbits]; exact Finset.mem_range.mp member)]

/-- `create_img` closes a state of a packing run. -/
theorem createImg_packing {size : ℕ} {image : ℕ → Block} {home : Entries} {sfs' : Sfs}
    (made : createImg size image home = .ok () sfs') : ∃ sfs, Packing sfs ∧ closeSfs sfs = .ok () sfs' := by
  unfold createImg at made
  cases created : createSfs size image with
  | ok root sfs =>
    rw [created] at made
    obtain ⟨_, packed, opened, closed⟩ := bind_eq_ok made
    exact ⟨packed, openDir_packing root root home sfs _ packed (.create created) opened, closed⟩
  | err e sfs | fault reason =>
    rw [created] at made
    cases made

/-- Whenever `close_sfs` is called in a packing run, the kernel mounts the image and its free
map agrees with what packing has taken. So it is for every tree that `create_img` packs. -/
theorem freemap_agrees (dBlocks : ℕ) :
    (∀ sfs, Packing sfs → sfs.ninos ≤ dBlocks → ∃ sfs' v, closeSfs sfs = .ok () sfs' ∧
      sfsDoMount dBlocks (unmounted sfs'.image []) = .ok () v ∧ Agrees sfs v) ∧
    ∀ size image home sfs', createImg size image home = .ok () sfs' → sfs'.ninos ≤ dBlocks →
      ∃ v, sfsDoMount dBlocks (unmounted sfs'.image []) = .ok () v ∧ Agrees sfs' v := by
  constructor
  · intro sfs run fits
    obtain ⟨image, v, closed, mounted, agrees⟩ := run.mounts fits
    exact ⟨_, v, closed, mounted, agrees⟩
  · intro size image home sfs' made fits
    obtain ⟨sfs, run, closed⟩ := createImg_packing made
    obtain ⟨image, closed', -⟩ := closeSfs_run run.laid
    cases closed'.symm.trans closed
    obtain ⟨image, v, closed', mounted, agrees⟩ := run.mounts fits
    cases closed'.symm.trans closed
    exact ⟨v, mounted, { agrees with }⟩

/-- A directory with one file of three bytes, on 16 blocks: three entries, the inode of the
file and its data take five of the 13 that are free at first. -/
def oneFile : Outcome Exit Sfs Unit :=
  createImg (16 * 4096) (fun _ => zeroBlock) (.cons [97] (.file 7 [1, 2, 3]) .nil)

theorem oneFile_made : ∃ a sfs, oneFile = .ok a sfs ∧ sfs.ninos = 16 ∧ sfs.nextIno = 8 :=
  Ends.returned (by decide +kernel)

theorem freemap_agrees_packed :
    ∃ sfs v, oneFile = .ok () sfs ∧ sfsDoMount 16 (unmounted sfs.image []) = .ok () v ∧
      v.super.unusedBlocks = 8 := by
  obtain ⟨_, sfs, made, ninos, next⟩ := oneFile_made
  obtain ⟨v, mounted, agrees⟩ := (freemap_agrees 16).2 _ _ _ sfs made ninos.le
  exact ⟨sfs, v, made, mounted, by rw [agrees.unused, ninos, next]⟩

end LiNos.Mksfs
