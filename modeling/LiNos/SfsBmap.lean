import Mathlib.Data.List.GetD
import Mathlib.Tactic.Simps.Basic
import LiNos.SfsDisk

/-!
The block map of an inode (`sfs_bmap_*` in sfs_inode.c).

The functions work on the volume and one inode in memory. What they do to the map is
said about the list of its blocks: `Mapped` relates the list to the direct pointers
and the entries of the indirect block.
-/

namespace LiNos.Fs

open Kernel LittleEndian Function List

/-- The fields of `struct sfs_inode` that the block map and the file operations use. -/
structure SfsInode where
  din : DiskInode
  ino : ℕ
  dirty : Bool

/-- The volume and one inode in memory. -/
structure Ctx where
  vol : Vol
  sin : SfsInode

namespace Ctx

@[simps -fullyApplied] def setVol (c : Ctx) (vol : Vol) : Ctx := { c with vol := vol }

@[simps -fullyApplied] def setDin (c : Ctx) (din : DiskInode) : Ctx :=
  { c with sin := { c.sin with din := din } }

@[simps -fullyApplied] def setDirty (c : Ctx) : Ctx := { c with sin := { c.sin with dirty := true } }

end Ctx

/-- A call on the volume. -/
def onVol {α : Type} (m : Kernel Fault Vol α) : Kernel Fault Ctx α := zoom Ctx.vol Ctx.setVol m

/-- `failed_cleanup` in `sfs_bmap_get_sub_nolock`. -/
def cleanupEntry (entp ent : ℕ) : Kernel Fault Vol Unit :=
  if ent ≠ entp then sfsBlockFree ent else pure ()

/-- The part of `sfs_bmap_get_sub_nolock` that takes a block; the entry block `ent` is
new if it is not the caller's `entp`. -/
def takeEntry (entp ent index : ℕ) : Kernel Fault Vol (ℕ × ℕ) := do
  match ← attempt sfsBlockAlloc with
  | .error e => do
    cleanupEntry entp ent
    fail e
  | .ok ino =>
    match ← attempt (sfsWbuf (bytesLE ino) 4 ent (4 * index)) with
    | .error e => do
      sfsBlockFree ino
      cleanupEntry entp ent
      fail e
    | .ok _ => pure (ent, ino)

/-- `sfs_bmap_get_sub_nolock`; the result is the new `*entp` and `*ino_store`. -/
def sfsBmapGetSubNolock (entp index : ℕ) (create : Bool) : Kernel Fault Vol (ℕ × ℕ) := do
  require (index < blkNentry) .assertion
  if entp ≠ 0 then do
    let buf ← sfsRbuf 4 entp (4 * index)
    if getLE buf 0 4 ≠ 0 ∨ create = false then pure (entp, getLE buf 0 4)
    else takeEntry entp entp index
  else if create = false then pure (entp, 0)
  else do
    let ent ← sfsBlockAlloc
    takeEntry entp ent index

/-- `din->direct[i] = block`. -/
def DiskInode.setDirect (din : DiskInode) (i : Fin 12) (block : ℕ) : DiskInode :=
  { din with direct := update din.direct i block }

/-- The pointer that `sfs_bmap_get_nolock` finds or makes. -/
def bmapPointer (index : ℕ) (create : Bool) : Kernel Fault Ctx ℕ := do
  let c ← get
  if direct : index < 12 then
    if c.sin.din.direct ⟨index, direct⟩ = 0 ∧ create = true then do
      let ino ← onVol sfsBlockAlloc
      modify fun c => (c.setDin (c.sin.din.setDirect ⟨index, direct⟩ ino)).setDirty
      pure ino
    else pure (c.sin.din.direct ⟨index, direct⟩)
  else if index - ndirect < blkNentry then do
    let found ← onVol (sfsBmapGetSubNolock c.sin.din.indirect (index - ndirect) create)
    if found.1 ≠ c.sin.din.indirect then do
      require (c.sin.din.indirect = 0) .assertion
      modify fun c => (c.setDin { c.sin.din with indirect := found.1 }).setDirty
      pure found.2
    else pure found.2
  else stop .indexOutOfRange

/-- `assert(sfs_block_inuse(sfs, ino))`. -/
def assertInuse (ino : ℕ) : Kernel Fault Ctx Unit := do
  let inuse ← onVol (sfsBlockInuse ino)
  require (inuse = true) .assertion

/-- `sfs_bmap_get_nolock`. -/
def sfsBmapGetNolock (index : ℕ) (create : Bool) : Kernel Fault Ctx ℕ := do
  let ino ← bmapPointer index create
  if ino = 0 then pure ino
  else do
    assertInuse ino
    pure ino

/-- `sfs_bmap_free_sub_nolock`. -/
def sfsBmapFreeSubNolock (ent index : ℕ) : Kernel Fault Vol Unit := do
  let inuse ← sfsBlockInuse ent
  require (inuse = true ∧ index < blkNentry) .assertion
  let buf ← sfsRbuf 4 ent (4 * index)
  if getLE buf 0 4 ≠ 0 then do
    sfsWbuf (bytesLE 0) 4 ent (4 * index)
    sfsBlockFree (getLE buf 0 4)
  else pure ()

/-- `sfs_bmap_free_nolock`. -/
def sfsBmapFreeNolock (index : ℕ) : Kernel Fault Ctx Unit := do
  let c ← get
  if direct : index < 12 then
    if c.sin.din.direct ⟨index, direct⟩ ≠ 0 then do
      onVol (sfsBlockFree (c.sin.din.direct ⟨index, direct⟩))
      modify fun c => (c.setDin (c.sin.din.setDirect ⟨index, direct⟩ 0)).setDirty
    else pure ()
  else if index - ndirect < blkNentry ∧ c.sin.din.indirect ≠ 0 then
    onVol (sfsBmapFreeSubNolock c.sin.din.indirect (index - ndirect))
  else pure ()

/-- `sfs_bmap_load_nolock`. -/
def sfsBmapLoadNolock (index : ℕ) : Kernel Fault Ctx ℕ := do
  let c ← get
  require (index ≤ c.sin.din.blocks) .indexPastBlocks
  let ino ← sfsBmapGetNolock index (decide (index = c.sin.din.blocks))
  assertInuse ino
  if index = c.sin.din.blocks then do
    modify fun c => c.setDin { c.sin.din with blocks := c.sin.din.blocks + 1 }
    pure ino
  else pure ino

/-- `sfs_bmap_truncate_nolock`. -/
def sfsBmapTruncateNolock : Kernel Fault Ctx Unit := do
  let c ← get
  require (c.sin.din.blocks ≠ 0) .assertion
  sfsBmapFreeNolock (c.sin.din.blocks - 1)
  modify fun c => (c.setDin { c.sin.din with blocks := c.sin.din.blocks - 1 }).setDirty

/-! ## What a call does to the volume -/

variable {v v' w : Vol} {b ent entp index : ℕ} {bs taken given touched : List ℕ} {din : DiskInode}
  {create : Bool} {α : Type}

namespace Vol

/-- A block is free exactly if it can be asked for and is not in use. -/
theorem Sound.free_iff (sound : v.Sound) : v.Free b ↔ v.Valid b ∧ ¬ v.InUse b := by
  constructor
  · intro free
    exact ⟨sound.free b free, fun used => Sound.not_free used free⟩
  · rintro ⟨valid, unused⟩
    refine ⟨valid.2.trans_le sound.covered, ?_⟩
    by_contra clear
    exact unused ⟨valid, Bool.eq_false_iff.mpr clear⟩

/-- What a call did to the volume: the blocks it took and gave back, and the blocks in
use whose contents it may have changed. -/
structure Moved (v v' : Vol) (taken given touched : List ℕ) : Prop where
  sound : v'.Sound
  blocks : v'.super.blocks = v.super.blocks
  unused : v'.super.unusedBlocks + taken.length = v.super.unusedBlocks + given.length
  inUse : ∀ b, v'.InUse b ↔ v.InUse b ∧ b ∉ given ∨ b ∈ taken
  disk : ∀ b, v.InUse b → b ∉ touched → v'.disk b = v.disk b

theorem Moved.refl (sound : v.Sound) : v.Moved v [] [] [] :=
  ⟨sound, rfl, rfl, by simp, fun _ _ _ => rfl⟩

theorem Moved.valid_iff (moved : v.Moved v' taken given touched) : v'.Valid b ↔ v.Valid b := by
  unfold Valid
  rw [moved.blocks]

theorem Moved.keeps (moved : v.Moved v' taken [] touched) (used : v.InUse b) : v'.InUse b :=
  (moved.inUse b).mpr (.inl ⟨used, not_mem_nil⟩)

/-- What is free after blocks were taken was free before. -/
theorem Moved.free_of (moved : v.Moved v' taken [] touched) (sound : v.Sound) (free : v'.Free b) :
    v.Free b ∧ b ∉ taken := by
  obtain ⟨valid, unused⟩ := moved.sound.free_iff.mp free
  refine ⟨sound.free_iff.mpr ⟨moved.valid_iff.mp valid, ?_⟩, ?_⟩
  · exact fun used => unused (moved.keeps used)
  · exact fun mine => unused ((moved.inUse b).mpr (.inr mine))

/-- Two calls, of which the first only takes blocks and the second keeps them. -/
theorem Moved.trans {more also : List ℕ} (first : v.Moved v' taken [] touched)
    (second : v'.Moved w more given also) (kept : ∀ b ∈ given, b ∉ taken) :
    v.Moved w (taken ++ more) given (touched ++ also) := by
  refine ⟨second.sound, second.blocks.trans first.blocks, ?_, ?_, ?_⟩
  · have one := first.unused
    have two := second.unused
    simp only [length_append, length_nil] at *
    omega
  · intro b
    have here := kept b
    rw [second.inUse, first.inUse]
    simp only [not_mem_nil, not_false_eq_true, and_true, mem_append]
    tauto
  · intro b used apart
    rw [mem_append, not_or] at apart
    exact (second.disk b (first.keeps used) apart.2).trans (first.disk b used apart.1)

theorem Took.moved (took : v.Took v' b) (sound : v.Sound) (free : v.Free b) :
    v.Moved v' [b] [] [] := by
  have counted : 0 < v.super.unusedBlocks := by
    rw [sound.unused]
    exact freeCount_pos free
  refine ⟨took.sound sound free, by rw [took.super], ?_, ?_, ?_⟩
  · rw [took.super]
    simp only [length_cons, length_nil]
    omega
  · intro i
    by_cases same : i = b
    · subst same
      simp [took.inUse (sound.free i free)]
    · simp [took.inUse_iff same, same]
  · intro i used _
    have other : i ≠ b := by
      rintro rfl
      exact Sound.not_free used free
    rw [took.disk, update_of_ne other]

theorem Gave.moved (gave : v.Gave v' b) (sound : v.Sound) (used : v.InUse b) :
    v.Moved v' [] [b] [] := by
  refine ⟨gave.sound sound used, by rw [gave.super], by rw [gave.super]; rfl, ?_, ?_⟩
  · intro i
    simp [gave.inUse_iff]
  · intro i _ _
    rw [gave.disk]

theorem Moved.write (sound : v.Sound) (b : ℕ) (data : Block) : v.Moved (v.write b data) [] [] [b] := by
  refine ⟨sound.write b data, rfl, rfl, ?_, ?_⟩
  · intro i
    simp [InUse, Valid]
  · intro i _ apart
    rw [write_disk, update_of_ne (by simpa using apart)]

end Vol

/-! ## The indirect block -/

theorem entry_within (inside : index < blkNentry) : 4 * index < blkSize ∧ 4 * index + 4 ≤ blkSize := by
  unfold blkNentry blkSize at *
  omega

/-- An entry is taken and written, or the disk is full and a new entry block is given
back. -/
theorem takeEntry_cases (sound : v.Sound) (used : v.InUse ent) (inside : index < blkNentry) :
    (∃ b v', takeEntry entp ent index v = .ok (ent, b) v' ∧ v.Free b ∧
      v.Moved v' [b] [] [ent] ∧ v'.disk b = zeroBlock ∧
      v'.disk ent = copy (v.disk ent) (4 * index) (bytesLE b) 4) ∨
    ((∀ b, ¬ v.Free b) ∧ ∃ v', takeEntry entp ent index v = .err (-eNoMem) v' ∧
      v.Moved v' [] (if ent ≠ entp then [ent] else []) []) := by
  have within := entry_within inside
  rcases sfsBlockAlloc_cases sound with ⟨b, v', ran, free, took⟩ | ⟨ran, full⟩
  · left
    have other : ent ≠ b := by
      rintro rfl
      exact Vol.Sound.not_free used free
    have one := took.moved sound free
    have valid : v'.Valid ent := one.valid_iff.mpr used.1
    have written := @sfsWbuf_run v' ent (4 * index) 4 (bytesLE b) one.sound.device valid within.1 within.2
    have two := Vol.Moved.write one.sound ent (copy (v'.disk ent) (4 * index) (bytesLE b) 4)
    refine ⟨b, _, ?_, free, one.trans two (by simp), ?_, ?_⟩
    · rw [takeEntry, bind_ok (attempt_ok ran)]
      dsimp only
      rw [bind_ok (attempt_ok written)]
      rfl
    · rw [Vol.write_disk, update_of_ne other.symm, took.disk, update_self]
    · rw [Vol.write_disk, update_self, took.disk, update_of_ne other]
  · right
    refine ⟨full, ?_⟩
    by_cases new : ent ≠ entp
    · obtain ⟨v', given, gave⟩ := sfsBlockFree_run sound used
      refine ⟨v', ?_, ?_⟩
      · rw [takeEntry, bind_ok (attempt_err ran)]
        dsimp only
        rw [cleanupEntry, if_pos new, bind_ok given]
        rfl
      · rw [if_pos new]
        exact gave.moved sound used
    · refine ⟨v, ?_, ?_⟩
      · rw [takeEntry, bind_ok (attempt_err ran)]
        rw [cleanupEntry, if_neg new]
        rfl
      · rw [if_neg new]
        exact .refl sound

theorem Vol.Sound.full (sound : v.Sound) (full : ∀ b, ¬ v.Free b) : v.super.unusedBlocks = 0 := by
  rw [sound.unused, Vol.freeCount, Finset.card_eq_zero, Finset.filter_eq_empty_iff]
  intro b below set
  exact full b ⟨Finset.mem_range.mp below, set⟩

/-- The indirect block that is there afterwards, and what was taken for an entry. -/
structure EntryTaken (v v' : Vol) (entp ent b index : ℕ) : Prop where
  kept : entp ≠ 0 → ent = entp
  moved : v.Moved v' (if entp = 0 then [ent, b] else [b]) [] [ent]
  free : v.Free b
  fresh : entp = 0 → v.Free ent
  other : ent ≠ b
  zero : v'.disk b = zeroBlock
  entry : v'.disk ent =
    copy (if entp = 0 then zeroBlock else v.disk ent) (4 * index) (bytesLE b) 4

theorem sfsBmapGetSubNolock_old (sound : v.Sound) (inside : index < blkNentry)
    (used : v.InUse entp) (there : getLE (v.disk entp) (4 * index) 4 ≠ 0) :
    sfsBmapGetSubNolock entp index create v = .ok (entp, getLE (v.disk entp) (4 * index) 4) v := by
  have within := entry_within inside
  have read := sfsRbuf_run sound.device used.1 within.1 within.2
  rw [sfsBmapGetSubNolock, require_bind_run inside, if_pos used.1.1, bind_ok read, getLE_shift,
    if_pos (.inl there)]
  rfl

/-- An entry that is not there yet is made, with the indirect block if there is none,
or the disk is full and nothing has changed. -/
theorem sfsBmapGetSubNolock_new (sound : v.Sound) (inside : index < blkNentry)
    (empty : entp ≠ 0 → v.InUse entp ∧ getLE (v.disk entp) (4 * index) 4 = 0) :
    (∃ ent b v', sfsBmapGetSubNolock entp index true v = .ok (ent, b) v' ∧
      EntryTaken v v' entp ent b index) ∨
    (∃ v', sfsBmapGetSubNolock entp index true v = .err (-eNoMem) v' ∧ v.Moved v' [] [] [] ∧
      v.super.unusedBlocks < if entp = 0 then 2 else 1) := by
  by_cases none : entp = 0
  · subst none
    rcases sfsBlockAlloc_cases sound with ⟨ent, w, ran, free, took⟩ | ⟨ran, full⟩
    · have one := took.moved sound free
      have used : w.InUse ent := (one.inUse ent).mpr (.inr (by simp))
      have start : sfsBmapGetSubNolock 0 index true v = takeEntry 0 ent index w := by
        rw [sfsBmapGetSubNolock, require_bind_run inside, if_neg (by simp), if_neg (by simp), bind_ok ran]
      rcases takeEntry_cases one.sound used inside with
        ⟨b, v', taken, freeB, two, zero, entry⟩ | ⟨full, v', taken, two⟩
      · left
        have before := took.free_iff.mp freeB
        refine ⟨ent, b, v', start.trans taken, ⟨fun absent => absurd rfl absent, ?_, before.1, fun _ => free,
          before.2.symm, zero, ?_⟩⟩
        · exact one.trans two (by simp)
        · rw [entry, took.disk, update_self, if_pos rfl]
      · right
        rw [if_pos used.1.1] at two
        refine ⟨v', start.trans taken, ?_, ?_⟩
        · -- the new entry block was taken and given back
          refine ⟨two.sound, two.blocks.trans one.blocks, ?_, ?_, ?_⟩
          · have first := one.unused
            have second := two.unused
            omega
          · intro b
            rw [two.inUse, one.inUse]
            have apart : v.InUse b → b ≠ ent := by
              rintro held rfl
              exact Vol.Sound.not_free held free
            simp only [not_mem_nil, not_false_eq_true, and_true, mem_singleton, or_false]
            tauto
          · intro b held _
            exact (two.disk b (one.keeps held) not_mem_nil).trans (one.disk b held not_mem_nil)
        · have first := one.unused
          have last := one.sound.full full
          simp only [length_cons, length_nil] at first
          rw [if_pos rfl]
          omega
    · right
      refine ⟨v, ?_, .refl sound, by rw [sound.full full, if_pos rfl]; omega⟩
      rw [sfsBmapGetSubNolock, require_bind_run inside, if_neg (by simp), if_neg (by simp), bind_err ran]
  · obtain ⟨used, zeroEntry⟩ := empty none
    have within := entry_within inside
    have read := sfsRbuf_run sound.device used.1 within.1 within.2
    have start : sfsBmapGetSubNolock entp index true v = takeEntry entp entp index v := by
      rw [sfsBmapGetSubNolock, require_bind_run inside, if_pos none, bind_ok read, getLE_shift, zeroEntry,
        if_neg (by simp)]
    rcases takeEntry_cases sound used inside with
      ⟨b, v', taken, free, moved, zero, entry⟩ | ⟨full, v', taken, moved⟩
    · left
      refine ⟨entp, b, v', start.trans taken, ⟨fun _ => rfl, ?_, free, fun absent => absurd absent none, ?_,
        zero, ?_⟩⟩
      · rw [if_neg none]
        exact moved
      · rintro rfl
        exact Vol.Sound.not_free used free
      · rw [entry, if_neg none]
    · right
      rw [if_neg (by simp)] at moved
      refine ⟨v', start.trans taken, moved, ?_⟩
      rw [sound.full full, if_neg none]
      omega

/-! ## The list of the blocks -/

theorem getD_mem (inside : index < bs.length) : bs.getD index 0 ∈ bs := by
  rw [getD_eq_getElem _ _ inside]
  exact getElem_mem inside

/-- The blocks an inode holds besides its own: those of its map and the indirect block. -/
def DiskInode.holds (din : DiskInode) (bs : List ℕ) : List ℕ :=
  bs ++ if din.indirect = 0 then [] else [din.indirect]

/-- The map of an inode is the list `bs`. -/
structure Mapped (v : Vol) (din : DiskInode) (bs : List ℕ) : Prop where
  blocks : din.blocks = bs.length
  direct : ∀ i : Fin 12, din.direct i = bs.getD i 0
  few : din.indirect = 0 → bs.length ≤ ndirect
  entries : din.indirect ≠ 0 → ∀ j < blkNentry,
    getLE (v.disk din.indirect) (4 * j) 4 = bs.getD (ndirect + j) 0
  most : bs.length ≤ ndirect + blkNentry
  used : ∀ b ∈ din.holds bs, v.InUse b
  nodup : (din.holds bs).Nodup

section

variable (mapped : Mapped v din bs)

include mapped

/-- The map does not depend on the size. -/
theorem Mapped.resize (size : ℕ) : Mapped v { din with size := size } bs :=
  { mapped with }

theorem Mapped.block (member : b ∈ bs) : v.InUse b :=
  mapped.used b (mem_append_left _ member)

theorem Mapped.nth (inside : index < bs.length) : v.InUse (bs.getD index 0) :=
  mapped.block (getD_mem inside)

theorem Mapped.indirect (there : din.indirect ≠ 0) : v.InUse din.indirect := by
  apply mapped.used
  rw [DiskInode.holds, if_neg there]
  exact mem_append_right _ (mem_singleton_self _)

theorem Mapped.apart : din.indirect ∉ bs := by
  intro member
  have there := (mapped.block member).1.1
  have nodup := mapped.nodup
  rw [DiskInode.holds, if_neg there] at nodup
  exact (nodup_append.mp nodup).2.2 _ member _ (mem_singleton_self _) rfl

/-- A map is kept by what gives none of its blocks back and leaves the indirect block
alone. -/
theorem Mapped.frame (moved : v.Moved v' taken given touched)
    (held : ∀ b ∈ din.holds bs, b ∉ given) (alone : din.indirect ∉ touched) : Mapped v' din bs := by
  refine { mapped with entries := ?_, used := ?_ }
  · intro there j inside
    rw [moved.disk _ (mapped.indirect there) alone]
    exact mapped.entries there j inside
  · intro b member
    exact (moved.inUse b).mpr (.inl ⟨mapped.used b member, held b member⟩)

end

/-! ## The map grows at its end -/

variable {c c' : Ctx}

theorem getD_concat (bs : List ℕ) (b i : ℕ) :
    (bs ++ [b]).getD i 0 = if i = bs.length then b else bs.getD i 0 := by
  by_cases last : i = bs.length
  · subst last
    simp
  · rw [if_neg last]
    by_cases below : i < bs.length
    · exact getD_append _ _ _ _ below
    · rw [getD_eq_default _ _ (by simp; omega), getD_eq_default _ _ (by omega)]

/-- How many blocks one more block of a file takes: the first one behind the direct
pointers needs the indirect block as well. -/
def DiskInode.growth (din : DiskInode) : ℕ := if ndirect ≤ din.blocks ∧ din.indirect = 0 then 2 else 1

/-- A zeroed block `b` is now the next one of the map, and an indirect block that was
not there before was taken with it. -/
structure Appended (c c' : Ctx) (bs : List ℕ) (b : ℕ) : Prop where
  mapped : Mapped c'.vol { c'.sin.din with blocks := c.sin.din.blocks + 1 } (bs ++ [b])
  moved : c.vol.Moved c'.vol
    (if c'.sin.din.indirect = c.sin.din.indirect then [b] else [c'.sin.din.indirect, b]) []
    [c'.sin.din.indirect]
  free : c.vol.Free b
  fresh : c'.sin.din.indirect ≠ c.sin.din.indirect →
    c.sin.din.indirect = 0 ∧ ndirect ≤ c.sin.din.blocks ∧ c.vol.Free c'.sin.din.indirect
  zero : c'.vol.disk b = zeroBlock
  size : c'.sin.din.size = c.sin.din.size
  type : c'.sin.din.type = c.sin.din.type
  nlinks : c'.sin.din.nlinks = c.sin.din.nlinks
  ino : c'.sin.ino = c.sin.ino

theorem Mapped.growth_direct (mapped : Mapped v din bs) (direct : bs.length < 12) : din.growth = 1 := by
  rw [DiskInode.growth, if_neg]
  rintro ⟨many, -⟩
  rw [mapped.blocks] at many
  unfold ndirect at many
  omega

theorem Mapped.append_direct (mapped : Mapped v din bs) (direct : bs.length < 12) (free : v.Free b)
    (moved : v.Moved v' [b] [] []) :
    Mapped v' { din.setDirect ⟨bs.length, direct⟩ b with blocks := din.blocks + 1 } (bs ++ [b]) := by
  have kept := mapped.frame moved (fun _ _ => not_mem_nil) not_mem_nil
  have new : b ∉ din.holds bs := fun member => Vol.Sound.not_free (mapped.used b member) free
  refine ⟨?_, ?_, ?_, ?_, ?_, ?_, ?_⟩
  · simp [mapped.blocks]
  · intro i
    simp only [DiskInode.setDirect, update_apply, getD_concat, Fin.ext_iff, mapped.direct i]
  · intro _
    simp only [length_append, length_singleton]
    unfold ndirect
    omega
  · intro there j inside
    rw [getD_concat, if_neg (by unfold ndirect; omega)]
    exact kept.entries there j inside
  · simp only [length_append, length_singleton]
    unfold ndirect
    omega
  · intro t member
    simp only [DiskInode.holds, DiskInode.setDirect, append_assoc, mem_append,
      mem_singleton] at member
    rcases member with held | rfl | held
    · exact kept.used t (mem_append_left _ held)
    · exact (moved.inUse t).mpr (.inr (mem_singleton_self t))
    · exact kept.used t (mem_append_right _ held)
  · have perm : (b :: din.holds bs).Perm ((bs ++ [b]) ++ if din.indirect = 0 then [] else [din.indirect]) := by
      rw [DiskInode.holds, append_assoc, singleton_append]
      exact perm_middle.symm
    exact perm.nodup (nodup_cons.mpr ⟨new, mapped.nodup⟩)

theorem EntryTaken.nonzero (taken : EntryTaken v v' entp ent b index) (sound : v.Sound) : ent ≠ 0 := by
  by_cases none : entp = 0
  · exact (sound.free ent (taken.fresh none)).1
  · rw [taken.kept none]
    exact none

theorem Mapped.append_indirect (mapped : Mapped v din bs) (sound : v.Sound)
    (long : bs.length = ndirect + index) (inside : index < blkNentry)
    (taken : EntryTaken v v' din.indirect ent b index) :
    Mapped v' { din with indirect := ent, blocks := din.blocks + 1 } (bs ++ [b]) := by
  have small : b < 256 ^ 4 := by
    have valid := sound.free b taken.free
    exact valid.2.trans_le sound.small
  have there := taken.nonzero sound
  have newBlock : b ∉ bs := fun member => Vol.Sound.not_free (mapped.block member) taken.free
  have entApart : ent ∉ bs := by
    intro member
    by_cases none : din.indirect = 0
    · exact Vol.Sound.not_free (mapped.block member) (taken.fresh none)
    · rw [taken.kept none] at member
      exact mapped.apart member
  -- what the indirect block held before this entry
  have before : ∀ j < blkNentry, getLE (if din.indirect = 0 then zeroBlock else v.disk ent) (4 * j) 4 =
      bs.getD (ndirect + j) 0 := by
    intro j below
    by_cases none : din.indirect = 0
    · have few := mapped.few none
      rw [if_pos none, getD_eq_default _ _ (by omega)]
      simp [getLE, zeroBlock]
    · rw [if_neg none, taken.kept none]
      exact mapped.entries none j below
  refine ⟨?_, ?_, fun absent => absurd absent there, ?_, ?_, ?_, ?_⟩
  · simp [mapped.blocks]
  · intro i
    have apart : (i : ℕ) ≠ bs.length := by
      unfold ndirect at long
      omega
    rw [getD_concat, if_neg apart]
    exact mapped.direct i
  · intro _ j below
    rw [taken.entry, getD_concat]
    by_cases same : j = index
    · subst same
      rw [getLE_copy_bytesLE small, if_pos long.symm]
    · rw [getLE_copy_apart (by omega), before j below, if_neg (by omega)]
  · simp only [length_append, length_singleton]
    omega
  · intro t member
    rw [DiskInode.holds, if_neg there] at member
    simp only [mem_append, mem_singleton] at member
    apply (taken.moved.inUse t).mpr
    rcases member with (held | rfl) | rfl
    · exact .inl ⟨mapped.block held, not_mem_nil⟩
    · right
      by_cases none : din.indirect = 0 <;> simp [none]
    · by_cases none : din.indirect = 0
      · right
        simp [none]
      · left
        rw [taken.kept none]
        exact ⟨mapped.indirect none, not_mem_nil⟩
  · rw [DiskInode.holds, if_neg there]
    have nodup := (nodup_append.mp mapped.nodup).1
    have other := taken.other
    rw [nodup_append, nodup_append]
    refine ⟨⟨nodup, nodup_singleton b, ?_⟩, nodup_singleton ent, ?_⟩
    · intro x member y last same
      rw [mem_singleton] at last
      exact newBlock (last ▸ same ▸ member)
    · intro x member y last same
      rw [mem_singleton] at last
      rw [same, last, mem_append, mem_singleton] at member
      exact member.elim entApart other

/-- Nothing was taken, and no block in use has changed. -/
structure Refused (c c' : Ctx) : Prop where
  moved : c.vol.Moved c'.vol [] [] []
  sin : c'.sin = c.sin
  full : c.vol.super.unusedBlocks < c.sin.din.growth

theorem onVol_ok {m : Kernel Fault Vol α} {a : α} (ran : m c.vol = .ok a v) :
    onVol m c = .ok a (c.setVol v) := zoom_ok ran

theorem onVol_err {m : Kernel Fault Vol α} {e : ℤ} (ran : m c.vol = .err e v) :
    onVol m c = .err e (c.setVol v) := zoom_err ran

theorem assertInuse_run (sound : c.vol.Sound) (used : c.vol.InUse b) : assertInuse b c = .ok () c := by
  have tested := sfsBlockInuse_run used.1 (sound.inUse_lt used)
  rw [used.2, Bool.not_false] at tested
  rw [assertInuse, bind_ok (onVol_ok tested)]
  exact require_run rfl _ _

/-- A pointer to a block in use passes the assertion. -/
theorem sfsBmapGetNolock_ok (ran : bmapPointer index create c = .ok b c')
    (sound : c'.vol.Sound) (used : c'.vol.InUse b) : sfsBmapGetNolock index create c = .ok b c' := by
  rw [sfsBmapGetNolock, bind_ok ran, if_neg used.1.1, bind_ok (assertInuse_run sound used)]
  rfl

section

variable (sound : c.vol.Sound) (mapped : Mapped c.vol c.sin.din bs)
include sound mapped

theorem bmapPointer_old
    (inside : index < bs.length) : bmapPointer index create c = .ok (bs.getD index 0) c := by
  have there := (mapped.nth inside).1.1
  rw [bmapPointer, get_bind_run]
  by_cases direct : index < 12
  · have pointer := mapped.direct ⟨index, direct⟩
    rw [dif_pos direct, pointer, if_neg (fun both => there both.1)]
    rfl
  · have most := mapped.most
    have far : ndirect + (index - ndirect) = index := by
      unfold ndirect
      omega
    have indirect : c.sin.din.indirect ≠ 0 := by
      intro none
      have few := mapped.few none
      omega
    have below : index - ndirect < blkNentry := by
      omega
    have entry := mapped.entries indirect (index - ndirect) below
    rw [far] at entry
    have found := @sfsBmapGetSubNolock_old c.vol c.sin.din.indirect (index - ndirect) create sound below
      (mapped.indirect indirect) (by rw [entry]; exact there)
    rw [entry] at found
    rw [dif_neg direct, if_pos below, bind_ok (onVol_ok found), if_neg (by simp)]
    rfl

/-- The block at an index of the map. -/
theorem sfsBmapGetNolock_old
    (inside : index < bs.length) : sfsBmapGetNolock index create c = .ok (bs.getD index 0) c :=
  sfsBmapGetNolock_ok (bmapPointer_old sound mapped inside) sound (mapped.nth inside)

/-- The pointer behind the last one is made, or the disk is full. -/
theorem bmapPointer_new
    (room : bs.length < ndirect + blkNentry) :
    (∃ b c', bmapPointer bs.length true c = .ok b c' ∧ Appended c c' bs b ∧
      c'.sin.din.blocks = c.sin.din.blocks) ∨
    (∃ c', bmapPointer bs.length true c = .err (-eNoMem) c' ∧ Refused c c') := by
  rw [bmapPointer, get_bind_run]
  by_cases direct : bs.length < 12
  · have pointer : c.sin.din.direct ⟨bs.length, direct⟩ = 0 := by
      rw [mapped.direct]
      exact getD_eq_default _ _ le_rfl
    have growth := mapped.growth_direct direct
    rw [dif_pos direct, if_pos ⟨pointer, rfl⟩]
    rcases sfsBlockAlloc_cases sound with ⟨b, v', ran, free, took⟩ | ⟨ran, full⟩
    · left
      have moved := took.moved sound free
      refine ⟨b, ((c.setVol v').setDin (c.sin.din.setDirect ⟨bs.length, direct⟩ b)).setDirty, ?_, ?_, rfl⟩
      · rw [bind_ok (onVol_ok ran)]
        rfl
      · refine ⟨mapped.append_direct direct free moved, ?_, free, fun other => absurd rfl other, ?_,
          rfl, rfl, rfl, rfl⟩
        · change c.vol.Moved v' (if c.sin.din.indirect = c.sin.din.indirect then _ else _) [] _
          rw [if_pos rfl]
          exact { moved with disk := fun i held _ => moved.disk i held not_mem_nil }
        · change v'.disk b = zeroBlock
          rw [took.disk, update_self]
    · right
      refine ⟨c, ?_, .refl sound, rfl, by rw [sound.full full, growth]; omega⟩
      rw [bind_err (onVol_err ran)]
      rfl
  · have far : bs.length = ndirect + (bs.length - ndirect) := by
      unfold ndirect
      omega
    have below : bs.length - ndirect < blkNentry := by
      omega
    have many : ndirect ≤ c.sin.din.blocks := by
      rw [mapped.blocks]
      omega
    have growth : c.sin.din.growth = if c.sin.din.indirect = 0 then 2 else 1 := by
      by_cases none : c.sin.din.indirect = 0 <;> simp [DiskInode.growth, many, none]
    have empty : c.sin.din.indirect ≠ 0 → c.vol.InUse c.sin.din.indirect ∧
        getLE (c.vol.disk c.sin.din.indirect) (4 * (bs.length - ndirect)) 4 = 0 := by
      intro there
      refine ⟨mapped.indirect there, ?_⟩
      rw [mapped.entries there _ below, ← far]
      exact getD_eq_default _ _ le_rfl
    rw [dif_neg direct, if_pos below]
    rcases sfsBmapGetSubNolock_new sound below empty with ⟨ent, b, v', ran, taken⟩ | ⟨v', ran, moved, full⟩
    · left
      have after := mapped.append_indirect sound far below taken
      have there := taken.nonzero sound
      have moved := taken.moved
      by_cases same : ent = c.sin.din.indirect
      · refine ⟨b, c.setVol v', ?_, ?_, rfl⟩
        · rw [bind_ok (onVol_ok ran), if_neg (by simp [same])]
          rfl
        · subst same
          rw [if_neg there] at moved
          refine ⟨after, ?_, taken.free, fun other => absurd rfl other, taken.zero, rfl, rfl, rfl, rfl⟩
          change c.vol.Moved v' (if c.sin.din.indirect = c.sin.din.indirect then _ else _) [] _
          rw [if_pos rfl]
          exact moved
      · have none : c.sin.din.indirect = 0 := by
          by_contra held
          exact same (taken.kept held)
        refine ⟨b, ((c.setVol v').setDin { c.sin.din with indirect := ent }).setDirty, ?_, ?_, rfl⟩
        · rw [bind_ok (onVol_ok ran), if_pos same, require_bind_run none]
          rfl
        · rw [if_pos none] at moved
          refine ⟨after, ?_, taken.free, fun _ => ⟨none, many, taken.fresh none⟩, taken.zero, rfl, rfl,
            rfl, rfl⟩
          change c.vol.Moved v' (if ent = c.sin.din.indirect then _ else _) [] _
          rw [if_neg same]
          exact moved
    · right
      refine ⟨c.setVol v', ?_, moved, rfl, by rw [growth]; exact full⟩
      rw [bind_err (onVol_err ran)]

end

theorem Appended.inUse (appended : Appended c c' bs b) : c'.vol.InUse b :=
  appended.mapped.block (mem_append_right _ (mem_singleton_self b))

theorem Appended.sound (appended : Appended c c' bs b) : c'.vol.Sound := appended.moved.sound

section

variable (sound : c.vol.Sound) (mapped : Mapped c.vol c.sin.din bs)
include sound mapped

theorem sfsBmapGetNolock_new
    (room : bs.length < ndirect + blkNentry) :
    (∃ b c', sfsBmapGetNolock bs.length true c = .ok b c' ∧ Appended c c' bs b ∧
      c'.sin.din.blocks = c.sin.din.blocks) ∨
    (∃ c', sfsBmapGetNolock bs.length true c = .err (-eNoMem) c' ∧ Refused c c') := by
  rcases bmapPointer_new sound mapped room with ⟨b, c', ran, appended, blocks⟩ | ⟨c', ran, refused⟩
  · left
    exact ⟨b, c', sfsBmapGetNolock_ok ran appended.sound appended.inUse, appended, blocks⟩
  · right
    exact ⟨c', by rw [sfsBmapGetNolock, bind_err ran], refused⟩

/-- Loading a block the map has leaves everything as it is. -/
theorem sfsBmapLoadNolock_old
    (inside : index < bs.length) : sfsBmapLoadNolock index c = .ok (bs.getD index 0) c := by
  have other : index ≠ c.sin.din.blocks := by
    rw [mapped.blocks]
    omega
  rw [sfsBmapLoadNolock, get_bind_run, require_bind_run (by rw [mapped.blocks]; omega),
    bind_ok (sfsBmapGetNolock_old sound mapped inside), bind_ok (assertInuse_run sound (mapped.nth inside)),
    if_neg other]
  rfl

/-- Loading the block behind the last one appends it, or the disk is full. -/
theorem sfsBmapLoadNolock_new
    (room : bs.length < ndirect + blkNentry) :
    (∃ b c', sfsBmapLoadNolock bs.length c = .ok b c' ∧ Appended c c' bs b ∧
      Mapped c'.vol c'.sin.din (bs ++ [b])) ∨
    (∃ c', sfsBmapLoadNolock bs.length c = .err (-eNoMem) c' ∧ Refused c c') := by
  have last : bs.length = c.sin.din.blocks := mapped.blocks.symm
  have create : decide (bs.length = c.sin.din.blocks) = true := decide_eq_true last
  rcases sfsBmapGetNolock_new sound mapped room with ⟨b, c', ran, appended, blocks⟩ | ⟨c', ran, refused⟩
  · left
    refine ⟨b, c'.setDin { c'.sin.din with blocks := c'.sin.din.blocks + 1 }, ?_, ?_, ?_⟩
    · rw [sfsBmapLoadNolock, get_bind_run, require_bind_run last.le, create, bind_ok ran,
        bind_ok (assertInuse_run appended.sound appended.inUse), if_pos last]
      rfl
    · exact { appended with }
    · have mapped' := appended.mapped
      rw [← blocks] at mapped'
      exact mapped'
  · right
    refine ⟨c', ?_, refused⟩
    rw [sfsBmapLoadNolock, get_bind_run, require_bind_run last.le, create, bind_err ran]

end

/-! ## The map shrinks at its end -/

/-- The last block `b` of the map was given back. -/
structure Dropped (c c' : Ctx) (bs : List ℕ) (b : ℕ) : Prop where
  mapped : Mapped c'.vol c'.sin.din bs
  moved : c.vol.Moved c'.vol [] [b] [c.sin.din.indirect]
  size : c'.sin.din.size = c.sin.din.size
  type : c'.sin.din.type = c.sin.din.type
  nlinks : c'.sin.din.nlinks = c.sin.din.nlinks
  indirect : c'.sin.din.indirect = c.sin.din.indirect
  ino : c'.sin.ino = c.sin.ino

theorem Mapped.last (mapped : Mapped v din (bs ++ [b])) : v.InUse b ∧ b ∉ bs ∧ b ≠ din.indirect := by
  have used : v.InUse b := mapped.block (mem_append_right _ (mem_singleton_self b))
  refine ⟨used, ?_, ?_⟩
  · intro member
    have nodup := (nodup_append.mp mapped.nodup).1
    exact (nodup_append.mp nodup).2.2 b member b (mem_singleton_self b) rfl
  · intro same
    apply mapped.apart
    rw [← same]
    exact mem_append_right _ (mem_singleton_self b)

/-- The map without its last block, once the pointer to it is gone. -/
theorem Mapped.drop {din' : DiskInode} (mapped : Mapped v din (bs ++ [b]))
    (moved : v.Moved v' [] [b] [din.indirect]) (blocks : din'.blocks = bs.length)
    (indirect : din'.indirect = din.indirect)
    (direct : ∀ i : Fin 12, din'.direct i = if (i : ℕ) = bs.length then 0 else din.direct i)
    (entries : din.indirect ≠ 0 → ∀ j < blkNentry, getLE (v'.disk din.indirect) (4 * j) 4 =
      if ndirect + j = bs.length then 0 else getLE (v.disk din.indirect) (4 * j) 4) :
    Mapped v' din' bs := by
  obtain ⟨-, apart, other⟩ := mapped.last
  -- behind the list both sides are zero, before it the last block plays no part
  have cut : ∀ i, bs.getD i 0 = if i = bs.length then 0 else (bs ++ [b]).getD i 0 := by
    intro i
    rw [getD_concat]
    by_cases last : i = bs.length
    · rw [if_pos last, getD_eq_default _ _ last.ge]
    · rw [if_neg last, if_neg last]
  have held : ∀ t ∈ din'.holds bs, t ∈ din.holds (bs ++ [b]) ∧ t ≠ b := by
    intro t member
    rw [DiskInode.holds, indirect, mem_append] at member
    rcases member with inside | tail
    · refine ⟨mem_append_left _ (mem_append_left _ inside), ?_⟩
      rintro rfl
      exact apart inside
    · refine ⟨mem_append_right _ tail, ?_⟩
      rintro rfl
      split at tail
      · cases tail
      · exact other (mem_singleton.mp tail)
  have long := mapped.most
  rw [length_append, length_singleton] at long
  refine ⟨blocks, ?_, ?_, ?_, by omega, ?_, ?_⟩
  · intro i
    rw [direct, cut, mapped.direct]
  · intro none
    have few := mapped.few (indirect ▸ none)
    rw [length_append, length_singleton] at few
    omega
  · intro there j inside
    rw [indirect] at there ⊢
    rw [entries there j inside, cut, mapped.entries there j inside]
  · intro t member
    obtain ⟨before, other⟩ := held t member
    exact (moved.inUse t).mpr (.inl ⟨mapped.used t before, by simpa using other⟩)
  · have nodup := mapped.nodup
    rw [DiskInode.holds, append_assoc] at nodup
    rw [DiskInode.holds, indirect]
    exact nodup.sublist (List.Sublist.append_left (sublist_append_right _ _) _)

/-- An entry of the indirect block is cleared and its block given back. -/
theorem sfsBmapFreeSubNolock_run (sound : v.Sound) (used : v.InUse ent) (inside : index < blkNentry)
    (entry : getLE (v.disk ent) (4 * index) 4 = b) (held : v.InUse b) :
    ∃ v', sfsBmapFreeSubNolock ent index v = .ok () v' ∧ v.Moved v' [] [b] [ent] ∧
      v'.disk ent = copy (v.disk ent) (4 * index) (bytesLE 0) 4 := by
  have within := entry_within inside
  have tested := sfsBlockInuse_run used.1 (sound.inUse_lt used)
  rw [used.2, Bool.not_false] at tested
  have read := sfsRbuf_run sound.device used.1 within.1 within.2
  have wrote := @sfsWbuf_run v ent (4 * index) 4 (bytesLE 0) sound.device used.1 within.1 within.2
  have one := Vol.Moved.write sound ent (copy (v.disk ent) (4 * index) (bytesLE 0) 4)
  have still := one.keeps held
  obtain ⟨v', ran, gave⟩ := sfsBlockFree_run one.sound still
  refine ⟨v', ?_, one.trans (gave.moved one.sound still) (by simp), ?_⟩
  · rw [sfsBmapFreeSubNolock, bind_ok tested, require_bind_run ⟨rfl, inside⟩, bind_ok read, getLE_shift,
      entry, if_pos held.1.1, bind_ok wrote, ran]
  · rw [gave.disk, Vol.write_disk, update_self]

/-- The inode after the last block is gone from the map. -/
def Ctx.shrink (c : Ctx) : Ctx :=
  (c.setDin { c.sin.din with blocks := c.sin.din.blocks - 1 }).setDirty

section

variable (mapped : Mapped c.vol c.sin.din (bs ++ [b]))
include mapped

theorem sfsBmapTruncateNolock_of_free {w : Ctx}
    (freed : sfsBmapFreeNolock bs.length c = .ok () w) : sfsBmapTruncateNolock c = .ok () w.shrink := by
  have count : c.sin.din.blocks = bs.length + 1 := by
    rw [mapped.blocks, length_append, length_singleton]
  have last : c.sin.din.blocks - 1 = bs.length := by omega
  rw [sfsBmapTruncateNolock, get_bind_run, require_bind_run (by omega), last, bind_ok freed]
  rfl

theorem sfsBmapTruncateNolock_direct (sound : c.vol.Sound)
    (direct : bs.length < 12) : ∃ c', sfsBmapTruncateNolock c = .ok () c' ∧ Dropped c c' bs b := by
  have used := mapped.last.1
  have pointer : c.sin.din.direct ⟨bs.length, direct⟩ = b := by
    rw [mapped.direct, getD_concat, if_pos rfl]
  obtain ⟨v', ran, gave⟩ := sfsBlockFree_run sound used
  have given := gave.moved sound used
  have moved : c.vol.Moved v' [] [b] [c.sin.din.indirect] :=
    { given with disk := fun i held _ => given.disk i held not_mem_nil }
  obtain ⟨w, eq⟩ : ∃ w, w = ((c.setVol v').setDin (c.sin.din.setDirect ⟨bs.length, direct⟩ 0)).setDirty :=
    ⟨_, rfl⟩
  have freed : sfsBmapFreeNolock bs.length c = .ok () w := by
    rw [sfsBmapFreeNolock, get_bind_run, dif_pos direct, pointer, if_pos used.1.1, bind_ok (onVol_ok ran), eq]
    rfl
  refine ⟨w.shrink, sfsBmapTruncateNolock_of_free mapped freed, ?_⟩
  subst eq
  refine ⟨mapped.drop moved ?_ rfl ?_ ?_, moved, rfl, rfl, rfl, rfl, rfl⟩
  · change c.sin.din.blocks - 1 = bs.length
    rw [mapped.blocks, length_append, length_singleton, Nat.add_sub_cancel]
  · intro i
    change update c.sin.din.direct ⟨bs.length, direct⟩ 0 i = _
    simp only [update_apply, Fin.ext_iff]
  · intro _ j _
    rw [if_neg (by unfold ndirect; omega)]
    change getLE (v'.disk _) _ _ = _
    rw [gave.disk]

theorem sfsBmapTruncateNolock_indirect (sound : c.vol.Sound) (far : ¬ bs.length < 12) :
    ∃ c', sfsBmapTruncateNolock c = .ok () c' ∧ Dropped c c' bs b := by
  have used := mapped.last.1
  have most := mapped.most
  have place : ndirect + (bs.length - ndirect) = bs.length := by
    unfold ndirect
    omega
  have below : bs.length - ndirect < blkNentry := by
    rw [length_append, length_singleton] at most
    omega
  have there : c.sin.din.indirect ≠ 0 := by
    intro none
    have few := mapped.few none
    rw [length_append, length_singleton] at few
    omega
  have entry : getLE (c.vol.disk c.sin.din.indirect) (4 * (bs.length - ndirect)) 4 = b := by
    rw [mapped.entries there _ below, place, getD_concat, if_pos rfl]
  obtain ⟨v', ran, moved, cleared⟩ :=
    sfsBmapFreeSubNolock_run sound (mapped.indirect there) below entry used
  have freed : sfsBmapFreeNolock bs.length c = .ok () (c.setVol v') := by
    rw [sfsBmapFreeNolock, get_bind_run, dif_neg far, if_pos ⟨below, there⟩, onVol_ok ran]
  refine ⟨(c.setVol v').shrink, sfsBmapTruncateNolock_of_free mapped freed, ?_⟩
  refine ⟨mapped.drop moved ?_ rfl ?_ ?_, moved, rfl, rfl, rfl, rfl, rfl⟩
  · change c.sin.din.blocks - 1 = bs.length
    rw [mapped.blocks, length_append, length_singleton, Nat.add_sub_cancel]
  · intro i
    rw [if_neg (by omega)]
    rfl
  · intro _ j _
    change getLE (v'.disk _) _ _ = _
    rw [cleared]
    by_cases same : j = bs.length - ndirect
    · subst same
      rw [getLE_copy_bytesLE (by decide), if_pos place]
    · rw [getLE_copy_apart (by omega), if_neg (by omega)]

/-- `sfs_bmap_truncate_nolock` gives the last block back. -/
theorem sfsBmapTruncateNolock_run (sound : c.vol.Sound) :
    ∃ c', sfsBmapTruncateNolock c = .ok () c' ∧ Dropped c c' bs b := by
  by_cases direct : bs.length < 12
  · exact sfsBmapTruncateNolock_direct mapped sound direct
  · exact sfsBmapTruncateNolock_indirect mapped sound direct

end

end LiNos.Fs
