import LiNos.SfsTransfer

/-!
How far the map of a file reaches.

These results ask nothing of the volume: the device may refuse any request, the disk
may be full and the map may hold anything. They follow only the size and the number of
blocks of the inode, and say which calls can run past the last block.
-/

namespace LiNos.Fs

open Kernel LittleEndian

/-- The fault is not the one of loading a block past the end of the map. -/
def Harmless (reason : Fault) : Prop := reason ≠ .indexPastBlocks

/-! ## The volume -/

section Device

variable {answers : ℤ → Prop} {buf : Block} {blkno b ent entp index nblks : ℕ} {E : ℤ → Vol → Prop}

/-- The device gives only these answers. -/
def Answers (answers : ℤ → Prop) (v : Vol) : Prop := ∀ ret ∈ v.outcomes, answers ret

/-- An error code from the device. -/
def Refusal (answers : ℤ → Prop) (e : ℤ) (v : Vol) : Prop := (answers e ∧ e ≠ 0) ∧ Answers answers v

theorem dopIo_keeps : Keeps (Answers answers) (Refusal answers) Harmless dopIo := by
  intro v only
  unfold dopIo
  cases list : v.outcomes with
  | nil => exact only
  | cons ret rest =>
    have first : answers ret := only ret (by rw [list]; exact List.mem_cons_self)
    have later : ∀ answer ∈ rest, answers answer := fun answer member =>
      only answer (by rw [list]; exact List.mem_cons_of_mem _ member)
    dsimp only
    split_ifs with fine
    · exact later
    · exact ⟨⟨first, fine⟩, later⟩

theorem sfsRwblockNolock_keeps {write check : Bool} :
    Keeps (Answers answers) (Refusal answers) Harmless (sfsRwblockNolock buf blkno write check) := by
  apply Keeps.bind keeps_get
  intro v
  apply Keeps.bind (keeps_require (by simp [Harmless]))
  intro _
  apply Keeps.bind dopIo_keeps
  intro _
  apply keeps_ite
  · intro _
    refine Keeps.bind (keeps_modify ?_) fun _ => keeps_pure _
    exact fun _ before => before
  · exact fun _ => keeps_pure _

theorem sfsRbuf_keeps {len offset : ℕ} :
    Keeps (Answers answers) (Refusal answers) Harmless (sfsRbuf len blkno offset) := by
  apply Keeps.bind (keeps_require (by simp [Harmless]))
  intro _
  exact Keeps.bind sfsRwblockNolock_keeps fun _ => keeps_pure _

theorem sfsWbuf_keeps {len offset : ℕ} :
    Keeps (Answers answers) (Refusal answers) Harmless (sfsWbuf buf len blkno offset) := by
  apply Keeps.bind (keeps_require (by simp [Harmless]))
  intro _
  apply Keeps.bind sfsRwblockNolock_keeps
  intro _
  exact Keeps.bind sfsRwblockNolock_keeps fun _ => keeps_pure _

theorem sfsRwblock_keeps {write : Bool} :
    Keeps (Answers answers) (Refusal answers) Harmless (sfsRwblock buf blkno write nblks) := by
  induction nblks generalizing buf blkno with
  | zero => exact keeps_pure _
  | succ nblks ih =>
    apply Keeps.bind sfsRwblockNolock_keeps
    intro _
    exact Keeps.bind ih fun _ => keeps_pure _

theorem sfsClearBlock_keeps :
    Keeps (Answers answers) (Refusal answers) Harmless (sfsClearBlock blkno nblks) := by
  induction nblks generalizing blkno with
  | zero => exact keeps_pure _
  | succ nblks ih => exact Keeps.bind sfsRwblockNolock_keeps fun _ => ih

/-- The functions of the free map. -/
theorem onFreemap_keeps {α : Type} {m : Kernel Fault Bitmap α}
    (keeps : Keeps (fun _ => True) (fun _ _ => False) Harmless m) :
    Keeps (Answers answers) E Harmless (onFreemap m) :=
  keeps_zoom keeps (fun _ _ => trivial) (fun _ _ before _ => before) fun _ _ _ _ never => never.elim

theorem sfsBlockInuse_keeps : Keeps (Answers answers) E Harmless (sfsBlockInuse b) := by
  apply Keeps.bind keeps_get
  intro v
  apply keeps_ite
  · intro _
    apply Keeps.bind (onFreemap_keeps ?_)
    · exact fun _ => keeps_pure _
    · apply Keeps.bind keeps_get
      intro _
      exact Keeps.bind (keeps_require (by simp [Harmless])) fun _ => keeps_pure _
  · exact fun _ => keeps_stop (by simp [Harmless])

theorem sfsBlockFree_keeps : Keeps (Answers answers) E Harmless (sfsBlockFree b) := by
  apply Keeps.bind sfsBlockInuse_keeps
  intro _
  apply Keeps.bind (keeps_require (by simp [Harmless]))
  intro _
  apply Keeps.bind (onFreemap_keeps ?_)
  · exact fun _ => keeps_modify fun _ before => before
  · apply Keeps.bind keeps_get
    intro _
    apply Keeps.bind (keeps_require (by simp [Harmless]))
    intro _
    apply Keeps.bind (keeps_require (by simp [Harmless]))
    exact fun _ => keeps_modify fun _ before => before

theorem sfsBmapFreeSubNolock_keeps :
    Keeps (Answers answers) (Refusal answers) Harmless (sfsBmapFreeSubNolock ent index) := by
  apply Keeps.bind sfsBlockInuse_keeps
  intro _
  apply Keeps.bind (keeps_require (by simp [Harmless]))
  intro _
  apply Keeps.bind sfsRbuf_keeps
  intro _
  apply keeps_ite
  · exact fun _ => Keeps.bind sfsWbuf_keeps fun _ => sfsBlockFree_keeps
  · exact fun _ => keeps_pure _

end Device

/-! ## Taking blocks -/

section Taking

variable {ent entp index : ℕ} {create : Bool} {α : Type} {m : Kernel Fault Vol α}

/-- A call on the volume that can fail, but not run past the last block. -/
def Tame {α : Type} (m : Kernel Fault Vol α) : Prop :=
  Keeps (fun _ => True) (fun e _ => e ≠ 0) Harmless m

theorem Keeps.tame
    (keeps : Keeps (Answers fun _ => True) (Refusal fun _ => True) Harmless m) : Tame m := fun v _ =>
  Ends.imp (keeps v fun _ _ => trivial) (fun _ _ _ => trivial) (fun _ _ refused => refused.1.2)
    fun _ fine => fine

theorem sfsBlockAlloc_tame : Tame sfsBlockAlloc := by
  have taken : Keeps (fun _ => True) (fun e _ => e ≠ 0) Harmless bitmapAlloc := by
    apply Keeps.bind keeps_get
    intro bitmap
    cases findWord bitmap.map bitmap.nwords 0 with
    | none => exact keeps_fail fun _ _ => by decide
    | some ix =>
      dsimp only
      cases findBit (bitmap.map ix) wordBits 0 with
      | none => exact keeps_stop (by simp [Harmless])
      | some offset => exact Keeps.bind (keeps_modify fun _ _ => trivial) fun _ => keeps_pure _
  have allocated : Tame (onFreemap bitmapAlloc) :=
    keeps_zoom taken (fun _ _ => trivial) (fun _ _ _ _ => trivial) fun _ _ _ _ code => code
  apply Keeps.bind allocated
  intro ino
  apply Keeps.bind keeps_get
  intro _
  apply Keeps.bind (keeps_require (by simp [Harmless]))
  intro _
  apply Keeps.bind (keeps_modify fun _ _ => trivial)
  intro _
  apply Keeps.bind (Keeps.tame sfsBlockInuse_keeps)
  intro _
  apply Keeps.bind (keeps_require (by simp [Harmless]))
  intro _
  exact Keeps.bind (Keeps.tame sfsClearBlock_keeps) fun _ => keeps_pure _

theorem cleanupEntry_tame : Tame (cleanupEntry entp ent) :=
  keeps_ite (fun _ => Keeps.tame sfsBlockFree_keeps) fun _ => keeps_pure _

/-- A call whose return code is handed on. -/
theorem Tame.attempt_bind {β : Type} {f : Except ℤ α → Kernel Fault Vol β}
    (tame : Tame m) (value : ∀ a, Tame (f (.ok a))) (code : ∀ e, e ≠ 0 → Tame (f (.error e))) :
    Tame (attempt m >>= f) := by
  intro v _
  have tried : (attempt m v).Ends (fun ret _ => ∀ e, ret = .error e → e ≠ 0) (fun e _ => e ≠ 0) Harmless := by
    apply Ends.attempt (tame v trivial)
    · intro _ _ _ e never
      cases never
    · rintro e _ nonzero _ ⟨⟩
      exact nonzero
  apply Ends.bind tried
  intro ret w known
  cases ret with
  | error e => exact code e (known e rfl) w trivial
  | ok a => exact value a w trivial

theorem takeEntry_tame : Tame (takeEntry entp ent index) := by
  apply Tame.attempt_bind sfsBlockAlloc_tame
  · intro ino
    apply Tame.attempt_bind (Keeps.tame sfsWbuf_keeps)
    · exact fun _ => keeps_pure _
    · intro e nonzero
      apply Keeps.bind (Keeps.tame sfsBlockFree_keeps)
      intro _
      exact Keeps.bind cleanupEntry_tame fun _ => keeps_fail fun _ _ => nonzero
  · intro e nonzero
    exact Keeps.bind cleanupEntry_tame fun _ => keeps_fail fun _ _ => nonzero

theorem sfsBmapGetSubNolock_tame : Tame (sfsBmapGetSubNolock entp index create) := by
  apply Keeps.bind (keeps_require (by simp [Harmless]))
  intro _
  apply keeps_ite
  · intro _
    apply Keeps.bind (Keeps.tame sfsRbuf_keeps)
    intro _
    exact keeps_ite (fun _ => keeps_pure _) fun _ => takeEntry_tame
  · intro _
    apply keeps_ite
    · exact fun _ => keeps_pure _
    · exact fun _ => Keeps.bind sfsBlockAlloc_tame fun _ => takeEntry_tame

end Taking

/-! ## The inode -/

section Inode

variable {c : Ctx} {size blocks index : ℕ} {create : Bool}

/-- The size and the number of blocks of the inode. -/
def At (size blocks : ℕ) (c : Ctx) : Prop := c.sin.din.size = size ∧ c.sin.din.blocks = blocks

/-- An error code that left them as they were. -/
def StillAt (size blocks : ℕ) (e : ℤ) (c : Ctx) : Prop := e ≠ 0 ∧ At size blocks c

theorem onVol_keeps {α : Type} {m : Kernel Fault Vol α} (tame : Tame m) :
    Keeps (At size blocks) (StillAt size blocks) Harmless (onVol m) :=
  keeps_zoom tame (fun _ _ => trivial) (fun _ _ before _ => before) fun _ _ _ before code => ⟨code, before⟩

theorem assertInuse_keeps : Keeps (At size blocks) (StillAt size blocks) Harmless (assertInuse index) :=
  Keeps.bind (onVol_keeps (Keeps.tame sfsBlockInuse_keeps)) fun _ => keeps_require (by simp [Harmless])

theorem sfsBmapGetNolock_keeps :
    Keeps (At size blocks) (StillAt size blocks) Harmless (sfsBmapGetNolock index create) := by
  have pointer : Keeps (At size blocks) (StillAt size blocks) Harmless (bmapPointer index create) := by
    apply Keeps.bind keeps_get
    intro c
    by_cases direct : index < 12
    · rw [dif_pos direct]
      apply keeps_ite
      · intro _
        apply Keeps.bind (onVol_keeps sfsBlockAlloc_tame)
        intro _
        exact Keeps.bind (keeps_modify fun _ before => before) fun _ => keeps_pure _
      · exact fun _ => keeps_pure _
    · rw [dif_neg direct]
      apply keeps_ite
      · intro _
        apply Keeps.bind (onVol_keeps sfsBmapGetSubNolock_tame)
        intro _
        apply keeps_ite
        · intro _
          apply Keeps.bind (keeps_require (by simp [Harmless]))
          intro _
          exact Keeps.bind (keeps_modify fun _ before => before) fun _ => keeps_pure _
        · exact fun _ => keeps_pure _
      · exact fun _ => keeps_stop (by simp [Harmless])
  apply Keeps.bind pointer
  intro ino
  apply keeps_ite
  · exact fun _ => keeps_pure _
  · exact fun _ => Keeps.bind assertInuse_keeps fun _ => keeps_pure _

/-- Loading a block at most behind the last one. -/
theorem sfsBmapLoadNolock_ends (here : At size blocks c) (reached : index ≤ blocks) :
    (sfsBmapLoadNolock index c).Ends (fun _ => At size (max blocks (index + 1))) (StillAt size blocks)
      Harmless := by
  rw [sfsBmapLoadNolock, get_bind_run, require_bind_run (by rw [here.2]; exact reached)]
  apply Ends.bind (sfsBmapGetNolock_keeps c here)
  intro ino c' got
  apply Ends.bind (assertInuse_keeps c' got)
  intro _ c'' checked
  split_ifs with last
  · rw [modify_bind_run]
    refine ⟨checked.1, ?_⟩
    rw [checked.2, last, here.2]
    exact (max_eq_right (Nat.le_succ _)).symm
  · refine ⟨checked.1, checked.2.trans ?_⟩
    rw [here.2] at last
    exact (max_eq_left (by omega)).symm

end Inode

/-! ## Transfers -/

section Transfers

variable {s : Io} {write : Bool} {size blocks offset endpos p len alen ino : ℕ}

/-- A transfer from `offset` has come to `p`, where the map of the file reaches. -/
structure Progress (size blocks offset p : ℕ) (s : Io) : Prop where
  place : offset + s.alen = p
  size : s.ctx.sin.din.size = size
  grown : blocks ≤ s.ctx.sin.din.blocks
  next : p / blkSize ≤ s.ctx.sin.din.blocks

/-- The transfer got somewhere before it was stopped. -/
def Halted (size blocks offset : ℕ) (e : ℤ) (s : Io) : Prop :=
  e ≠ 0 ∧ ∃ p, Progress size blocks offset p s

/-- A call in the middle of a transfer leaves the inode as it is. -/
def Stays {α : Type} (alen size blocks : ℕ) (m : Kernel Fault Io α) : Prop :=
  Keeps (fun s => s.alen = alen ∧ At size blocks s.ctx) (fun e s => s.alen = alen ∧ StillAt size blocks e s.ctx)
    Harmless m

/-- Loading the block at `p` and moving on by `size` bytes within it, whatever operation
transfers them. -/
theorem Progress.move {blkno blkoff : ℕ} (bytes : ℕ) (op : ℕ → Kernel Fault Io Unit)
    (progress : Progress size blocks offset (blkSize * blkno + blkoff) s) (fits : blkoff + bytes ≤ blkSize)
    (below : blkoff < blkSize)
    (stays : ∀ ino alen size blocks, Stays alen size blocks (op ino)) :
    (Bind.bind (onCtx (sfsBmapLoadNolock blkno)) (fun ino => do
      op ino
      Kernel.modify fun s => s.setAlen (s.alen + bytes)) s).Ends
      (fun _ => Progress size blocks offset (blkSize * blkno + blkoff + bytes)) (Halted size blocks offset)
      Harmless := by
  obtain ⟨place, sized, grown, next⟩ := progress
  have index : (blkSize * blkno + blkoff) / blkSize = blkno := by
    unfold blkSize at *
    omega
  rw [index] at next
  have load := sfsBmapLoadNolock_ends ⟨sized, rfl⟩ next
  have loaded : (onCtx (sfsBmapLoadNolock blkno) s).Ends
      (fun _ t => t.alen = s.alen ∧ At size (max s.ctx.sin.din.blocks (blkno + 1)) t.ctx)
      (Halted size blocks offset) Harmless := by
    apply Ends.zoom load
    · intro _ c placed
      exact ⟨rfl, placed⟩
    · rintro _ c ⟨code, placed⟩
      refine ⟨code, _, place, placed.1, ?_, ?_⟩
      · change blocks ≤ c.sin.din.blocks
        rw [placed.2]
        exact grown
      · change _ ≤ c.sin.din.blocks
        rw [placed.2, index]
        exact next
  apply Ends.bind loaded
  intro ino t between
  have moved : (op ino t).Ends
      (fun _ u => u.alen = s.alen ∧ At size (max s.ctx.sin.din.blocks (blkno + 1)) u.ctx)
      (Halted size blocks offset) Harmless := by
    apply Ends.mono (stays ino _ _ _ t between)
    · exact fun _ _ after => after
    · rintro _ u ⟨alen, code, placed⟩
      refine ⟨code, blkSize * blkno + blkoff, by rw [alen]; exact place, placed.1, ?_, ?_⟩
      · rw [placed.2]
        exact grown.trans (le_max_left _ _)
      · rw [placed.2, index]
        exact next.trans (le_max_left _ _)
  apply Ends.bind moved
  rintro _ u ⟨alen, placed⟩
  have reach := Nat.mul_le_mul_left blkSize (le_max_right s.ctx.sin.din.blocks (blkno + 1))
  rw [Nat.mul_succ] at reach
  refine ⟨?_, placed.1, ?_, ?_⟩
  · change offset + (u.alen + bytes) = _
    omega
  · change blocks ≤ u.ctx.sin.din.blocks
    rw [placed.2]
    exact grown.trans (le_max_left _ _)
  · change _ ≤ u.ctx.sin.din.blocks
    rw [placed.2]
    apply Nat.div_le_of_le_mul
    omega

theorem onCtx_keeps {α : Type} {m : Kernel Fault Vol α} (tame : Tame m) :
    Stays alen size blocks (onCtx (onVol m)) :=
  keeps_zoom (onVol_keeps tame) (fun _ before => before.2) (fun _ _ before after => ⟨before.1, after⟩)
    fun _ _ _ before after => ⟨before.1, after⟩

theorem sfsBufOp_keeps {bytes blkoff : ℕ} : Stays alen size blocks (sfsBufOp write bytes ino blkoff) := by
  apply Keeps.bind keeps_get
  intro t
  apply keeps_ite
  · exact fun _ => onCtx_keeps (Keeps.tame sfsWbuf_keeps)
  · intro _
    refine Keeps.bind (onCtx_keeps (Keeps.tame sfsRbuf_keeps)) fun _ => keeps_modify ?_
    exact fun _ before => before

theorem sfsBlockOp_keeps : Stays alen size blocks (sfsBlockOp write ino) := by
  apply Keeps.bind keeps_get
  intro t
  apply keeps_ite
  · intro _
    exact onCtx_keeps (Keeps.bind (Keeps.tame sfsRwblock_keeps) fun _ => keeps_pure _)
  · intro _
    refine Keeps.bind (onCtx_keeps (Keeps.tame sfsRwblock_keeps)) fun _ => keeps_modify ?_
    exact fun _ before => before

theorem ioTransfer_progress (here : Progress size blocks offset offset s) (order : offset < endpos) :
    (ioTransfer write offset endpos s).Ends (fun _ => Progress size blocks offset endpos)
      (Halted size blocks offset) Harmless := by
  apply ioTransfer_ends _ _ here order
  · intro t blkno blkoff bytes progress nonempty fits _
    exact progress.move bytes _ fits (by omega) fun _ _ _ _ => sfsBufOp_keeps
  · intro t blkno progress _
    have start : Progress size blocks offset (blkSize * blkno + 0) t := progress
    have moved := start.move blkSize (sfsBlockOp write) (by omega) (by decide)
      fun _ _ _ _ => sfsBlockOp_keeps
    rw [add_zero] at moved
    rw [Nat.mul_succ]
    exact moved

end Transfers

/-! ## Calls -/

section Calls

variable {c : Ctx} {s : Io} {write : Bool} {offset : ℤ} {len : ℕ}

/-- The map of the file reaches the block of a position, or ends right before it. -/
def Reaches (c : Ctx) (pos : ℕ) : Prop := pos / blkSize ≤ c.sin.din.blocks

theorem Reaches.mono {c' : Ctx} {pos pos' : ℕ} (reaches : Reaches c pos) (lower : pos' ≤ pos)
    (grown : c.sin.din.blocks ≤ c'.sin.din.blocks) : Reaches c' pos' :=
  ((Nat.div_le_div_right lower).trans reaches).trans grown

/-- What `sfs_io_nolock` leaves: the file has not lost blocks, and its map reaches its
size and, if it reached the position, the one behind what was done. -/
structure IoLeft (c : Ctx) (offset done : ℕ) (c' : Ctx) : Prop where
  grown : c.sin.din.blocks ≤ c'.sin.din.blocks
  size : Reaches c' c'.sin.din.size
  next : Reaches c offset → Reaches c' (offset + done)

/-- At `out` the size follows what was done. -/
theorem Progress.left {offset p : ℕ} (progress : Progress c.sin.din.size c.sin.din.blocks offset p s)
    (sized : Reaches c c.sin.din.size) :
    IoLeft c offset (ioOut offset s).alen (ioOut offset s).ctx := by
  obtain ⟨place, size, grown, next⟩ := progress
  rw [← place] at next
  unfold ioOut
  split_ifs with longer
  · exact ⟨grown, next, fun _ => next⟩
  · refine ⟨grown, ?_, fun _ => next⟩
    rw [size]
    exact sized.mono le_rfl grown

/-- A write that returns 0 did all of the request that lies below the largest file
size, and the file reaches behind it. -/
def Extended (offset : ℤ) (len done : ℕ) (c' : Ctx) : Prop :=
  offset.toNat + done = min (offset.toNat + len) (max offset.toNat maxFileSize) ∧
    (done ≠ 0 → offset.toNat + done ≤ c'.sin.din.size)

theorem sfsIoNolock_left (sized : Reaches s.ctx s.ctx.sin.din.size)
    (reached : write = true → Reaches s.ctx offset.toNat) :
    (sfsIoNolock write offset len s).Ends
      (fun _ t => IoLeft s.ctx offset.toNat t.alen t.ctx ∧
        (write = true → len < 2 ^ 32 → Extended offset len t.alen t.ctx))
      (fun e t => IoLeft s.ctx offset.toNat t.alen t.ctx ∧ e ≠ 0) Harmless := by
  have unchanged : IoLeft s.ctx offset.toNat 0 s.ctx := ⟨le_rfl, sized, id⟩
  have ends : ¬ (offset < 0 ∨ (maxFileSize : ℤ) ≤ offset ∨ endPos offset len < offset) → len < 2 ^ 32 →
      endPos offset len = offset + len := fun valid word => endPos_eq (by omega) (by omega) word (by omega)
  apply sfsIoNolock_ends
  · intro _
    simp [Harmless]
  · intro _
    exact ⟨unchanged, by decide⟩
  · intro valid none
    refine ⟨unchanged, fun writes word => ⟨?_, fun nonempty => absurd rfl nonempty⟩⟩
    have sum := ends valid word
    have empty : offset = endPos offset len := by simpa [writes] using none
    change offset.toNat + 0 = _
    omega
  · intro valid endpos cut order
    have reached : Reaches s.ctx offset.toNat := by
      cases write with
      | true => exact reached rfl
      | false => exact sized.mono (by rw [if_neg (by decide)] at cut; omega) le_rfl
    have here : Progress s.ctx.sin.din.size s.ctx.sin.din.blocks offset.toNat offset.toNat (s.setAlen 0) :=
      ⟨rfl, rfl, le_rfl, reached⟩
    apply Ends.mono (ioTransfer_progress here order)
    · intro _ t progress
      refine ⟨progress.left sized, fun writes word => ?_⟩
      have sum := ends valid word
      have place := progress.place
      rw [if_pos writes] at cut
      rw [Extended, ioOut_alen]
      exact ⟨by omega, fun _ => ioOut_size offset.toNat t⟩
    · rintro e _ ⟨code, p, progress⟩
      exact ⟨progress.left sized, code⟩

/-- `sfs_read` and `sfs_write` do not run past the last block if the map reaches the
position a write begins at. -/
theorem sfsIo_left {mem : Block} (sized : Reaches c c.sin.din.size)
    (reached : write = true → Reaches c offset.toNat) :
    (sfsIo write (iobufInit len offset) mem c).Ends
      (fun moved c' => IoLeft c offset.toNat moved.iob.used c' ∧
        (write = true → len < 2 ^ 32 → moved.ret = 0 → Extended offset len moved.iob.used c'))
      (fun _ _ => False) Harmless := by
  have transfer := @sfsIoNolock_left ⟨c, len, fun i => mem (0 + i)⟩ write offset len sized reached
  apply @sfsIo_ends write mem c len offset fun ret done c' => IoLeft c offset.toNat done c' ∧
    (write = true → len < 2 ^ 32 → ret = 0 → Extended offset len done c')
  · apply Ends.mono transfer
    · exact fun _ t left => ⟨left.1, fun writes word _ => left.2 writes word⟩
    · exact fun e t left => ⟨left.1, fun _ _ zero => absurd zero left.2⟩
  · intro _ _ _ _ _
    simp [Harmless]

/-! ## Truncations -/

/-- The device answers every request. -/
def Willing (v : Vol) : Prop := Answers (fun ret => ret = 0) v

theorem truncGrow_left {more size blocks : ℕ} (here : At size blocks c) :
    (truncGrow blocks more c).Ends (fun _ => At size (blocks + more))
      (fun _ c' => c'.sin.din.size = size ∧ blocks ≤ c'.sin.din.blocks) Harmless := by
  induction more generalizing c blocks with
  | zero => exact here
  | succ more ih =>
    rw [truncGrow]
    have loaded : (sfsBmapLoadNolock blocks c).Ends (fun _ => At size (blocks + 1))
        (fun _ c' => c'.sin.din.size = size ∧ blocks ≤ c'.sin.din.blocks) Harmless := by
      apply Ends.mono (sfsBmapLoadNolock_ends here le_rfl)
      · intro _ c' placed
        rwa [max_eq_right (Nat.le_succ blocks)] at placed
      · rintro _ c' ⟨-, placed⟩
        exact ⟨placed.1, placed.2.ge⟩
    apply Ends.bind loaded
    intro _ c' placed
    have rest := ih placed
    rw [add_assoc, add_comm 1 more] at rest
    apply Ends.mono rest
    · exact fun _ _ after => after
    · rintro _ c'' ⟨sized, grown⟩
      exact ⟨sized, by omega⟩

theorem sfsBmapTruncateNolock_left {size blocks : ℕ} (here : At size (blocks + 1) c)
    (willing : Willing c.vol) :
    (sfsBmapTruncateNolock c).Ends (fun _ c' => At size blocks c' ∧ Willing c'.vol) (fun _ _ => False)
      Harmless := by
  have free : Keeps (fun c => At size (blocks + 1) c ∧ Willing c.vol) (fun _ _ => False) Harmless
      (sfsBmapFreeNolock (c.sin.din.blocks - 1)) := by
    apply Keeps.bind keeps_get
    intro c'
    by_cases direct : c.sin.din.blocks - 1 < 12
    · rw [dif_pos direct]
      apply keeps_ite
      · intro _
        refine Keeps.bind (keeps_zoom sfsBlockFree_keeps (fun _ before => before.2)
          (fun _ _ before after => ⟨before.1, after⟩) fun _ _ _ _ never => never) fun _ => keeps_modify ?_
        exact fun _ before => before
      · exact fun _ => keeps_pure _
    · rw [dif_neg direct]
      apply keeps_ite
      · intro _
        apply keeps_zoom sfsBmapFreeSubNolock_keeps (fun _ before => before.2)
          (fun _ _ before after => ⟨before.1, after⟩)
        rintro e _ _ _ ⟨⟨zero, nonzero⟩, -⟩
        exact nonzero zero
      · exact fun _ => keeps_pure _
  rw [sfsBmapTruncateNolock, get_bind_run, require_bind_run (by rw [here.2]; omega)]
  apply Ends.bind (free c ⟨here, willing⟩)
  rintro _ c' ⟨placed, answers⟩
  refine ⟨⟨placed.1, ?_⟩, answers⟩
  change c'.sin.din.blocks - 1 = blocks
  rw [placed.2, Nat.add_sub_cancel]

theorem truncShrink_left {less size blocks : ℕ} (here : At size (blocks + less) c) (willing : Willing c.vol) :
    (truncShrink less c).Ends (fun _ => At size blocks) (fun _ _ => False) Harmless := by
  induction less generalizing c with
  | zero => exact here
  | succ less ih =>
    rw [truncShrink]
    apply Ends.bind (sfsBmapTruncateNolock_left here willing)
    rintro _ c' ⟨placed, answers⟩
    exact ih placed answers

/-- What `sfs_truncfile` leaves: it has the blocks it was to have, or has not lost any. -/
theorem truncLocked_left (sized : Reaches c c.sin.din.size)
    (willing : roundupDiv len blkSize < c.sin.din.blocks → Willing c.vol) :
    (truncLocked len c).Ends
      (fun _ c' => c'.sin.din.size = len ∧ c'.sin.din.blocks = roundupDiv len blkSize)
      (fun _ c' => Reaches c' c'.sin.din.size ∧ c.sin.din.blocks ≤ c'.sin.din.blocks) Harmless := by
  rw [truncLocked, get_bind_run]
  have finish : ∀ c', c'.sin.din.blocks = roundupDiv len blkSize →
      ((do
        let c ← get
        require (c.sin.din.blocks = roundupDiv len blkSize) Fault.assertion
        Kernel.modify fun c => (c.setDin { c.sin.din with size := len }).setDirty : Kernel Fault Ctx Unit)
          c').Ends (fun _ c' => c'.sin.din.size = len ∧ c'.sin.din.blocks = roundupDiv len blkSize)
        (fun _ c' => Reaches c' c'.sin.din.size ∧ c.sin.din.blocks ≤ c'.sin.din.blocks) Harmless := by
    intro c' count
    rw [get_bind_run, require_bind_run count]
    exact ⟨rfl, count⟩
  split_ifs with more
  · have grows := @truncGrow_left c (roundupDiv len blkSize - c.sin.din.blocks) c.sin.din.size
      c.sin.din.blocks ⟨rfl, rfl⟩
    have settled : (truncGrow c.sin.din.blocks (roundupDiv len blkSize - c.sin.din.blocks) c).Ends
        (fun _ c' => c'.sin.din.blocks = roundupDiv len blkSize)
        (fun _ c' => Reaches c' c'.sin.din.size ∧ c.sin.din.blocks ≤ c'.sin.din.blocks) Harmless := by
      apply Ends.mono grows
      · intro _ c' placed
        rw [placed.2]
        omega
      · rintro _ c' ⟨size, grown⟩
        refine ⟨?_, grown⟩
        rw [size]
        exact sized.mono le_rfl grown
    exact Ends.bind settled fun _ c' count => finish c' count
  · have settled : (truncShrink (c.sin.din.blocks - roundupDiv len blkSize) c).Ends
        (fun _ c' => c'.sin.din.blocks = roundupDiv len blkSize)
        (fun _ c' => Reaches c' c'.sin.din.size ∧ c.sin.din.blocks ≤ c'.sin.din.blocks) Harmless := by
      by_cases less : roundupDiv len blkSize < c.sin.din.blocks
      · have shrinks := @truncShrink_left c (c.sin.din.blocks - roundupDiv len blkSize) c.sin.din.size
          (roundupDiv len blkSize) ⟨rfl, by omega⟩ (willing less)
        apply Ends.mono shrinks
        · exact fun _ _ placed => placed.2
        · exact fun _ _ never => never.elim
      · have same : c.sin.din.blocks = roundupDiv len blkSize := by omega
        rw [same, Nat.sub_self]
        exact same
    exact Ends.bind settled fun _ c' count => finish c' count

end Calls

end LiNos.Fs
