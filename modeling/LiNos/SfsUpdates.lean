import LiNos.SfsDirs

/-!
What writing and truncating a file do to a consistently mounted volume.

Nothing is asked of the position or the length: a call that does not stop the kernel leaves
the file with some list of blocks, whether it has succeeded or run out of space on the way.
-/

namespace LiNos.Fs

open Kernel LittleEndian

variable {c c' : Ctx} {bs bs' : List ℕ} {index endpos offset len : ℕ}

/-! ## Growing to an unknown length -/

/-- The file has only grown, by blocks that nobody counts. -/
def GrownFrom (c : Ctx) (bs : List ℕ) (c' : Ctx) : Prop := ∃ bs', Grown c c' bs bs'

/-- `sfs_bmap_load_nolock` at any index. -/
theorem sfsBmapLoadNolock_grows (sound : c.vol.Sound) (mapped : Mapped c.vol c.sin.din bs) :
    (sfsBmapLoadNolock index c).Ends (fun b c' => ∃ bs', Grown c c' bs bs' ∧ b ∈ bs')
      (fun _ => GrownFrom c bs) (fun _ => True) := by
  by_cases reached : index ≤ bs.length
  · by_cases room : index < ndirect + blkNentry
    · rcases sfsBmapLoadNolock_cases sound mapped reached room with
        ⟨c', bs', ran, grown, -, length⟩ | ⟨c', ran, grown, -⟩
      · rw [ran]
        refine ⟨bs', grown, getD_mem ?_⟩
        rw [length]
        exact (Nat.lt_succ_self index).trans_le (le_max_right _ _)
      · rw [ran]
        exact ⟨bs, grown⟩
    · -- the map has no such index
      have last : index = bs.length := le_antisymm reached (mapped.most.trans (not_lt.mp room))
      have stopped : bmapPointer index (decide (index = c.sin.din.blocks)) c = .fault .indexOutOfRange := by
        unfold ndirect at room
        rw [bmapPointer, get_bind_run, dif_neg (by omega), if_neg (by unfold ndirect; omega)]
        rfl
      have whole : sfsBmapGetNolock index (decide (index = c.sin.din.blocks)) c = .fault .indexOutOfRange := by
        rw [sfsBmapGetNolock, bind_fault stopped]
      rw [sfsBmapLoadNolock, get_bind_run, require_bind_run (by rw [mapped.blocks, last]), bind_fault whole]
      trivial
  · rw [sfsBmapLoadNolock, get_bind_run, require_bind_fault (by rw [mapped.blocks]; exact reached)]
    trivial

/-! ## Writing anywhere -/

section Writing

variable {start s : Io}

/-- The write has come to `p`. -/
def Came (start : Io) (bs : List ℕ) (offset p : ℕ) (s : Io) : Prop :=
  GrownFrom start.ctx bs s.ctx ∧ offset + s.alen = p

/-- The write was stopped before `endpos`. -/
def CutShort (start : Io) (bs : List ℕ) (offset endpos : ℕ) (_ : ℤ) (s : Io) : Prop :=
  GrownFrom start.ctx bs s.ctx ∧ offset + s.alen ≤ endpos

variable (sound : start.ctx.vol.Sound)
include sound

/-- One load, and a write to the block it gives. -/
theorem Came.load {p : ℕ} (came : Came start bs offset p s) (before : p ≤ endpos) :
    (onCtx (sfsBmapLoadNolock index) s).Ends
      (fun b t => ∃ bs', Grown start.ctx t.ctx bs bs' ∧ b ∈ bs' ∧ t.alen = s.alen)
      (CutShort start bs offset endpos) (fun _ => True) := by
  obtain ⟨⟨bs', grown⟩, place⟩ := came
  apply Ends.zoom (sfsBmapLoadNolock_grows grown.sound grown.mapped)
  · rintro b c' ⟨bs'', further, member⟩
    exact ⟨bs'', grown.trans sound further, member, rfl⟩
  · rintro e c' ⟨bs'', further⟩
    exact ⟨⟨bs'', grown.trans sound further⟩, place.le.trans before⟩

theorem pieceMoves_any : PieceMoves true endpos (Came start bs offset) (CutShort start bs offset endpos)
    (fun _ => True) := by
  intro s blkno blkoff size came nonempty fits inside
  rw [ioPiece]
  apply Ends.bind (Came.load sound came (by omega))
  rintro b t ⟨bs', grown, member, alen⟩
  have used := grown.mapped.block member
  have write := @sfsWbuf_run t.ctx.vol b blkoff size (fun i => t.mem (t.alen + i)) grown.sound.device used.1
    (by omega) fits
  rw [bind_ok (sfsBufOp_write write)]
  refine ⟨⟨bs', grown.write member _⟩, ?_⟩
  change offset + (t.alen + size) = _
  rw [alen, ← add_assoc, came.2]

theorem blockMoves_any : BlockMoves true endpos (Came start bs offset) (CutShort start bs offset endpos)
    (fun _ => True) := by
  intro s blkno came inside
  rw [ioBlock]
  apply Ends.bind (Came.load sound came (by unfold blkSize at *; omega))
  rintro b t ⟨bs', grown, member, alen⟩
  have used := grown.mapped.block member
  have write := @sfsWblock_run t.ctx.vol b (fun i => t.mem (t.alen + i)) grown.sound.device used.1
  rw [bind_ok (sfsBlockOp_write write)]
  refine ⟨⟨bs', grown.write member _⟩, ?_⟩
  change offset + (t.alen + blkSize) = _
  rw [alen, ← add_assoc, came.2, Nat.mul_succ]

end Writing

/-! ## The file afterwards -/

/-- The file has some list of blocks now, and a size that fits its field. -/
def Resized (c : Ctx) (bs : List ℕ) (c' : Ctx) : Prop :=
  ∃ bs', Reshaped c c' bs bs' ∧ c'.sin.din.size < 2 ^ 32

/-- The size does not matter for the blocks. -/
theorem Reshaped.resize (reshaped : Reshaped c c' bs bs') {d : Ctx} {size : ℕ} (vol : d.vol = c'.vol)
    (din : d.sin.din = { c'.sin.din with size := size }) (ino : d.sin.ino = c'.sin.ino) : Reshaped c d bs bs' := by
  refine ⟨?_, ?_, ?_, ?_, ?_, ?_, ?_, ?_, ?_, ?_⟩
  · rw [vol]
    exact reshaped.sound
  · rw [vol, din]
    exact reshaped.mapped.resize size
  · rw [vol]
    exact reshaped.blocks
  · rw [vol, din]
    exact reshaped.unused
  · rw [vol, din]
    exact reshaped.inUse
  · rw [din]
    exact reshaped.fresh
  · rw [vol]
    exact reshaped.disk
  · rw [din]
    exact reshaped.type
  · rw [din]
    exact reshaped.nlinks
  · rw [ino]
    exact reshaped.ino

theorem GrownFrom.resized (small : c.sin.din.size < 2 ^ 32) (grown : GrownFrom c bs c') : Resized c bs c' := by
  obtain ⟨bs', grown⟩ := grown
  refine ⟨bs', grown.toReshaped, ?_⟩
  rw [grown.size]
  exact small

theorem GrownFrom.out {t : Io} (small : c.sin.din.size < 2 ^ 32) (grown : GrownFrom c bs t.ctx)
    (within : offset + t.alen ≤ maxFileSize) : Resized c bs (ioOut offset t).ctx := by
  obtain ⟨bs', grown⟩ := grown
  refine ⟨bs', grown.toReshaped.resize (ioOut_vol offset t) (ioOut_din offset t) (ioOut_ino offset t), ?_⟩
  have size := grown.size
  rw [ioOut_din]
  change max t.ctx.sin.din.size (offset + t.alen) < 2 ^ 32
  unfold maxFileSize at within
  omega

section Calls

variable (sound : c.vol.Sound) (mapped : Mapped c.vol c.sin.din bs) (small : c.sin.din.size < 2 ^ 32)
include sound mapped small

theorem sfsIoNolock_resizes {s : Io} (same : s.ctx = c) {offset : ℤ} :
    (sfsIoNolock true offset len s).Ends (fun _ t => Resized c bs t.ctx) (fun _ t => Resized c bs t.ctx)
      (fun _ => True) := by
  subst same
  have unchanged : Resized s.ctx bs s.ctx := ⟨bs, .refl sound mapped, small⟩
  apply sfsIoNolock_ends
  · exact fun _ => trivial
  · exact fun _ => unchanged
  · exact fun _ _ => unchanged
  · intro _ endpos cut order
    have within : endpos ≤ maxFileSize := by
      rw [cut, if_pos rfl]
      exact min_le_right _ _
    have here : Came (s.setAlen 0) bs offset.toNat offset.toNat (s.setAlen 0) := ⟨⟨bs, .refl sound mapped⟩, rfl⟩
    apply Ends.imp (ioTransfer_ends (pieceMoves_any sound) (blockMoves_any sound) here order)
    · exact fun _ t came => came.1.out small (came.2.le.trans within)
    · exact fun _ t short => short.1.out small (short.2.trans within)
    · exact fun _ _ => trivial

/-- `sfs_write`. -/
theorem sfsIo_resizes {offset : ℤ} {mem : Block} :
    (sfsIo true (iobufInit len offset) mem c).Ends (fun _ => Resized c bs) (fun _ => Resized c bs)
      (fun _ => True) := by
  have moved := @sfsIo_ends true mem c len offset (fun _ _ => Resized c bs) _
    (sfsIoNolock_resizes sound mapped small rfl) fun _ _ _ _ _ => trivial
  exact Ends.imp moved (fun _ _ after => after) (fun _ _ never => never.elim) fun _ any => any

omit small in
theorem truncGrow_grows {nblks more : ℕ} :
    (truncGrow nblks more c).Ends (fun _ => GrownFrom c bs) (fun _ => GrownFrom c bs) (fun _ => True) := by
  induction more generalizing c bs nblks with
  | zero => exact ⟨bs, .refl sound mapped⟩
  | succ more ih =>
    rw [truncGrow]
    apply Ends.bind (sfsBmapLoadNolock_grows sound mapped)
    rintro b c' ⟨bs', grown, -⟩
    apply Ends.imp (ih grown.sound grown.mapped)
    · rintro - c'' ⟨bs'', further⟩
      exact ⟨bs'', grown.trans sound further⟩
    · rintro e c'' ⟨bs'', further⟩
      exact ⟨bs'', grown.trans sound further⟩
    · exact fun _ _ => trivial

/-- `sfs_truncfile`. -/
theorem sfsTruncfile_resizes {len : ℤ} :
    (sfsTruncfile len c).Ends (fun _ => Resized c bs) (fun _ => Resized c bs) (fun _ => True) := by
  have unchanged : Resized c bs c := ⟨bs, .refl sound mapped, small⟩
  unfold sfsTruncfile
  by_cases invalid : len < 0 ∨ (maxFileSize : ℤ) < len
  · rw [if_pos invalid]
    exact unchanged
  · have fits : len.toNat < 2 ^ 32 := by
      unfold maxFileSize at invalid
      omega
    rw [if_neg invalid, get_bind_run]
    by_cases same : c.sin.din.size = len.toNat
    · rw [if_pos same]
      exact ends_require (fun _ => unchanged) fun _ => trivial
    · rw [if_neg same, truncLocked, get_bind_run]
      -- what is left is to set the size
      have resized : ∀ d : Ctx, (∃ bs', Reshaped c d bs bs') →
          Outcome.Ends (fun _ => Resized c bs) (fun _ => Resized c bs) (fun _ => True)
            ((do
              let c ← get
              require (c.sin.din.blocks = roundupDiv len.toNat blkSize) .assertion
              modify fun c => (c.setDin { c.sin.din with size := len.toNat }).setDirty :
                Kernel Fault Ctx Unit) d) := by
        rintro d ⟨bs', reshaped⟩
        rw [get_bind_run]
        by_cases right : d.sin.din.blocks = roundupDiv len.toNat blkSize
        · rw [require_bind_run right]
          exact ⟨bs', reshaped.resize rfl rfl rfl, fits⟩
        · rw [require_bind_fault right]
          trivial
      by_cases more : c.sin.din.blocks < roundupDiv len.toNat blkSize
      · rw [if_pos more]
        have grows := @truncGrow_grows c bs sound mapped c.sin.din.blocks
          (roundupDiv len.toNat blkSize - c.sin.din.blocks)
        apply Ends.bind (Ends.imp grows (fun _ _ grown => grown) (fun _ _ grown => grown.resized small)
          fun _ _ => trivial)
        rintro - d ⟨bs', grown⟩
        exact resized d ⟨bs', grown.toReshaped⟩
      · rw [if_neg more]
        obtain ⟨d, bs', ran, reshaped, -⟩ := @truncShrink_run c bs
          (c.sin.din.blocks - roundupDiv len.toNat blkSize) sound mapped (by rw [mapped.blocks]; omega)
        rw [bind_ok ran]
        exact resized d ⟨bs', reshaped⟩

end Calls

/-! ## On a mounted volume -/

/-- The file has other blocks now, and the directories show what they showed. -/
structure Updated (s s' : Mount) (l l' : Layout) : Prop where
  laid : Laid s' l'
  kept : Kept s s' l l' ∅
  inos : l'.inos = l.inos

variable {s : Mount} {l : Layout} {i : ℕ}

/-- A file that is not a directory gets other blocks. -/
theorem Laid.resized (laid : Laid s l) (member : i ∈ s.cached) (file : (s.din i).type ≠ typeDir)
    (resized : Resized (s.ctx i) (l.bs i) c') : ∃ l', Updated s (s.put i c') l l' := by
  obtain ⟨bs', reshaped, size⟩ := resized
  have inode := (laid.cached i member).1
  have kept := laid.reshape_kept member reshaped
  refine ⟨l.setBs i bs', laid.reshape member reshaped size fun dir => absurd dir file,
    ⟨kept.inos, kept.type, ?_, kept.cached⟩, rfl⟩
  intro x other _ dir
  refine kept.list x other ?_ dir
  rintro rfl
  exact file dir

section Mounted

variable (laid : Laid s l) (member : i ∈ s.cached)
include laid member

theorem Laid.ctx_size : (s.ctx i).sin.din.size < 2 ^ 32 := by
  have size := (laid.shape i (laid.cached i member).1).size
  rw [Mount.din_cached member] at size
  exact size

/-- A call on a file that is not a directory. -/
theorem Laid.fileCall {α : Type} {m : Kernel Fault Ctx α} (file : (s.din i).type ≠ typeDir)
    (resizes : (m (s.ctx i)).Ends (fun _ => Resized (s.ctx i) (l.bs i)) (fun _ => Resized (s.ctx i) (l.bs i))
      (fun _ => True)) :
    (onNode i m s).Ends (fun _ s' => ∃ l', Updated s s' l l') (fun _ s' => ∃ l', Updated s s' l l')
      (fun _ => True) := by
  cases ran : m (s.ctx i) with
  | ok a c =>
    rw [ran] at resizes
    rw [onNode_ok ran]
    exact laid.resized member file resizes
  | err e c =>
    rw [ran] at resizes
    rw [onNode_err ran]
    exact laid.resized member file resizes
  | fault reason =>
    rw [onNode_fault ran]
    trivial

/-- `sfs_write`; the kernel stops if it is to write a directory. -/
theorem Laid.write {offset : ℤ} {mem : Block} :
    (onNode i (sfsIo true (iobufInit len offset) mem) s).Ends (fun _ s' => ∃ l', Updated s s' l l')
      (fun _ s' => ∃ l', Updated s s' l l') (fun _ => True) := by
  by_cases file : (s.din i).type ≠ typeDir
  · exact laid.fileCall member file
      (sfsIo_resizes laid.sound (laid.ctx_mapped member) (laid.ctx_size member))
  · rw [Mount.din_cached member] at file
    have stopped : sfsIoNolock true offset len ⟨s.ctx i, len, fun x => mem (0 + x)⟩ = .fault .assertion := by
      rw [sfsIoNolock, get_bind_run]
      exact require_bind_fault file _ _ _
    rw [onNode_fault (sfsIo_fault stopped)]
    trivial

/-- `sfs_truncfile` of a file. -/
theorem Laid.truncfile (file : (s.din i).type ≠ typeDir) {len : ℤ} :
    (onNode i (sfsTruncfile len) s).Ends (fun _ s' => ∃ l', Updated s s' l l')
      (fun _ s' => ∃ l', Updated s s' l l') (fun _ => True) :=
  laid.fileCall member file
    (sfsTruncfile_resizes laid.sound (laid.ctx_mapped member) (laid.ctx_size member))

end Mounted

end LiNos.Fs
