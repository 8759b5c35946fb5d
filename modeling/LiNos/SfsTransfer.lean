import LiNos.SfsFile

/-!
What the file operations do to the blocks and the bytes of a file.

`Reshaped` says what any of them does to the volume: the file may hold other blocks
afterwards, the new ones were free, and the blocks of everything else stay in use with
their contents. `byteOf` reads a file as one string of bytes that goes on with zeros
behind its last block, so that a new block changes nothing.
-/

namespace LiNos.Fs

open Kernel LittleEndian Function List

variable {v v' : Vol} {c c' c'' : Ctx} {bs bs' bs'' taken : List ℕ} {b x k n blkno size : ℕ}
  {din : DiskInode} {α : Type}

/-- A file that held the blocks of `bs` now holds those of `bs'`. -/
structure Reshaped (c c' : Ctx) (bs bs' : List ℕ) : Prop where
  sound : c'.vol.Sound
  mapped : Mapped c'.vol c'.sin.din bs'
  blocks : c'.vol.super.blocks = c.vol.super.blocks
  unused : c'.vol.super.unusedBlocks + (c'.sin.din.holds bs').length =
    c.vol.super.unusedBlocks + (c.sin.din.holds bs).length
  inUse : ∀ b, c'.vol.InUse b ↔ c.vol.InUse b ∧ b ∉ c.sin.din.holds bs ∨ b ∈ c'.sin.din.holds bs'
  fresh : ∀ b ∈ c'.sin.din.holds bs', b ∈ c.sin.din.holds bs ∨ c.vol.Free b
  disk : ∀ b, c.vol.InUse b → b ∉ c.sin.din.holds bs → c'.vol.disk b = c.vol.disk b
  type : c'.sin.din.type = c.sin.din.type
  nlinks : c'.sin.din.nlinks = c.sin.din.nlinks
  ino : c'.sin.ino = c.sin.ino

theorem Reshaped.refl (sound : c.vol.Sound) (mapped : Mapped c.vol c.sin.din bs) : Reshaped c c bs bs := by
  refine ⟨sound, mapped, rfl, rfl, ?_, fun _ held => .inl held, fun _ _ _ => rfl, rfl, rfl, rfl⟩
  intro b
  have used := mapped.used b
  tauto

/-- A block of something else is not among the blocks of the file later either. -/
theorem Reshaped.apart (reshaped : Reshaped c c' bs bs') (used : c.vol.InUse b)
    (other : b ∉ c.sin.din.holds bs) : b ∉ c'.sin.din.holds bs' := by
  intro held
  rcases reshaped.fresh b held with before | free
  · exact other before
  · exact Vol.Sound.not_free used free

theorem Reshaped.trans (start : c.vol.Sound) (first : Reshaped c c' bs bs')
    (second : Reshaped c' c'' bs' bs'') : Reshaped c c'' bs bs'' := by
  refine ⟨second.sound, second.mapped, second.blocks.trans first.blocks,
    second.unused.trans first.unused, ?_, ?_, ?_, second.type.trans first.type,
    second.nlinks.trans first.nlinks, second.ino.trans first.ino⟩
  · intro b
    rw [second.inUse, first.inUse]
    have apart := @Reshaped.apart c c' bs bs' b first
    tauto
  · intro b held
    rcases second.fresh b held with before | free
    · exact first.fresh b before
    · -- a block that is free in between was free or the file's at the start
      by_cases mine : b ∈ c.sin.din.holds bs
      · exact .inl mine
      · right
        obtain ⟨valid, unused⟩ := first.sound.free_iff.mp free
        refine start.free_iff.mpr ⟨?_, fun used => unused ((first.inUse b).mpr (.inl ⟨used, mine⟩))⟩
        unfold Vol.Valid at *
        rwa [first.blocks] at valid
  · intro b used other
    have still := (first.inUse b).mpr (.inl ⟨used, other⟩)
    exact (second.disk b still (first.apart used other)).trans (first.disk b used other)

/-- How many blocks a file holds besides its inode. -/
theorem holds_length (din : DiskInode) (bs : List ℕ) :
    (din.holds bs).length = bs.length + if din.indirect = 0 then 0 else 1 := by
  rw [DiskInode.holds, length_append]
  by_cases none : din.indirect = 0 <;> simp [none]

/-! ## The bytes of a file -/

/-- The byte at position `x`. -/
def byteOf (v : Vol) (bs : List ℕ) (x : ℕ) : UInt8 :=
  if x / blkSize < bs.length then v.disk (bs.getD (x / blkSize) 0) (x % blkSize) else 0

theorem Mapped.getD_inj {j : ℕ} (mapped : Mapped v din bs) (one : j < bs.length) (two : k < bs.length) :
    bs.getD j 0 = bs.getD k 0 ↔ j = k := by
  rw [getD_eq_getElem _ _ one, getD_eq_getElem _ _ two]
  exact (nodup_append.mp mapped.nodup).1.getElem_inj_iff

theorem byteOf_congr (same : ∀ b ∈ bs, v'.disk b = v.disk b) (x : ℕ) : byteOf v' bs x = byteOf v bs x := by
  unfold byteOf
  by_cases inside : x / blkSize < bs.length
  · rw [if_pos inside, if_pos inside, same _ (getD_mem inside)]
  · rw [if_neg inside, if_neg inside]

/-- A zeroed block at the end does not change the bytes. -/
theorem byteOf_concat (same : ∀ b ∈ bs, v'.disk b = v.disk b) (zero : v'.disk b = zeroBlock) (x : ℕ) :
    byteOf v' (bs ++ [b]) x = byteOf v bs x := by
  unfold byteOf
  rw [getD_concat, length_append, length_singleton]
  rcases Nat.lt_trichotomy (x / blkSize) bs.length with inside | last | beyond
  · rw [if_pos (by omega), if_neg (by omega), if_pos inside, same _ (getD_mem inside)]
  · rw [if_pos (by omega), if_pos last, if_neg (by omega), zero]
    rfl
  · rw [if_neg (by omega), if_neg (by omega)]

/-- A piece of the `k`-th block is written. -/
theorem byteOf_write {off : ℕ} {data : Block} (buf : Block) (mapped : Mapped v din bs) (inside : k < bs.length)
    (fits : off + size ≤ blkSize)
    (written : ∀ i < blkSize, data i =
      if off ≤ i ∧ i < off + size then buf (i - off) else v.disk (bs.getD k 0) i) (x : ℕ) :
    byteOf (v.write (bs.getD k 0) data) bs x =
      if blkSize * k + off ≤ x ∧ x < blkSize * k + off + size then buf (x - (blkSize * k + off))
      else byteOf v bs x := by
  have parts := Nat.div_add_mod x blkSize
  have low : x % blkSize < blkSize := Nat.mod_lt x (by decide)
  unfold byteOf
  by_cases here : x / blkSize = k
  · rw [here] at parts ⊢
    rw [if_pos inside, if_pos inside, Vol.write_disk, update_self, written _ low]
    by_cases piece : off ≤ x % blkSize ∧ x % blkSize < off + size
    · rw [if_pos piece, if_pos (by omega)]
      congr 1
      omega
    · rw [if_neg piece, if_neg (by omega)]
  · have elsewhere : ¬ (blkSize * k + off ≤ x ∧ x < blkSize * k + off + size) := by
      rintro ⟨lower, upper⟩
      apply here
      apply Nat.div_eq_of_lt_le
      · rw [mul_comm]
        omega
      · rw [Nat.succ_mul, mul_comm k]
        omega
    rw [if_neg elsewhere]
    by_cases held : x / blkSize < bs.length
    · have other : bs.getD (x / blkSize) 0 ≠ bs.getD k 0 := fun same =>
        here ((mapped.getD_inj held inside).mp same)
      rw [if_pos held, if_pos held, Vol.write_disk, update_of_ne other]
    · rw [if_neg held, if_neg held]

/-! ## Growing -/

/-- The file has only grown: its blocks are still there, and an indirect block has
come with the first block that needs it. -/
structure Grown (c c' : Ctx) (bs bs' : List ℕ) : Prop extends Reshaped c c' bs bs' where
  size : c'.sin.din.size = c.sin.din.size
  longer : bs.length ≤ bs'.length
  late : c.sin.din.indirect = 0 → c'.sin.din.indirect ≠ 0 → ndirect < bs'.length
  kept : c.sin.din.indirect ≠ 0 → c'.sin.din.indirect = c.sin.din.indirect

theorem Grown.refl (sound : c.vol.Sound) (mapped : Mapped c.vol c.sin.din bs) : Grown c c bs bs :=
  ⟨.refl sound mapped, rfl, le_rfl, fun none there => absurd none there, fun _ => rfl⟩

theorem Grown.trans (start : c.vol.Sound) (first : Grown c c' bs bs') (second : Grown c' c'' bs' bs'') :
    Grown c c'' bs bs'' := by
  refine ⟨first.toReshaped.trans start second.toReshaped, second.size.trans first.size,
    first.longer.trans second.longer, ?_, ?_⟩
  · intro none there
    by_cases between : c'.sin.din.indirect = 0
    · exact second.late between there
    · exact (first.late none between).trans_le second.longer
  · intro there
    have same := first.kept there
    rw [second.kept (by rw [same]; exact there), same]

theorem Appended.holds_perm (appended : Appended c c' bs b) :
    (c'.sin.din.holds (bs ++ [b])).Perm ((if c'.sin.din.indirect = c.sin.din.indirect then [b]
      else [c'.sin.din.indirect, b]) ++ c.sin.din.holds bs) := by
  by_cases same : c'.sin.din.indirect = c.sin.din.indirect
  · rw [if_pos same, DiskInode.holds, DiskInode.holds, same, append_assoc, singleton_append]
    exact perm_middle
  · have there : c'.sin.din.indirect ≠ 0 := by
      rw [← (appended.fresh same).1]
      exact same
    rw [if_neg same, DiskInode.holds, DiskInode.holds, if_neg there, if_pos (appended.fresh same).1,
      append_nil]
    calc bs ++ [b] ++ [c'.sin.din.indirect]
      _ = bs ++ [b, c'.sin.din.indirect] := by rw [append_assoc, singleton_append]
      _ |>.Perm ([b, c'.sin.din.indirect] ++ bs) := perm_append_comm
      _ |>.Perm ([c'.sin.din.indirect, b] ++ bs) := (List.Perm.swap _ _ _).append_right bs

/-- The blocks of other owners and the old blocks of the file are not its indirect block. -/
theorem Appended.ne_indirect (before : Mapped c.vol c.sin.din bs) (appended : Appended c c' bs b) {t : ℕ}
    (used : c.vol.InUse t) (place : t ∉ c.sin.din.holds bs ∨ t ∈ bs) : t ≠ c'.sin.din.indirect := by
  rintro rfl
  by_cases same : c'.sin.din.indirect = c.sin.din.indirect
  · rcases place with outside | inside
    · apply outside
      rw [same, DiskInode.holds, if_neg (by rw [← same]; exact used.1.1)]
      exact mem_append_right _ (mem_singleton_self _)
    · rw [same] at inside
      exact before.apart inside
  · exact Vol.Sound.not_free used (appended.fresh same).2.2

/-- The blocks of other owners and the old blocks of the file are as they were. -/
theorem Appended.disk (before : Mapped c.vol c.sin.din bs) (appended : Appended c c' bs b) {t : ℕ}
    (used : c.vol.InUse t) (place : t ∉ c.sin.din.holds bs ∨ t ∈ bs) : c'.vol.disk t = c.vol.disk t :=
  appended.moved.disk t used (by simpa using appended.ne_indirect before used place)

/-- A file that got one more block has grown, with the same bytes. -/
theorem Appended.grown (before : Mapped c.vol c.sin.din bs) (appended : Appended c c' bs b)
    (mapped : Mapped c'.vol c'.sin.din (bs ++ [b])) :
    Grown c c' bs (bs ++ [b]) ∧ ∀ x, byteOf c'.vol (bs ++ [b]) x = byteOf c.vol bs x := by
  have perm := appended.holds_perm
  have moved := appended.moved
  refine ⟨⟨⟨moved.sound, mapped, moved.blocks, ?_, ?_, ?_, ?_, appended.type, appended.nlinks,
    appended.ino⟩, appended.size, ?_, ?_, ?_⟩, ?_⟩
  · have count := moved.unused
    rw [perm.length_eq, length_append]
    rw [length_nil] at count
    omega
  · intro t
    rw [moved.inUse, perm.mem_iff, mem_append]
    have used := before.used t
    tauto
  · intro t held
    rw [perm.mem_iff, mem_append] at held
    rcases held with new | old
    · right
      by_cases same : c'.sin.din.indirect = c.sin.din.indirect
      · rw [if_pos same, mem_singleton] at new
        rw [new]
        exact appended.free
      · rw [if_neg same, mem_pair] at new
        rcases new with rfl | rfl
        · exact (appended.fresh same).2.2
        · exact appended.free
    · exact .inl old
  · exact fun t used outside => appended.disk before used (.inl outside)
  · simp
  · intro none there
    have many := (appended.fresh (by rw [none]; exact there)).2.1
    rw [before.blocks] at many
    rw [length_append, length_singleton]
    omega
  · intro there
    by_contra other
    exact there (appended.fresh other).1
  · apply byteOf_concat
    · exact fun t member => appended.disk before (before.block member) (.inr member)
    · exact appended.zero

theorem Refused.grown (mapped : Mapped c.vol c.sin.din bs) (refused : Refused c c') :
    Grown c c' bs bs ∧ ∀ x, byteOf c'.vol bs x = byteOf c.vol bs x := by
  obtain ⟨w, sin⟩ := c'
  obtain rfl : sin = c.sin := refused.sin
  have moved := refused.moved
  have after := mapped.frame moved (fun _ _ => not_mem_nil) not_mem_nil
  refine ⟨⟨⟨moved.sound, after, moved.blocks, ?_, ?_, fun _ held => .inl held, ?_, rfl, rfl, rfl⟩,
    rfl, le_rfl, fun none there => absurd none there, fun _ => rfl⟩, ?_⟩
  · exact congrArg (· + _) moved.unused
  · intro t
    rw [moved.inUse]
    have used := mapped.used t
    tauto
  · intro t used _
    exact moved.disk t used not_mem_nil
  · apply byteOf_congr
    intro t member
    exact moved.disk t (mapped.block member) not_mem_nil

/-- `sfs_bmap_load_nolock` within a file or at its end. -/
theorem sfsBmapLoadNolock_cases {index : ℕ} (sound : c.vol.Sound) (mapped : Mapped c.vol c.sin.din bs)
    (reached : index ≤ bs.length) (room : index < ndirect + blkNentry) :
    (∃ c' bs', sfsBmapLoadNolock index c = .ok (bs'.getD index 0) c' ∧ Grown c c' bs bs' ∧
      (∀ x, byteOf c'.vol bs' x = byteOf c.vol bs x) ∧ bs'.length = max bs.length (index + 1)) ∨
    (∃ c', sfsBmapLoadNolock index c = .err (-eNoMem) c' ∧ Grown c c' bs bs ∧
      (∀ x, byteOf c'.vol bs x = byteOf c.vol bs x) ∧ index = bs.length ∧
      c.vol.super.unusedBlocks < c.sin.din.growth ∧ c'.sin = c.sin) := by
  rcases Nat.lt_or_eq_of_le reached with inside | rfl
  · left
    refine ⟨c, bs, sfsBmapLoadNolock_old sound mapped inside, .refl sound mapped, fun _ => rfl, ?_⟩
    exact (max_eq_left inside).symm
  · rcases sfsBmapLoadNolock_new sound mapped room with ⟨b, c', ran, appended, after⟩ | ⟨c', ran, refused⟩
    · left
      obtain ⟨grown, bytes⟩ := appended.grown mapped after
      refine ⟨c', bs ++ [b], ?_, grown, bytes, by simp⟩
      rw [ran, getD_concat, if_pos rfl]
    · right
      obtain ⟨grown, bytes⟩ := refused.grown mapped
      exact ⟨c', ran, grown, bytes, rfl, refused.full, refused.sin⟩

/-- The contents of a block of the file are written. -/
theorem Grown.write (grown : Grown c c' bs bs') (member : b ∈ bs') (data : Block) :
    Grown c (c'.setVol (c'.vol.write b data)) bs bs' := by
  have moved := Vol.Moved.write grown.sound b data
  have mapped : Mapped (c'.vol.write b data) c'.sin.din bs' := by
    apply grown.mapped.frame moved (fun _ _ => not_mem_nil)
    intro same
    rw [mem_singleton] at same
    apply grown.mapped.apart
    rw [same]
    exact member
  refine ⟨{ grown with sound := moved.sound, mapped := mapped, disk := ?_ }, grown.size, grown.longer, grown.late, grown.kept⟩
  intro t used outside
  have other : t ≠ b := by
    rintro rfl
    exact grown.apart used outside (mem_append_left _ member)
  change update c'.vol.disk b data t = _
  rw [update_of_ne other, grown.disk t used outside]

/-! ## Writing

The transfer has come from position `offset` to position `p`. -/

variable {s s' start : Io} {offset p endpos nblks : ℕ}

/-- The bytes from `offset` to `p` are those of the buffer, and the file has the blocks
for them. -/
structure Wrote (start s : Io) (bs bs' : List ℕ) (offset p : ℕ) : Prop where
  grown : Grown start.ctx s.ctx bs bs'
  mem : s.mem = start.mem
  alen : offset + s.alen = p
  length : bs'.length = max bs.length (roundupDiv p blkSize)
  bytes : ∀ x, byteOf s.ctx.vol bs' x =
    if offset ≤ x ∧ x < p then start.mem (x - offset) else byteOf start.ctx.vol bs x

theorem roundupDiv_le (n k : ℕ) : roundupDiv n blkSize ≤ k ↔ n ≤ blkSize * k := by
  unfold roundupDiv blkSize
  omega

/-- The disk was full at the end of the file, on the way to its `k`-th block. -/
structure Stuck (s : Io) (bs' : List ℕ) (p : ℕ) : Prop where
  place : p = blkSize * bs'.length
  full : s.ctx.vol.super.unusedBlocks < s.ctx.sin.din.growth

/-- One load and one write of `size` bytes at `p`, by `sfs_wbuf` or `sfs_wblock`. -/
theorem Wrote.step {blkno blkoff size : ℕ} (wrote : Wrote start s bs bs' offset p)
    (startSound : start.ctx.vol.Sound) (place : p = blkSize * blkno + blkoff) (nonempty : 0 < size)
    (fits : blkoff + size ≤ blkSize) (room : blkno < ndirect + blkNentry) :
    (∃ c bs'', sfsBmapLoadNolock blkno s.ctx = .ok (bs''.getD blkno 0) c ∧ c.vol.Sound ∧
      c.vol.InUse (bs''.getD blkno 0) ∧
      ∀ data : Block, (∀ i < blkSize, data i = if blkoff ≤ i ∧ i < blkoff + size
        then start.mem (s.alen + (i - blkoff)) else c.vol.disk (bs''.getD blkno 0) i) →
      Wrote start ((s.setCtx (c.setVol (c.vol.write (bs''.getD blkno 0) data))).setAlen (s.alen + size))
        bs bs'' offset (p + size)) ∨
    (∃ c, sfsBmapLoadNolock blkno s.ctx = .err (-eNoMem) c ∧
      Wrote start (s.setCtx c) bs bs' offset p ∧ Stuck (s.setCtx c) bs' p) := by
  have enough : p ≤ blkSize * bs'.length := by
    rw [← roundupDiv_le, wrote.length]
    exact le_max_right _ _
  have reached : blkno ≤ bs'.length := by
    unfold blkSize at *
    omega
  have mapped := wrote.grown.mapped
  rcases sfsBmapLoadNolock_cases wrote.grown.sound mapped reached room with
    ⟨c, bs'', ran, grown, bytes, length⟩ | ⟨c, ran, grown, bytes, last, full, same⟩
  · left
    have inside : blkno < bs''.length := by
      rw [length]
      exact (Nat.lt_succ_self blkno).trans_le (le_max_right _ _)
    refine ⟨c, bs'', ran, grown.sound, grown.mapped.nth inside, ?_⟩
    intro data written
    have upto := (wrote.grown.trans startSound grown).write (getD_mem inside) data
    refine ⟨upto, wrote.mem, ?_, ?_, ?_⟩
    · change offset + (s.alen + size) = p + size
      rw [← add_assoc, wrote.alen]
    · have before := wrote.length
      unfold roundupDiv blkSize at *
      omega
    · intro x
      have changed := byteOf_write (fun i => start.mem (s.alen + i)) grown.mapped inside fits written x
      change byteOf (c.vol.write _ data) bs'' x = _
      rw [changed, bytes, wrote.bytes, ← place]
      have alen := wrote.alen
      by_cases here : p ≤ x ∧ x < p + size
      · rw [if_pos here, if_pos (by omega)]
        congr 1
        omega
      · rw [if_neg here]
        by_cases earlier : offset ≤ x ∧ x < p
        · rw [if_pos earlier, if_pos (by omega)]
        · rw [if_neg earlier, if_neg (by omega)]
  · right
    refine ⟨c, ran, { wrote with grown := wrote.grown.trans startSound grown, bytes := ?_ }, ?_, ?_⟩
    · intro x
      exact (bytes x).trans (wrote.bytes x)
    · unfold blkSize at *
      omega
    · have count := grown.unused
      change c.vol.super.unusedBlocks < c.sin.din.growth
      rw [same] at count ⊢
      omega

theorem onCtx_ok {m : Kernel Fault Ctx α} {a : α} (ran : m s.ctx = .ok a c) :
    onCtx m s = .ok a (s.setCtx c) := zoom_ok ran

theorem onCtx_err {m : Kernel Fault Ctx α} {e : ℤ} (ran : m s.ctx = .err e c) :
    onCtx m s = .err e (s.setCtx c) := zoom_err ran

/-! ## The pieces of a transfer

Whatever a piece and a whole block carry on from one position to the next, the whole
transfer carries on from `offset` to `endpos`. -/

section Pieces

variable {write : Bool} {I : ℕ → Io → Prop} {E : ℤ → Io → Prop} {B : Fault → Prop}

theorem sfsBufOp_write {s : Io} {blkoff : ℕ}
    (ran : sfsWbuf (fun i => s.mem (s.alen + i)) size b blkoff s.ctx.vol = .ok () v) :
    sfsBufOp true size b blkoff s = .ok () (s.setCtx (s.ctx.setVol v)) := by
  rw [sfsBufOp, get_bind_run, if_pos rfl]
  exact onCtx_ok (onVol_ok ran)

theorem sfsBlockOp_write {s : Io}
    (ran : sfsWblock (fun i => s.mem (s.alen + i)) b 1 s.ctx.vol = .ok () v) :
    sfsBlockOp true b s = .ok () (s.setCtx (s.ctx.setVol v)) := by
  rw [sfsBlockOp, get_bind_run, if_pos rfl]
  exact onCtx_ok (onVol_ok ran)

/-- A piece inside a block carries `I` on. -/
def PieceMoves (write : Bool) (endpos : ℕ) (I : ℕ → Io → Prop) (E : ℤ → Io → Prop) (B : Fault → Prop) :
    Prop :=
  ∀ s blkno blkoff size, I (blkSize * blkno + blkoff) s → 0 < size → blkoff + size ≤ blkSize →
    blkSize * blkno + blkoff + size ≤ endpos →
    (ioPiece write blkno blkoff size s).Ends (fun _ => I (blkSize * blkno + blkoff + size)) E B

/-- A whole block carries `I` on. -/
def BlockMoves (write : Bool) (endpos : ℕ) (I : ℕ → Io → Prop) (E : ℤ → Io → Prop) (B : Fault → Prop) :
    Prop :=
  ∀ s blkno, I (blkSize * blkno) s → blkSize * (blkno + 1) ≤ endpos →
    (ioBlock write blkno s).Ends (fun _ => I (blkSize * (blkno + 1))) E B

variable (piece : PieceMoves write endpos I E B) (block : BlockMoves write endpos I E B)
include block

theorem ioBlocks_ends (here : I (blkSize * blkno) s) (fits : blkSize * (blkno + nblks) ≤ endpos) :
    (ioBlocks write blkno nblks s).Ends (fun _ => I (blkSize * (blkno + nblks))) E B := by
  induction nblks generalizing s blkno with
  | zero => exact here
  | succ nblks ih =>
    rw [ioBlocks]
    have shift : blkno + (nblks + 1) = blkno + 1 + nblks := by omega
    rw [shift] at fits ⊢
    apply Ends.bind (block s blkno here ?_)
    · intro _ t there
      exact ih there fits
    · exact (Nat.mul_le_mul_left blkSize (Nat.le_add_right _ _)).trans fits

include piece

theorem ioRest_ends (here : I (blkSize * blkno) s) (last : blkno + nblks = endpos / blkSize) :
    (ioRest write blkno nblks endpos s).Ends (fun _ => I endpos) E B := by
  have parts := Nat.div_add_mod endpos blkSize
  rw [ioRest]
  apply Ends.bind (ioBlocks_ends block here (by rw [last]; omega))
  intro _ t there
  rw [last] at there ⊢
  by_cases tail : endpos % blkSize ≠ 0
  · rw [if_pos tail]
    have done := piece t (endpos / blkSize) 0 (endpos % blkSize) there (by omega)
      (by rw [zero_add]; exact (Nat.mod_lt _ (by decide)).le) (by omega)
    rwa [add_zero, parts] at done
  · rw [if_neg tail]
    have whole : blkSize * (endpos / blkSize) = endpos := by omega
    rw [whole] at there
    exact there

theorem ioTransfer_ends (here : I offset s) (order : offset < endpos) :
    (ioTransfer write offset endpos s).Ends (fun _ => I endpos) E B := by
  have parts := Nat.div_add_mod offset blkSize
  have ends := Nat.div_add_mod endpos blkSize
  have low : offset % blkSize < blkSize := Nat.mod_lt _ (by decide)
  have high : endpos % blkSize < blkSize := Nat.mod_lt _ (by decide)
  have blocks : offset / blkSize ≤ endpos / blkSize := Nat.div_le_div_right order.le
  unfold ioTransfer
  by_cases head : offset % blkSize ≠ 0
  · rw [if_pos head]
    by_cases more : endpos / blkSize - offset / blkSize ≠ 0
    · rw [if_pos more]
      -- the first piece ends where the next block begins
      have next : blkSize * (offset / blkSize + 1) ≤ blkSize * (endpos / blkSize) :=
        Nat.mul_le_mul_left blkSize (by omega)
      have edge : offset + (blkSize - offset % blkSize) = blkSize * (offset / blkSize + 1) := by
        rw [Nat.mul_succ]
        omega
      rw [← parts] at here
      have first := piece s (offset / blkSize) (offset % blkSize) (blkSize - offset % blkSize) here
        (by omega) (by omega) (by rw [parts, edge]; omega)
      rw [parts, edge] at first
      apply Ends.bind first
      intro _ t there
      exact ioRest_ends piece block there (by omega)
    · rw [if_neg more]
      have same : endpos / blkSize = offset / blkSize := by omega
      rw [same] at ends
      rw [← parts] at here
      have only := piece s (offset / blkSize) (offset % blkSize) (endpos - offset) here
        (by omega) (by omega) (by omega)
      rwa [parts, Nat.add_sub_of_le order.le] at only
  · rw [if_neg head]
    have whole : blkSize * (offset / blkSize) = offset := by omega
    rw [← whole] at here
    exact ioRest_ends piece block here (by omega)

end Pieces

/-! ## What a write does -/

/-- The write has come to `p`. -/
def WroteTo (start : Io) (bs : List ℕ) (offset p : ℕ) (s : Io) : Prop :=
  ∃ bs', Wrote start s bs bs' offset p

/-- The write was stopped before `endpos` because the disk is full. -/
def WroteShort (start : Io) (bs : List ℕ) (offset endpos : ℕ) (e : ℤ) (s : Io) : Prop :=
  e = -eNoMem ∧ ∃ bs' p, Wrote start s bs bs' offset p ∧ Stuck s bs' p ∧ p < endpos

section Writing

variable (startSound : start.ctx.vol.Sound) (room : endpos ≤ blkSize * (ndirect + blkNentry))
include startSound room

theorem pieceMoves_write : PieceMoves true endpos (WroteTo start bs offset)
    (WroteShort start bs offset endpos) (fun _ => False) := by
  rintro s blkno blkoff size ⟨bs', wrote⟩ nonempty fits inside
  have below : blkno < ndirect + blkNentry := by
    unfold blkSize at *
    omega
  rcases wrote.step startSound rfl nonempty fits below with ⟨c, bs'', ran, sound, used, next⟩ | ⟨c, ran, same, stuck⟩
  · have write := @sfsWbuf_run c.vol (bs''.getD blkno 0) blkoff size (fun i => s.mem (s.alen + i))
      sound.device used.1 (by omega) fits
    rw [ioPiece, bind_ok (onCtx_ok ran), bind_ok (sfsBufOp_write write)]
    refine ⟨bs'', next _ ?_⟩
    intro i _
    rw [copy, wrote.mem]
  · rw [ioPiece, bind_err (onCtx_err ran)]
    exact ⟨rfl, bs', _, same, stuck, by omega⟩

theorem blockMoves_write : BlockMoves true endpos (WroteTo start bs offset)
    (WroteShort start bs offset endpos) (fun _ => False) := by
  rintro s blkno ⟨bs', wrote⟩ inside
  have below : blkno < ndirect + blkNentry := by
    unfold blkSize at *
    omega
  rcases wrote.step startSound (add_zero _).symm (by decide) (Nat.zero_add blkSize).le below with
    ⟨c, bs'', ran, sound, used, next⟩ | ⟨c, ran, same, stuck⟩
  · have write := @sfsWblock_run c.vol (bs''.getD blkno 0) (fun i => s.mem (s.alen + i)) sound.device used.1
    rw [ioBlock, bind_ok (onCtx_ok ran), bind_ok (sfsBlockOp_write write)]
    refine ⟨bs'', ?_⟩
    rw [Nat.mul_succ]
    apply next
    intro i within
    rw [if_pos ⟨Nat.zero_le i, by omega⟩, wrote.mem, Nat.sub_zero]
  · rw [ioBlock, bind_err (onCtx_err ran)]
    refine ⟨rfl, bs', _, same, stuck, ?_⟩
    unfold blkSize at *
    omega

/-- A write of the bytes from `offset` to `endpos`. -/
theorem ioTransfer_write (mapped : Mapped start.ctx.vol start.ctx.sin.din bs) (zero : start.alen = 0)
    (order : offset < endpos) (reached : offset ≤ blkSize * bs.length) :
    (ioTransfer true offset endpos start).Ends (fun _ => WroteTo start bs offset endpos)
      (WroteShort start bs offset endpos) (fun _ => False) := by
  apply ioTransfer_ends (pieceMoves_write startSound room) (blockMoves_write startSound room) _ order
  refine ⟨bs, .refl startSound mapped, rfl, by rw [zero, add_zero], ?_, ?_⟩
  · exact (max_eq_left ((roundupDiv_le _ _).mpr reached)).symm
  · intro x
    rw [if_neg (by omega)]

end Writing

/-! ## What a read does -/

/-- The read has come to `p`: the buffer holds the bytes of the file. -/
structure ReadTo (start : Io) (bs : List ℕ) (offset p : ℕ) (s : Io) : Prop where
  ctx : s.ctx = start.ctx
  alen : offset + s.alen = p
  mem : ∀ i, s.mem i = if i < s.alen then byteOf start.ctx.vol bs (offset + i) else start.mem i

theorem ReadTo.next {size : ℕ} {data : Block} (read : ReadTo start bs offset p s)
    (bytes : ∀ i < size, data i = byteOf start.ctx.vol bs (p + i)) :
    ReadTo start bs offset (p + size) ((s.setMem (copy s.mem s.alen data size)).setAlen (s.alen + size)) := by
  have alen := read.alen
  refine ⟨read.ctx, by change offset + (s.alen + size) = _; omega, ?_⟩
  intro i
  change copy s.mem s.alen data size i = if i < s.alen + size then _ else _
  rw [copy, read.mem]
  by_cases earlier : i < s.alen
  · rw [if_neg (by omega), if_pos earlier, if_pos (by omega)]
  · by_cases here : i < s.alen + size
    · rw [if_pos (by omega), if_pos here, bytes _ (by omega)]
      congr 1
      omega
    · rw [if_neg (by omega), if_neg earlier, if_neg here]

section Reading

variable (sound : start.ctx.vol.Sound) (mapped : Mapped start.ctx.vol start.ctx.sin.din bs)
include sound mapped

theorem ReadTo.load (read : ReadTo start bs offset p s) (below : blkno < bs.length) :
    sfsBmapLoadNolock blkno s.ctx = .ok (bs.getD blkno 0) s.ctx := by
  rw [read.ctx]
  exact sfsBmapLoadNolock_old sound mapped below

variable (held : endpos ≤ blkSize * bs.length)
include held

theorem pieceMoves_read : PieceMoves false endpos (ReadTo start bs offset) (fun _ _ => False)
    (fun _ => False) := by
  intro s blkno blkoff size read nonempty fits inside
  have below : blkno < bs.length := by
    unfold blkSize at *
    omega
  have ran := read.load sound mapped below
  have used := mapped.nth below
  have fetch : sfsRbuf size (bs.getD blkno 0) blkoff s.ctx.vol =
      .ok (fun i => start.ctx.vol.disk (bs.getD blkno 0) (blkoff + i)) s.ctx.vol := by
    rw [read.ctx]
    exact sfsRbuf_run sound.device used.1 (by omega) fits
  have op : sfsBufOp false size (bs.getD blkno 0) blkoff s = .ok ()
      (s.setMem (copy s.mem s.alen (fun i => start.ctx.vol.disk (bs.getD blkno 0) (blkoff + i)) size)) := by
    rw [sfsBufOp, get_bind_run, if_neg (by decide), bind_ok (onCtx_ok (onVol_ok fetch))]
    rfl
  rw [ioPiece, bind_ok (onCtx_ok ran)]
  change (Bind.bind (sfsBufOp false size (bs.getD blkno 0) blkoff) _ s).Ends _ _ _
  rw [bind_ok op]
  apply read.next
  intro i within
  have block : (blkSize * blkno + blkoff + i) / blkSize = blkno := by
    unfold blkSize at *
    omega
  have rest : (blkSize * blkno + blkoff + i) % blkSize = blkoff + i := by
    unfold blkSize at *
    omega
  rw [byteOf, block, rest, if_pos below]

theorem blockMoves_read : BlockMoves false endpos (ReadTo start bs offset) (fun _ _ => False)
    (fun _ => False) := by
  intro s blkno read inside
  have below : blkno < bs.length := by
    unfold blkSize at *
    omega
  have ran := read.load sound mapped below
  have used := mapped.nth below
  obtain ⟨data, fetched, bytes⟩ := sfsRblock_run sound.device used.1
  have fetch : sfsRblock (fun i => s.mem (s.alen + i)) (bs.getD blkno 0) 1 s.ctx.vol =
      .ok data s.ctx.vol := by
    rw [read.ctx]
    exact fetched
  have op : sfsBlockOp false (bs.getD blkno 0) s = .ok () (s.setMem (copy s.mem s.alen data blkSize)) := by
    rw [sfsBlockOp, get_bind_run, if_neg (by decide), bind_ok (onCtx_ok (onVol_ok fetch))]
    rfl
  rw [ioBlock, bind_ok (onCtx_ok ran)]
  change (Bind.bind (sfsBlockOp false (bs.getD blkno 0)) _ s).Ends _ _ _
  rw [bind_ok op, Nat.mul_succ]
  apply read.next
  intro i within
  have block : (blkSize * blkno + i) / blkSize = blkno := by
    unfold blkSize at *
    omega
  have rest : (blkSize * blkno + i) % blkSize = i := by
    unfold blkSize at *
    omega
  rw [byteOf, block, rest, if_pos below, bytes i within]

/-- A read of the bytes from `offset` to `endpos`. -/
theorem ioTransfer_read (zero : start.alen = 0) (order : offset < endpos) :
    (ioTransfer false offset endpos start).Ends (fun _ => ReadTo start bs offset endpos)
      (fun _ _ => False) (fun _ => False) := by
  apply ioTransfer_ends (pieceMoves_read sound mapped held) (blockMoves_read sound mapped held) _ order
  refine ⟨rfl, by rw [zero, add_zero], ?_⟩
  intro i
  rw [zero, if_neg (by omega)]

end Reading

/-! ## What a truncation does -/

/-- The loop that enlarges a file adds zeroed blocks until the disk is full. -/
theorem truncGrow_ends {more : ℕ} (sound : c.vol.Sound) (mapped : Mapped c.vol c.sin.din bs)
    (room : bs.length + more ≤ ndirect + blkNentry) :
    (truncGrow bs.length more c).Ends
      (fun _ c' => ∃ bs', Grown c c' bs bs' ∧ bs'.length = bs.length + more ∧
        ∀ x, byteOf c'.vol bs' x = byteOf c.vol bs x)
      (fun e c' => e = -eNoMem ∧ ∃ bs', Grown c c' bs bs' ∧ bs'.length < bs.length + more ∧
        (∀ x, byteOf c'.vol bs' x = byteOf c.vol bs x) ∧ c'.vol.super.unusedBlocks < c'.sin.din.growth)
      (fun _ => False) := by
  induction more generalizing c bs with
  | zero => exact ⟨bs, .refl sound mapped, rfl, fun _ => rfl⟩
  | succ more ih =>
    rw [truncGrow]
    rcases sfsBmapLoadNolock_cases sound mapped le_rfl (by omega) with
      ⟨c', bs', ran, grown, bytes, length⟩ | ⟨c', ran, grown, bytes, -, full, same⟩
    · have one : bs'.length = bs.length + 1 := by
        rw [length]
        exact max_eq_right (Nat.le_succ _)
      rw [bind_ok ran, ← one]
      apply Ends.imp (ih grown.sound grown.mapped (by omega))
      · rintro - c'' ⟨bs'', further, count, same⟩
        exact ⟨bs'', grown.trans sound further, by omega, fun x => (same x).trans (bytes x)⟩
      · rintro e c'' ⟨code, bs'', further, count, same, full⟩
        exact ⟨code, bs'', grown.trans sound further, by omega, fun x => (same x).trans (bytes x), full⟩
      · intro _ never
        exact never
    · rw [bind_err ran]
      refine ⟨rfl, bs, grown, by omega, bytes, ?_⟩
      have count := grown.unused
      rw [same] at count ⊢
      omega

/-- A file that lost its last block. -/
theorem Dropped.reshaped (before : Mapped c.vol c.sin.din (bs ++ [b])) (dropped : Dropped c c' bs b) :
    Reshaped c c' (bs ++ [b]) bs := by
  have moved := dropped.moved
  have held : ∀ t, t ∈ c.sin.din.holds (bs ++ [b]) ↔ t ∈ c'.sin.din.holds bs ∨ t = b := by
    intro t
    simp only [DiskInode.holds, dropped.indirect, mem_append, mem_singleton]
    tauto
  have gone : b ∉ c'.sin.din.holds bs := by
    obtain ⟨-, apart, other⟩ := before.last
    rw [DiskInode.holds, dropped.indirect, mem_append, not_or]
    refine ⟨apart, ?_⟩
    by_cases none : c.sin.din.indirect = 0
    · rw [if_pos none]
      exact not_mem_nil
    · rw [if_neg none, mem_singleton]
      exact other
  refine ⟨moved.sound, dropped.mapped, moved.blocks, ?_, ?_, ?_, ?_, dropped.type, dropped.nlinks,
    dropped.ino⟩
  · have count := moved.unused
    rw [holds_length, holds_length, dropped.indirect, length_append]
    simp only [length_cons, length_nil] at *
    omega
  · intro t
    rw [moved.inUse, held]
    have used := before.used t
    rw [held] at used
    have apart : t = b → t ∉ c'.sin.din.holds bs := by
      rintro rfl
      exact gone
    simp only [mem_singleton, not_mem_nil, or_false]
    tauto
  · intro t inside
    exact .inl ((held t).mpr (.inl inside))
  · intro t used outside
    apply moved.disk t used
    rw [mem_singleton]
    rintro rfl
    apply outside
    rw [DiskInode.holds, if_neg used.1.1]
    exact mem_append_right _ (mem_singleton_self _)

/-- The loop that reduces a file keeps the first blocks. -/
theorem truncShrink_run {less : ℕ} (sound : c.vol.Sound) (mapped : Mapped c.vol c.sin.din bs)
    (enough : less ≤ bs.length) :
    ∃ c' bs', truncShrink less c = .ok () c' ∧ Reshaped c c' bs bs' ∧ bs'.length = bs.length - less ∧
      c'.sin.din.size = c.sin.din.size := by
  induction less generalizing c bs with
  | zero => exact ⟨c, bs, rfl, .refl sound mapped, rfl, rfl⟩
  | succ less ih =>
    have nonempty : bs ≠ [] := by
      rintro rfl
      simp at enough
    obtain ⟨init, b, rfl⟩ : ∃ init b, bs = init ++ [b] :=
      ⟨bs.dropLast, bs.getLast nonempty, (dropLast_append_getLast nonempty).symm⟩
    rw [length_append, length_singleton] at enough
    obtain ⟨c', ran, dropped⟩ := sfsBmapTruncateNolock_run mapped sound
    have first := dropped.reshaped mapped
    obtain ⟨c'', bs', rest, reshaped, length, size⟩ := ih first.sound dropped.mapped (by omega)
    refine ⟨c'', bs', ?_, first.trans sound reshaped, ?_, size.trans dropped.size⟩
    · rw [truncShrink, bind_ok ran, rest]
    · rw [length, length_append, length_singleton]
      omega

end LiNos.Fs
