import LiNos.SfsBmap

/-!
What `sfs_bmap_get_nolock` leaves behind when it fails.

The device may refuse any request, and nothing is assumed of the volume: `Less` says which
bits of the free map are gone, and the count with them. The cleanup of the block map gives
everything back that was handed to it. What is lost is the block that `sfs_block_alloc` has
marked when the device refuses to clear it, since nobody is told its number
(`bmap_get_all_or_nothing_iff`).
-/

namespace LiNos.Fs

open Kernel LittleEndian Function List

variable {v w w' : Vol} {b ent entp index : ℕ} {taken more : List ℕ} {c c' : Ctx} {buf : Block}

/-! ## Blocks that are gone -/

namespace Vol

/-- The free map and the count of `w` are those of `v` without the blocks `taken`. -/
structure Less (v w : Vol) (taken : List ℕ) : Prop where
  nbits : w.freemap.nbits = v.freemap.nbits
  blocks : w.super.blocks = v.super.blocks
  bits : ∀ i, w.freemap.bit i = true ↔ v.freemap.bit i = true ∧ i ∉ taken
  free : ∀ i ∈ taken, v.freemap.bit i = true
  distinct : taken.Nodup
  unused : w.super.unusedBlocks + taken.length = v.super.unusedBlocks

theorem Less.refl (v : Vol) : v.Less v [] := ⟨rfl, rfl, by simp, by simp, nodup_nil, rfl⟩

theorem Less.congr (less : v.Less w taken) (freemap : w'.freemap = w.freemap)
    (super : w'.super = w.super) : v.Less w' taken := by
  obtain ⟨nbits, blocks, bits, free, distinct, unused⟩ := less
  rw [← freemap] at nbits bits
  rw [← super] at blocks unused
  exact ⟨nbits, blocks, bits, free, distinct, unused⟩

theorem Less.valid_iff (less : v.Less w taken) : w.Valid b ↔ v.Valid b := by
  unfold Valid
  rw [less.blocks]

/-- The answer of the device to the next request, and the volume once it is given. -/
def answer (v : Vol) : ℤ := v.outcomes.headD 0
def asked (v : Vol) : Vol := { v with outcomes := v.outcomes.tail }

/-- The volume between the two assertions of `sfs_block_alloc`. -/
def marked (v : Vol) (freemap : Bitmap) : Vol :=
  { v with freemap := freemap }.setUnused (v.super.unusedBlocks - 1)

/-- `sfs_block_alloc` finds a block, and the device refuses to clear it. -/
def ClearFails (v : Vol) : Prop :=
  ∃ b freemap, bitmapAlloc v.freemap = .ok b freemap ∧ 0 < v.super.unusedBlocks ∧
    (v.Valid b ∧ b < v.freemap.nbits) ∧ v.answer ≠ 0

end Vol

theorem dopIo_run (v : Vol) : dopIo v = if v.answer = 0 then .ok () v.asked else .err v.answer v.asked := by
  obtain ⟨super, dirty, freemap, disk, outcomes⟩ := v
  cases outcomes <;> rfl

/-- A transfer leaves the free map and the super block alone. -/
theorem sfsRwblockNolock_ends {write : Bool} :
    (sfsRwblockNolock buf b write true w).Ends
      (fun data w' => w.Valid b ∧ w.answer = 0 ∧ data = (if write then buf else w.disk b) ∧
        w' = if write then w.asked.write b buf else w.asked)
      (fun _ w' => w.answer ≠ 0 ∧ w' = w.asked) (fun _ => ¬ w.Valid b) := by
  rw [sfsRwblockNolock, get_bind_run]
  by_cases valid : w.Valid b
  · rw [require_bind_run ⟨.inl valid.1, valid.2⟩]
    by_cases accepted : w.answer = 0
    · rw [bind_ok ((dopIo_run w).trans (if_pos accepted))]
      cases write <;> exact ⟨valid, accepted, rfl, rfl⟩
    · rw [bind_err ((dopIo_run w).trans (if_neg accepted))]
      exact ⟨accepted, rfl⟩
  · rw [require_bind_fault fun holds => valid ⟨by simpa using holds.1, holds.2⟩]
    exact valid

theorem sfsBlockInuse_ends (w : Vol) (b : ℕ) : (sfsBlockInuse b w).Ends
    (fun inuse w' => w' = w ∧ (w.Valid b ∧ b < w.freemap.nbits) ∧ inuse = !w.freemap.bit b)
    (fun _ _ => False) (fun _ => ¬ (w.Valid b ∧ b < w.freemap.nbits)) := by
  by_cases valid : w.Valid b
  · by_cases below : b < w.freemap.nbits
    · rw [sfsBlockInuse_run valid below]
      exact ⟨rfl, ⟨valid, below⟩, rfl⟩
    · have outside : bitmapTest b w.freemap = .fault .assertion := by
        rw [bitmapTest, get_bind_run]
        exact require_bind_fault below _ _ _
      have tested : onFreemap (bitmapTest b) w = .fault .assertion := zoom_fault outside
      rw [sfsBlockInuse, get_bind_run, if_pos ⟨valid.1, valid.2⟩, bind_fault tested]
      exact fun both => below both.2
  · rw [sfsBlockInuse, get_bind_run, if_neg fun holds => valid ⟨holds.1, holds.2⟩]
    exact fun both => valid both.1

/-- `sfs_block_alloc` takes a block, or none, unless the clearing fails. -/
theorem sfsBlockAlloc_less (less : v.Less w taken) : (sfsBlockAlloc w).Ends
    (fun b w' => v.Less w' (b :: taken) ∧ (v.Valid b ∧ b < v.freemap.nbits) ∧ ¬ w.ClearFails)
    (fun _ w' => v.Less w' taken ∧ ¬ w.ClearFails ∨ w.ClearFails ∧ ∃ b, v.Less w' (b :: taken))
    (fun _ => ¬ w.ClearFails) := by
  rcases bitmapAlloc_cases w.freemap with ⟨b, freemap, ran, -, set, -, nbits, -, bits⟩ | ⟨ran, -⟩
  · obtain ⟨was, new⟩ := (less.bits b).mp set
    have only : w.ClearFails → 0 < w.super.unusedBlocks ∧ (w.Valid b ∧ b < w.freemap.nbits) ∧ w.answer ≠ 0 := by
      rintro ⟨b', freemap', found, fails⟩
      cases ran.symm.trans found
      exact fails
    have taken₁ : onFreemap bitmapAlloc w = .ok b { w with freemap := freemap } := zoom_ok ran
    rw [sfsBlockAlloc, bind_ok taken₁, get_bind_run]
    by_cases counted : 0 < w.super.unusedBlocks
    · rw [require_bind_run counted, modify_bind_run]
      have fewer : v.Less (w.marked freemap) (b :: taken) := by
        refine ⟨nbits.trans less.nbits, less.blocks, ?_, ?_, nodup_cons.mpr ⟨new, less.distinct⟩, ?_⟩
        · intro i
          change freemap.bit i = true ↔ _
          rw [bits]
          by_cases same : i = b
          · simp [same]
          · simp [same, less.bits i]
        · intro i member
          rcases mem_cons.mp member with rfl | old
          · exact was
          · exact less.free i old
        · have count := less.unused
          change w.super.unusedBlocks - 1 + (taken.length + 1) = _
          omega
      apply Ends.bind (Ends.imp (sfsBlockInuse_ends (w.marked freemap) b) (fun _ _ inuse => inuse) (fun _ _ never => never.elim) ?_)
      · rintro inuse _ ⟨rfl, inside, rfl⟩
        have passes : (!(w.marked freemap).freemap.bit b) = true := by
          change (!freemap.bit b) = true
          rw [bits, if_pos rfl]
          rfl
        have inside : w.Valid b ∧ b < w.freemap.nbits := ⟨inside.1, nbits ▸ inside.2⟩
        have outside : v.Valid b ∧ b < v.freemap.nbits := ⟨less.valid_iff.mp inside.1, less.nbits ▸ inside.2⟩
        rw [require_bind_run passes]
        refine Ends.bind (Q := fun _ w' => v.Less w' (b :: taken) ∧ w.answer = 0) (Ends.bind (Ends.imp
          sfsRwblockNolock_ends (fun _ _ done => done) ?_ ?_) ?_) ?_
        · rintro _ _ ⟨refused, rfl⟩
          exact .inr ⟨⟨b, freemap, ran, counted, inside, refused⟩, b, fewer.congr rfl rfl⟩
        · exact fun _ invalid => absurd inside.1 invalid
        · rintro _ _ ⟨-, accepted, -, rfl⟩
          exact ⟨fewer.congr rfl rfl, accepted⟩
        · rintro _ _ ⟨less₁, accepted⟩
          exact ⟨less₁, outside, fun fails => (only fails).2.2 accepted⟩
      · exact fun _ invalid fails => invalid ⟨(only fails).2.1.1, nbits.symm ▸ (only fails).2.1.2⟩
    · rw [require_bind_fault counted]
      exact fun fails => counted (only fails).1
  · have failed : onFreemap bitmapAlloc w = .err (-eNoMem) w := zoom_err ran
    rw [sfsBlockAlloc, bind_err failed]
    refine .inl ⟨less, ?_⟩
    rintro ⟨b, freemap, found, -⟩
    cases ran.symm.trans found

theorem sfsBlockFree_less (less : v.Less w taken) (member : b ∈ taken)
    (inside : v.Valid b ∧ b < v.freemap.nbits) :
    ∃ w', sfsBlockFree b w = .ok () w' ∧ v.Less w' (taken.erase b) := by
  have used : w.freemap.bit b = false := by
    rw [← Bool.not_eq_true, less.bits]
    exact fun free => free.2 member
  obtain ⟨w', ran, gave⟩ :=
    sfsBlockFree_gives (less.valid_iff.mpr inside.1) (less.nbits ▸ inside.2) used
  refine ⟨w', ran, gave.nbits.trans less.nbits, by rw [gave.super, less.blocks], ?_,
    fun i old => less.free i (mem_of_mem_erase old), less.distinct.erase b, ?_⟩
  · intro i
    rw [gave.bits, less.distinct.mem_erase_iff]
    by_cases same : i = b
    · simp [same, less.free b member]
    · simp [same, less.bits i]
  · have count := less.unused
    have some : 0 < taken.length := length_pos_of_mem member
    rw [length_erase_of_mem member, gave.super]
    dsimp only
    omega

/-! ## The indirect block -/

/-- What was taken for the entry block `ent`, which is new if it is not `entp`. -/
def Fresh (v : Vol) (entp ent : ℕ) (taken : List ℕ) : Prop :=
  if ent ≠ entp then taken = [ent] ∧ v.Valid ent ∧ ent < v.freemap.nbits else taken = []

theorem cleanupEntry_less (fresh : Fresh v entp ent taken) (less : v.Less w (more ++ taken)) :
    ∃ w', cleanupEntry entp ent w = .ok () w' ∧ v.Less w' more := by
  unfold Fresh at fresh
  unfold cleanupEntry
  by_cases new : ent ≠ entp
  · rw [if_pos new] at fresh ⊢
    obtain ⟨rfl, inside⟩ := fresh
    obtain ⟨w', ran, after⟩ := sfsBlockFree_less less (mem_append_right _ (mem_singleton_self ent)) inside
    have apart : ent ∉ more := fun member =>
      (nodup_append.mp less.distinct).2.2 ent member ent (mem_singleton_self ent) rfl
    refine ⟨w', ran, ?_⟩
    simpa [erase_append_right _ apart] using after
  · rw [if_neg new] at fresh ⊢
    subst fresh
    exact ⟨w, rfl, by simpa using less⟩

/-- How a failed call leaves the volume. -/
def Undone (v w : Vol) (fails : Prop) : Prop := v.Less w [] ∧ ¬ fails ∨ fails ∧ ∃ b, v.Less w [b]

theorem sfsWbuf_ends {len offset : ℕ} : (sfsWbuf buf len b offset w).Ends
    (fun _ w' => w'.freemap = w.freemap ∧ w'.super = w.super ∧
      w'.disk b = copy (w.disk b) offset buf len)
    (fun _ w' => w'.freemap = w.freemap ∧ w'.super = w.super) (fun _ => True) := by
  refine Ends.bind (Q := fun _ t => t = w) (ends_require (fun _ => rfl) fun _ => trivial) ?_
  rintro _ _ rfl
  apply Ends.bind (Ends.imp sfsRwblockNolock_ends (fun _ _ done => done) ?_ fun _ _ => trivial)
  · rintro data _ ⟨-, -, rfl, rfl⟩
    apply Ends.bind (Ends.imp sfsRwblockNolock_ends (fun _ _ done => done) ?_ fun _ _ => trivial)
    · rintro _ _ ⟨-, -, -, rfl⟩
      exact ⟨rfl, rfl, update_self ..⟩
    · rintro _ _ ⟨-, rfl⟩
      exact ⟨rfl, rfl⟩
  · rintro _ _ ⟨-, rfl⟩
    exact ⟨rfl, rfl⟩

theorem takeEntry_less (width : v.super.blocks ≤ 2 ^ 32) (fresh : Fresh v entp ent taken)
    (less : v.Less w taken) : (takeEntry entp ent index w).Ends
      (fun found w' => found.1 = ent ∧ found.2 ≠ 0 ∧ v.Less w' (found.2 :: taken) ∧
        getLE (w'.disk ent) (4 * index) 4 = found.2 ∧ ¬ w.ClearFails)
      (fun _ w' => Undone v w' w.ClearFails) (fun _ => ¬ w.ClearFails) := by
  refine Ends.attempt_bind (sfsBlockAlloc_less less) ?_ ?_
  · rintro b t ⟨less₁, inside, clear⟩
    apply Ends.attempt_bind (Ends.imp sfsWbuf_ends (fun _ _ after => after) (fun _ _ after => after)
      fun _ _ => clear)
    · rintro _ u ⟨freemap, super, disk⟩
      refine ⟨rfl, inside.1.1, less₁.congr freemap super, ?_, clear⟩
      rw [disk, getLE_copy_bytesLE (inside.1.2.trans_le width)]
    · rintro e u ⟨freemap, super⟩
      obtain ⟨t₁, freed, less₂⟩ := sfsBlockFree_less (less₁.congr freemap super) mem_cons_self inside
      rw [erase_cons_head] at less₂
      obtain ⟨t₂, cleaned, less₃⟩ := @cleanupEntry_less v t₁ ent entp taken [] fresh less₂
      dsimp only
      rw [bind_ok freed, bind_ok cleaned]
      exact .inl ⟨less₃, clear⟩
  · intro e t failed
    dsimp only
    rcases failed with ⟨less₁, clear⟩ | ⟨fails, b, less₁⟩
    · obtain ⟨t₁, cleaned, less₂⟩ := @cleanupEntry_less v t ent entp taken [] fresh less₁
      rw [bind_ok cleaned]
      exact .inl ⟨less₂, clear⟩
    · obtain ⟨t₁, cleaned, less₂⟩ := @cleanupEntry_less v t ent entp taken [b] fresh less₁
      rw [bind_ok cleaned]
      exact .inr ⟨fails, b, less₂⟩

/-- Where the clearing of a block fails: for a new indirect block, or for the data block that
its entry has no block for. -/
def EntryFails (v : Vol) (entp index : ℕ) : Prop :=
  if entp = 0 then v.ClearFails ∨ ∃ ent w, sfsBlockAlloc v = .ok ent w ∧ w.ClearFails
  else v.Valid entp ∧ v.answer = 0 ∧ getLE (v.disk entp) (4 * index) 4 = 0 ∧ v.asked.ClearFails

/-- What is found or made: the entry is in the indirect block, and no more than the two was
taken. -/
structure EntryFound (v w : Vol) (entp index : ℕ) (found : ℕ × ℕ) : Prop where
  kept : entp ≠ 0 → found.1 = entp
  made : found.1 ≠ 0
  nonzero : found.2 ≠ 0
  entry : getLE (w.disk found.1) (4 * index) 4 = found.2
  less : ∃ taken, taken ⊆ [found.2, found.1] ∧ v.Less w taken

theorem sfsBmapGetSubNolock_less (width : v.super.blocks ≤ 2 ^ 32) (inside : index < blkNentry) :
    (sfsBmapGetSubNolock entp index true v).Ends
      (fun found w => EntryFound v w entp index found ∧ ¬ EntryFails v entp index)
      (fun _ w => Undone v w (EntryFails v entp index)) (fun _ => ¬ EntryFails v entp index) := by
  have within := entry_within inside
  by_cases none : entp = 0
  · subst none
    have block := sfsBlockAlloc_less (Vol.Less.refl v)
    have start : sfsBmapGetSubNolock 0 index true v = (sfsBlockAlloc >>= fun ent => takeEntry 0 ent index) v := by
      rw [sfsBmapGetSubNolock, require_bind_run inside, if_neg (by simp), if_neg (by simp)]
    have fails_iff : EntryFails v 0 index ↔ v.ClearFails ∨ ∃ ent w, sfsBlockAlloc v = .ok ent w ∧
        w.ClearFails := by rw [EntryFails, if_pos rfl]
    rw [start]
    cases ran : sfsBlockAlloc v with
    | ok ent w =>
      rw [ran] at block
      obtain ⟨less, inside, clear⟩ := block
      have fails : EntryFails v 0 index ↔ w.ClearFails := by
        refine ⟨fun fails => ?_, fun fails => fails_iff.mpr (.inr ⟨ent, w, ran, fails⟩)⟩
        rcases fails_iff.mp fails with first | ⟨_, _, again, second⟩
        · exact absurd first clear
        · cases ran.symm.trans again
          exact second
      rw [bind_ok ran, fails]
      apply Ends.mono (takeEntry_less width (by rw [Fresh, if_pos inside.1.1]; exact ⟨rfl, inside⟩) less)
      · rintro found t ⟨same, nonzero, less, entry, clear⟩
        rw [← same] at entry less
        exact ⟨⟨fun absent => absurd rfl absent, same ▸ inside.1.1, nonzero, entry, _, Subset.refl _, less⟩, clear⟩
      · exact fun _ _ undone => undone
    | err e w =>
      rw [ran] at block
      rw [bind_err ran]
      rcases block with ⟨less, clear⟩ | ⟨fails, b, less⟩
      · refine .inl ⟨less, fun fails => ?_⟩
        rcases fails_iff.mp fails with first | ⟨_, _, again, -⟩
        · exact clear first
        · cases ran.symm.trans again
      · exact .inr ⟨fails_iff.mpr (.inl fails), b, less⟩
    | fault r =>
      rw [ran] at block
      rw [bind_fault ran]
      intro fails
      rcases fails_iff.mp fails with first | ⟨_, _, again, -⟩
      · exact block first
      · cases ran.symm.trans again
  · rw [sfsBmapGetSubNolock, require_bind_run inside, if_pos none, EntryFails, if_neg none]
    apply Ends.bind (Q := fun buf w => w = v.asked ∧ v.Valid entp ∧ v.answer = 0 ∧
      getLE buf 0 4 = getLE (v.disk entp) (4 * index) 4)
    · rw [sfsRbuf, require_bind_run within]
      apply Ends.bind (Ends.imp sfsRwblockNolock_ends (fun _ _ done => done) ?_ ?_)
      · rintro _ _ ⟨valid, accepted, rfl, rfl⟩
        exact ⟨rfl, valid, accepted, getLE_shift _ _ _⟩
      · rintro _ _ ⟨refused, rfl⟩
        exact .inl ⟨(Vol.Less.refl v).congr rfl rfl, fun fails => refused fails.2.1⟩
      · exact fun _ invalid fails => invalid fails.1
    · rintro buf _ ⟨rfl, valid, accepted, same⟩
      have start := (Vol.Less.refl v).congr (show v.asked.freemap = v.freemap from rfl) rfl
      rw [same]
      by_cases there : getLE (v.disk entp) (4 * index) 4 ≠ 0
      · rw [if_pos (.inl there)]
        exact ⟨⟨fun _ => rfl, none, there, rfl, [], nil_subset _, start⟩, fun fails => there fails.2.2.1⟩
      · rw [if_neg (by simpa using there)]
        have fails : (v.Valid entp ∧ v.answer = 0 ∧ getLE (v.disk entp) (4 * index) 4 = 0 ∧
            v.asked.ClearFails) ↔ v.asked.ClearFails := by
          simp [valid, accepted, not_not.mp there]
        rw [fails]
        apply Ends.mono (takeEntry_less width (by rw [Fresh, if_neg (by simp)]) start)
        · rintro found t ⟨kept, nonzero, less, entry, clear⟩
          rw [← kept] at entry
          exact ⟨⟨fun _ => kept, kept ▸ none, nonzero, entry, _, by simp, less⟩, clear⟩
        · exact fun _ _ undone => undone

/-! ## The whole call -/

/-- The pointer of the map at `index`. -/
def Ctx.pointer (c : Ctx) (index : ℕ) : ℕ :=
  if direct : index < 12 then c.sin.din.direct ⟨index, direct⟩
  else getLE (c.vol.disk c.sin.din.indirect) (4 * (index - ndirect)) 4

/-- The free map, the count and the pointers of the inode are as before. -/
structure Restored (c c' : Ctx) : Prop where
  vol : c.vol.Less c'.vol []
  direct : c'.sin.din.direct = c.sin.din.direct
  indirect : c'.sin.din.indirect = c.sin.din.indirect

/-- The block is in use and recorded, and at most it and the indirect block were taken. -/
structure Recorded (c : Ctx) (index b : ℕ) (c' : Ctx) : Prop where
  inUse : c'.vol.InUse b
  pointer : c'.pointer index = b
  less : ∃ taken, taken ⊆ [b, c'.sin.din.indirect] ∧ c.vol.Less c'.vol taken

/-- `sfs_bmap_get_nolock` with `create` does everything or nothing. -/
def AllOrNothing (c : Ctx) (index : ℕ) : Prop :=
  (sfsBmapGetNolock index true c).Ends (Recorded c index) (fun _ => Restored c) (fun _ => True)

/-- A block has to be taken, and the device refuses to clear it. -/
def ClearRefused (c : Ctx) (index : ℕ) : Prop :=
  if direct : index < 12 then c.sin.din.direct ⟨index, direct⟩ = 0 ∧ c.vol.ClearFails
  else EntryFails c.vol c.sin.din.indirect (index - ndirect)

theorem onVol_ends {α : Type} {m : Kernel Fault Vol α} {Q : α → Vol → Prop} {E : ℤ → Vol → Prop}
    {B : Fault → Prop} (ends : (m c.vol).Ends Q E B) :
    (onVol m c).Ends (fun a c' => c'.sin = c.sin ∧ Q a c'.vol) (fun e c' => c'.sin = c.sin ∧ E e c'.vol) B :=
  Ends.zoom ends (fun _ _ after => ⟨rfl, after⟩) fun _ _ after => ⟨rfl, after⟩

/-- What the pointer that is found or made is like, but for the assertion behind it. -/
theorem bmapPointer_ends (width : c.vol.super.blocks ≤ 2 ^ 32) (inside : index < ndirect + blkNentry) :
    (bmapPointer index true c).Ends
      (fun b c' => b ≠ 0 ∧ c'.pointer index = b ∧
        (∃ taken, taken ⊆ [b, c'.sin.din.indirect] ∧ c.vol.Less c'.vol taken) ∧ ¬ ClearRefused c index)
      (fun _ c' => c'.sin = c.sin ∧ Undone c.vol c'.vol (ClearRefused c index))
      (fun _ => ¬ ClearRefused c index) := by
  rw [bmapPointer, get_bind_run]
  by_cases direct : index < 12
  · have fails : ClearRefused c index ↔ c.sin.din.direct ⟨index, direct⟩ = 0 ∧ c.vol.ClearFails := by
      rw [ClearRefused, dif_pos direct]
    rw [dif_pos direct, fails]
    by_cases none : c.sin.din.direct ⟨index, direct⟩ = 0
    · rw [if_pos ⟨none, rfl⟩]
      simp only [none, true_and]
      refine Ends.bind (onVol_ends (sfsBlockAlloc_less (.refl c.vol))) ?_
      rintro b c₁ ⟨-, less, inside, clear⟩
      refine ⟨inside.1.1, ?_, ⟨[b], by simp, less⟩, clear⟩
      rw [Ctx.pointer, dif_pos direct]
      exact update_self ..
    · rw [if_neg (by simp [none])]
      refine ⟨none, dif_pos direct, ⟨[], nil_subset _, .refl _⟩, fun both => none both.1⟩
  · have small : index - ndirect < blkNentry := by
      unfold ndirect at *
      omega
    have fails : ClearRefused c index ↔ EntryFails c.vol c.sin.din.indirect (index - ndirect) := by
      rw [ClearRefused, dif_neg direct]
    rw [dif_neg direct, if_pos small, fails]
    refine Ends.bind (onVol_ends (sfsBmapGetSubNolock_less width small)) ?_
    rintro found c₁ ⟨sin, is, clear⟩
    by_cases new : found.1 ≠ c.sin.din.indirect
    · have none : c.sin.din.indirect = 0 := by
        by_contra there
        exact new (is.kept there)
      rw [if_pos new, require_bind_run none]
      refine ⟨is.nonzero, ?_, is.less, clear⟩
      rw [Ctx.pointer, dif_neg direct]
      exact is.entry
    · have same : c₁.sin.din.indirect = found.1 := by
        rw [sin]
        exact (not_not.mp new).symm
      rw [if_neg new]
      refine ⟨is.nonzero, ?_, by rw [same]; exact is.less, clear⟩
      rw [Ctx.pointer, dif_neg direct, same]
      exact is.entry

/-- `sfs_bmap_get_nolock` does everything or nothing exactly if no block has to be taken that
the device then refuses to clear. -/
theorem bmap_get_all_or_nothing_iff (c : Ctx) (index : ℕ) (inside : index < ndirect + blkNentry)
    (width : c.vol.super.blocks ≤ 2 ^ 32) : AllOrNothing c index ↔ ¬ ClearRefused c index := by
  have call : (sfsBmapGetNolock index true c).Ends
      (fun b c' => Recorded c index b c' ∧ ¬ ClearRefused c index)
      (fun _ c' => c'.sin = c.sin ∧ Undone c.vol c'.vol (ClearRefused c index))
      (fun _ => ¬ ClearRefused c index) := by
    refine Ends.bind (bmapPointer_ends width inside) ?_
    rintro b c₁ ⟨nonzero, pointer, less, clear⟩
    rw [if_neg nonzero]
    refine Ends.bind (Q := fun _ c' => c' = c₁ ∧ c₁.vol.InUse b) (Ends.bind (Ends.imp (onVol_ends
      (sfsBlockInuse_ends c₁.vol b)) (fun _ _ is => is) (fun _ _ never => never.2.elim) fun _ _ => clear) ?_) ?_
    · rintro inuse c₂ ⟨sin, vol, valid, is⟩
      refine ends_require (fun used => ⟨?_, valid.1, by simpa [is] using used⟩) fun _ => clear
      obtain ⟨_, _⟩ := c₂
      cases vol
      cases sin
      rfl
    · rintro _ _ ⟨rfl, used⟩
      exact ⟨⟨used, pointer, less⟩, clear⟩
  rw [AllOrNothing]
  cases ran : sfsBmapGetNolock index true c with
  | ok b c' =>
    rw [ran] at call
    exact iff_of_true call.1 call.2
  | err e c' =>
    rw [ran] at call
    obtain ⟨sin, ⟨less, clear⟩ | ⟨fails, b, less⟩⟩ := call
    · exact iff_of_true ⟨less, by rw [sin], by rw [sin]⟩ clear
    · refine iff_of_false (fun restored => ?_) fun clear => clear fails
      have one := less.unused
      have none := restored.vol.unused
      rw [length_nil] at none
      rw [length_singleton] at one
      omega
  | fault r =>
    rw [ran] at call
    exact iff_of_true trivial call

/-- Two blocks behind the super block are free, and the inode has no block. -/
def twoFree (outcomes : List ℤ) : Ctx where
  vol := ⟨⟨sfsMagic, 3, 2, fun _ => 0⟩, false, ⟨3, 1, fun _ => 6#32⟩, fun _ => zeroBlock, outcomes⟩
  sin := ⟨⟨0, typeFile, 1, 0, fun _ => 0, 0⟩, 1, false⟩

/-- The device refuses the first request, which clears the block that was taken: the call
fails, and the block is gone. -/
theorem bmap_get_leaks : ¬ AllOrNothing (twoFree [-1]) 0 := by
  intro whole
  have count : (2 : ℕ) - 1 + 0 = 2 := whole.vol.unused
  cases count

/-- The device clears the two blocks and refuses to write the entry: both are given back. -/
theorem bmap_get_all_or_nothing_iff_entry : AllOrNothing (twoFree [0, 0, 0, -1]) 12 ∧
    ∃ c', sfsBmapGetNolock 12 true (twoFree [0, 0, 0, -1]) = .err (-1) c' := by
  refine ⟨(bmap_get_all_or_nothing_iff _ 12 (by decide) (by decide)).mpr ?_, _, rfl⟩
  rintro (⟨b, freemap, -, -, -, refused⟩ | ⟨ent, w, ran, b, freemap, -, -, -, refused⟩)
  · exact refused rfl
  · cases ran
    exact refused rfl

end LiNos.Fs
