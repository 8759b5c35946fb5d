import LiNos.SfsEntries
import LiNos.SfsReach

/-!
Creating files and directories with few free blocks.

Neither `sfs_create` nor `sfs_mkdir` looks at what the allocations inside it return. With too
few blocks it goes on with whatever is in its local variables, so it never reports an error,
and it counts a new slot of the directory in every case. It is clean exactly when the blocks
are there.
-/

namespace LiNos.Fs

open Kernel LittleEndian Function List

variable {s s' : Mount} {l l' : Layout} {v : Vol} {d n count : ℕ} {name : List UInt8}
  {left : Leftover} {α : Type}

/-- The call has succeeded: the volume is consistent, the name leads to a new empty object, and
what was written was free before or belongs to the directory or to the free map. -/
structure Made (kind : Kind) (s s' : Mount) (l l' : Layout) (d n : ℕ) (name : List UInt8) (extra : List ℕ) :
    Prop where
  entered : Entered s s' l l' d n name (s'.din n)
  object : kind.Empty (s'.din n) extra
  extra : ∀ m ∈ extra, s.vol.Free m
  resolves : ∃ k, onNode d (sfsDirentSearchNolock name) s' = .ok (n, k) s'

/-- The call has left the directory, the free map and the blocks of the others as they were. -/
structure Untouched (s s' : Mount) (l : Layout) (d : ℕ) : Prop where
  list : s'.list l d = s.list l d
  blocks : (s'.sin d).din.blocks = (s.sin d).din.blocks
  freemap : s'.vol.freemap = s.vol.freemap
  unused : s'.vol.super.unusedBlocks = s.vol.super.unusedBlocks
  disk : ∀ i ∈ l.inos, i ≠ d → ∀ x ∈ s.owned l i, s'.vol.disk x = s.vol.disk x

/-- The call has succeeded, or it has failed and left everything as it was. -/
def CleanEnd (kind : Kind) (s : Mount) (l : Layout) (d : ℕ) (name : List UInt8) : Outcome Fault Mount ℤ → Prop
  | .ok ret s' => ret = 0 ∧ (∃ n l' extra, Made kind s s' l l' d n name extra) ∨ ret < 0 ∧ Untouched s s' l d
  | .err e s' => e < 0 ∧ Untouched s s' l d
  | .fault _ => False

/-! ## A call that comes back has counted a slot -/

/-- The directory is in memory and has so many slots. -/
def Slots (d count : ℕ) (s : Mount) : Prop := d ∈ s.cached ∧ (s.sin d).din.blocks = count

section Slots

/-- The call keeps the number of slots and returns no error code. -/
def KeepsSlots {α : Type} (d count : ℕ) (m : Kernel Fault Mount α) : Prop :=
  Keeps (Slots d count) (fun _ _ => False) (fun _ => True) m

theorem attempt_slots {m : Kernel Fault Mount α}
    (keeps : Keeps (Slots d count) (fun _ => Slots d count) (fun _ => True) m) :
    KeepsSlots d count (attempt m) := Keeps.attempt keeps fun _ _ kept => kept

theorem onVolume_slots (m : Kernel Fault Vol α) :
    Keeps (Slots d count) (fun _ => Slots d count) (fun _ => True) (onVolume m) := fun s slots =>
  Ends.zoom (ends_any (m s.vol)) (fun _ _ _ => slots) fun _ _ _ => slots

theorem onNode_slots {m : Kernel Fault Ctx α}
    (keeps : ∀ c, (m c).Ends (fun _ c' => c'.sin.din.blocks = c.sin.din.blocks)
      (fun _ c' => c'.sin.din.blocks = c.sin.din.blocks) (fun _ => True)) :
    Keeps (Slots d count) (fun _ => Slots d count) (fun _ => True) (onNode d m) := by
  intro s slots
  have kept : ∀ c' : Ctx, c'.sin.din.blocks = (s.ctx d).sin.din.blocks → Slots d count (s.put d c') := by
    intro c' same
    refine ⟨slots.1, ?_⟩
    change (update s.sin d c'.sin d).din.blocks = count
    rw [update_self, same]
    exact slots.2
  exact Ends.zoom (keeps (s.ctx d)) (fun _ c' same => kept c' same) fun _ c' same => kept c' same

theorem sfsFsync_blocks (c : Ctx) : (sfsFsync c).Ends (fun _ c' => c'.sin.din.blocks = c.sin.din.blocks)
    (fun _ c' => c'.sin.din.blocks = c.sin.din.blocks) (fun _ => True) := by
  rw [sfsFsync, get_bind_run]
  split_ifs with dirty
  · rw [modify_bind_run]
    refine Ends.attempt_bind (Q := fun _ c' => c'.sin.din.blocks = c.sin.din.blocks)
      (E := fun _ c' => c'.sin.din.blocks = c.sin.din.blocks) (Ends.zoom (ends_any _) ?_ ?_) ?_ ?_
    · exact fun _ _ _ => rfl
    · exact fun _ _ _ => rfl
    · exact fun _ _ same => same
    · exact fun _ _ same => same
  · rfl

theorem sfsLoadInode_slots (i : ℕ) :
    Keeps (Slots d count) (fun _ => Slots d count) (fun _ => True) (sfsLoadInode i) := by
  intro s slots
  rw [sfsLoadInode, get_bind_run]
  split_ifs with member
  · exact slots
  · have other : d ≠ i := by
      rintro rfl
      exact member slots.1
    refine Keeps.bind (onVolume_slots _) (fun _ => ?_) s slots
    apply Keeps.bind (keeps_require trivial)
    intro _
    apply Keeps.bind (onVolume_slots _)
    intro buf
    apply Keeps.bind (keeps_require trivial)
    intro _
    apply Keeps.bind (keeps_require trivial)
    intro _ s slots
    refine ⟨mem_cons_of_mem _ slots.1, ?_⟩
    dsimp only
    rw [update_of_ne other]
    exact slots.2

theorem addSlot_slots {β : Type} {f : Unit → Kernel Fault Mount β} (slots : Slots d count s)
    (rest : ∀ t, Slots d (count + 1) t →
      (f () t).Ends (fun _ => Slots d (count + 1)) (fun _ _ => False) (fun _ => True)) :
    ((onNode d (modify addSlot) >>= f) s).Ends (fun _ => Slots d (count + 1)) (fun _ _ => False)
      (fun _ => True) := by
  have ran : onNode d (modify addSlot) s = .ok () (s.put d (addSlot (s.ctx d))) := rfl
  rw [bind_ok ran]
  apply rest
  refine ⟨slots.1, ?_⟩
  change (update s.sin d (addSlot (s.ctx d)).sin d).din.blocks = _
  rw [update_self, ← slots.2]
  rfl

theorem flush_slots (ret : ℤ) : KeepsSlots d count (flush d ret) := by
  apply Keeps.bind (attempt_slots (onNode_slots sfsFsync_blocks))
  intro _
  apply Keeps.bind keeps_get
  intro t
  apply keeps_ite
  · intro _
    have flagged : KeepsSlots d count (onVolume (setSuperDirty false)) := fun _ slots => slots
    apply Keeps.bind flagged
    intro _
    apply Keeps.bind (attempt_slots (onVolume_slots _))
    intro _
    exact Keeps.bind (attempt_slots (onVolume_slots _)) fun _ => keeps_pure _
  · exact fun _ => keeps_pure _

theorem newSlot_slots (index : ℕ) : KeepsSlots d count (attempt (onNode d (sfsBmapGetNolock index true))) := by
  apply attempt_slots
  apply onNode_slots
  intro c
  exact Ends.imp (sfsBmapGetNolock_keeps c ⟨rfl, rfl⟩) (fun _ _ here => here.2) (fun _ _ still => still.2.2)
    fun _ _ => trivial

theorem assertOk_slots {m : Kernel Fault Mount α}
    (keeps : Keeps (Slots d count) (fun _ => Slots d count) (fun _ => True) m) : KeepsSlots d count (assertOk m) :=
  Keeps.bind (attempt_slots keeps) fun _ => keeps_require trivial

/-- `sfs_create` and `sfs_mkdir` in a directory have one way to end other than a panic. -/
theorem make_slots (kind : Kind) (slots : Slots d count s) (dir : (s.sin d).din.type = typeDir) :
    (kind.make d name left s).Ends (fun _ => Slots d (count + 1)) (fun _ _ => False) (fun _ => True) := by
  have type : ¬ (s.sin d).din.type ≠ typeDir := not_not.mpr dir
  cases kind with
  | file =>
    rw [Kind.make]
    refine Ends.bind ?_ fun _ _ after => after
    rw [sfsCreate, get_bind_run, if_neg type]
    apply Ends.bind (newSlot_slots _ s slots)
    intro _ s₁ slots₁
    apply Ends.bind (attempt_slots (onVolume_slots _) s₁ slots₁)
    intro _ s₂ slots₂
    apply Ends.bind (assertOk_slots (onVolume_slots _) s₂ slots₂)
    intro _ s₃ slots₃
    apply Ends.bind (assertOk_slots (onVolume_slots _) s₃ slots₃)
    intro _ s₄ slots₄
    apply Ends.bind (attempt_slots (sfsLoadInode_slots _) s₄ slots₄)
    intro _ s₅ slots₅
    apply addSlot_slots slots₅
    intro t after
    exact Ends.bind (flush_slots 0 t after) fun _ _ flushed => flushed
  | dir =>
    rw [Kind.make, sfsMkdir, get_bind_run, if_neg type]
    apply Ends.bind (newSlot_slots _ s slots)
    intro _ s₁ slots₁
    apply Ends.bind (attempt_slots (onVolume_slots _) s₁ slots₁)
    intro _ s₂ slots₂
    apply Ends.bind (attempt_slots (onVolume_slots _) s₂ slots₂)
    intro _ s₃ slots₃
    apply addSlot_slots slots₃
    intro t after
    apply Ends.bind (attempt_slots (onVolume_slots _) t after)
    intro _ s₄ slots₄
    apply Ends.bind (attempt_slots (onVolume_slots _) s₄ slots₄)
    exact fun _ s₅ slots₅ => flush_slots _ s₅ slots₅

end Slots

/-! ## What a success takes -/

theorem Vol.Sound.length_le (sound : v.Sound) {taken : List ℕ} (nodup : taken.Nodup) (free : ∀ b ∈ taken, v.Free b) :
    taken.length ≤ v.super.unusedBlocks := by
  rw [sound.unused, ← toFinset_card_of_nodup nodup]
  apply Finset.card_le_card
  intro b member
  have is := free b (mem_toFinset.mp member)
  exact Finset.mem_filter.mpr ⟨Finset.mem_range.mpr is.1, is.2⟩

namespace Made

variable {kind : Kind} {extra : List ℕ}

section

variable (made : Made kind s s' l l' d n name extra)

include made

theorem extra_length : extra.length + 1 = kind.size := by
  have object := made.object
  cases kind with
  | file =>
    rw [object.2]
    rfl
  | dir =>
    obtain ⟨m, -, rfl⟩ := object
    rfl

/-- The blocks of the new object besides its inode. -/
theorem mem_owned (sound : s.vol.Sound) {m : ℕ} (member : m ∈ extra) :
    m ∈ (s'.din n).holds (l'.bs n) := by
  have object := made.object
  have nonzero := (sound.free m (made.extra m member)).1
  cases kind with
  | file =>
    rw [object.2] at member
    cases member
  | dir =>
    obtain ⟨k, din, rfl⟩ := object
    obtain rfl := mem_singleton.mp member
    rw [din, DiskInode.holds, newDir]
    rw [if_neg nonzero]
    exact mem_append_right _ (mem_singleton_self m)

theorem extra_nodup : extra.Nodup := by
  have object := made.object
  cases kind with
  | file =>
    rw [object.2]
    exact nodup_nil
  | dir =>
    obtain ⟨m, -, rfl⟩ := object
    exact nodup_singleton m

/-- A success takes the blocks of the entry and of the object, and perhaps the indirect block
of the directory. -/
theorem space (laid : Laid s l) (inode : d ∈ l.inos) :
    (s.din d).growth + kind.size ≤ s.vol.super.unusedBlocks := by
  have entered := made.entered
  obtain ⟨b, bs, freeB⟩ := entered.slot
  have here : d ∈ l'.inos := entered.kept.inos inode
  have there : n ∈ l'.inos := by
    rw [entered.inos]
    exact Set.mem_insert _ _
  have ne : n ≠ d := by
    rintro rfl
    exact entered.new inode
  have mineB : b ∈ s'.owned l' d := Mount.mem_owned_of_bs (by rw [bs]; exact mem_append_right _ (mem_singleton_self b))
  -- no block of the new object is one of the directory
  have apart : ∀ x ∈ n :: extra, ∀ y ∈ s'.owned l' d, x ≠ y := by
    rintro x mine y theirs rfl
    apply ne
    apply entered.laid.apart n there d here x _ theirs
    rcases mem_cons.mp mine with rfl | more
    · exact Mount.self_mem_owned
    · exact Mount.mem_owned.mpr (.inr (made.mem_owned laid.sound more))
  have object : (n :: extra).Nodup := by
    refine nodup_cons.mpr ⟨?_, made.extra_nodup⟩
    intro mine
    exact entered.laid.self_not_held there (made.mem_owned laid.sound mine)
  have freed : ∀ x ∈ n :: extra, s.vol.Free x := by
    intro x mine
    rcases mem_cons.mp mine with rfl | more
    · exact entered.free
    · exact made.extra x more
  have size : (n :: extra).length = kind.size := made.extra_length
  have mapped := entered.laid.mapped d here
  rw [bs] at mapped
  have before := (laid.mapped d inode).blocks
  by_cases same : (s'.din d).indirect = (s.din d).indirect
  · have growth : (s.din d).growth = 1 := by
      rw [DiskInode.growth, if_neg]
      rintro ⟨many, none⟩
      have few := mapped.few (same.trans none)
      rw [length_append, length_singleton] at few
      omega
    have count := laid.sound.length_le
      (nodup_cons.mpr ⟨fun mine => apart b mine b mineB rfl, object⟩) (by
        intro x mine
        rcases mem_cons.mp mine with rfl | more
        · exact freeB
        · exact freed x more)
    rw [length_cons, size] at count
    omega
  · have freeI := entered.indirect same
    have nonzero := (laid.sound.free _ freeI).1
    have mineI : (s'.din d).indirect ∈ s'.owned l' d := Mount.indirect_mem_owned nonzero
    have most : (s.din d).growth ≤ 2 := by
      unfold DiskInode.growth
      split <;> omega
    have fresh : (s'.din d).indirect ∉ b :: n :: extra := by
      intro mine
      rcases mem_cons.mp mine with eq | more
      · apply mapped.apart
        rw [eq]
        exact mem_append_right _ (mem_singleton_self b)
      · exact apart _ more _ mineI rfl
    have count := laid.sound.length_le (nodup_cons.mpr ⟨fresh,
      nodup_cons.mpr ⟨fun mine => apart b mine b mineB rfl, object⟩⟩) (by
        intro x mine
        rcases mem_cons.mp mine with rfl | more
        · exact freeI
        · rcases mem_cons.mp more with rfl | rest
          · exact freeB
          · exact freed x rest)
    rw [length_cons, length_cons, size] at count
    omega

theorem room (inode : d ∈ l.inos) :
    (l.bs d).length < ndirect + blkNentry := by
  obtain ⟨b, bs, -⟩ := made.entered.slot
  have most := (made.entered.laid.mapped d (made.entered.kept.inos inode)).most
  rw [bs, length_append, length_singleton] at most
  omega

/-- The name leads to the new object, so it was not there before. -/
theorem missing (laid : Laid s l) (member : d ∈ s.cached)
    (dir : (s.din d).type = typeDir) (short : name.length ≤ maxFnameLen) : Missing (s.list l d) name := by
  have entered := made.entered
  have inode := (laid.cached d member).1
  have type : (s'.din d).type = typeDir := by
    rw [entered.kept.type d inode]
    exact dir
  obtain ⟨k, ran⟩ := made.resolves
  rcases entered.laid.search_cases (entered.kept.cached member) type short with
    ⟨j, entry, found, search⟩ | ⟨-, search⟩
  · rw [ran] at search
    injection search with pair
    obtain ⟨same, -⟩ := Prod.mk.inj pair
    rw [entered.list] at found
    intro old listed
    obtain ⟨m, inside, rfl⟩ := getElem_of_mem listed
    by_cases later : j < (s.list l d).length
    · -- an old entry would name an old inode
      have here := found.here
      rw [getElem?_append_left later] at here
      have named := laid.entries d inode dir entry (mem_of_getElem? here)
      rcases named with none | there
      · exact absurd none found.used
      · rw [← same] at there
        exact absurd there entered.new
    · apply found.first m (by omega)
      rw [getElem?_append_left inside, getElem?_eq_getElem inside]
  · rw [ran] at search
    cases search

end

end Made

/-! ## Clean exactly with enough blocks -/

/-- In a consistent directory without the name, the entry behind the others is found. -/
theorem Entered.resolves {din : DiskInode} (entered : Entered s s' l l' d n name din) (member : d ∈ s'.cached)
    (inode : d ∈ l.inos) (dir : (s.din d).type = typeDir) (short : name.length ≤ maxFnameLen)
    (missing : Missing (s.list l d) name) (nonzero : n ≠ 0) :
    ∃ k, onNode d (sfsDirentSearchNolock name) s' = .ok (n, k) s' := by
  have type : (s'.din d).type = typeDir := by
    rw [entered.kept.type d inode]
    exact dir
  rcases entered.laid.search_cases member type short with ⟨k, entry, found, search⟩ | ⟨gone, -⟩
  · rw [entered.list] at found
    refine ⟨k, ?_⟩
    rcases mem_append.mp (mem_of_getElem? found.here) with old | last
    · rcases missing entry old with none | other
      · exact absurd none found.used
      · exact absurd found.named other
    · rw [search, mem_singleton.mp last]
  · have last := gone ⟨n, name⟩ (by rw [entered.list]; exact mem_append_right _ (mem_singleton_self _))
    rcases last with zero | other
    · exact absurd zero nonzero
    · exact absurd rfl other

/-- `sfs_create` and `sfs_mkdir` succeed or fail cleanly exactly if the name is new, the map
of the directory has room and there are blocks for the entry and the object. -/
theorem making_clean_iff (kind : Kind) (laid : Laid s l) (member : d ∈ s.cached) (dir : (s.din d).type = typeDir)
    (clean : 0 ∉ name) (short : name.length ≤ maxFnameLen) (left : Leftover) :
    CleanEnd kind s l d name (kind.make d name left s) ↔
      Missing (s.list l d) name ∧ (l.bs d).length < ndirect + blkNentry ∧
        (s.din d).growth + kind.size ≤ s.vol.super.unusedBlocks := by
  have inode := (laid.cached d member).1
  have inMemory := s.din_cached member
  constructor
  · intro ended
    have slots := @make_slots s d (s.sin d).din.blocks name left kind ⟨member, rfl⟩ (by rw [← inMemory]; exact dir)
    cases ran : kind.make d name left s with
    | ok ret s' =>
      rw [ran] at ended slots
      rcases ended with ⟨-, n, l', extra, made⟩ | ⟨-, untouched⟩
      · exact ⟨made.missing laid member dir short, made.room inode, made.space laid inode⟩
      · have grown := slots.2
        rw [untouched.blocks] at grown
        omega
    | err e s' =>
      rw [ran] at slots
      exact slots.elim
    | fault reason =>
      rw [ran] at ended
      exact ended.elim
  · rintro ⟨missing, room, space⟩
    rw [inMemory] at space
    have whole : name.take maxFnameLen = name := take_of_length_le short
    rcases laid.make_cases member dir kind clean space with
      ⟨n, s', l', extra, ran, entered, object, free⟩ | ⟨-, full⟩
    · rw [whole] at entered
      rw [ran]
      have resolves := entered.resolves (entered.kept.cached member) inode dir short missing
        (laid.sound.free n entered.free).1
      exact .inl ⟨rfl, n, l', extra, entered, object, free, resolves⟩
    · omega

/-! ## A small volume -/

/-- The inode of a root directory with two entries. -/
def rootInode : DiskInode := ⟨8192, typeDir, 1, 2, fun k => if k = 0 then 3 else if k = 1 then 4 else 0, 0⟩

/-- A volume with a root directory and nothing else; behind its five blocks there are `free`
free ones. -/
def rootVol (free : ℕ) : Vol where
  super := ⟨sfsMagic, 5 + free, free, fun _ => 0⟩
  superDirty := false
  freemap := ⟨blkBits, 1024, fun w => if w = 0 then BitVec.ofNat 32 (2 ^ (5 + free) - 2 ^ 5) else 0#32⟩
  disk := fun b =>
    if b = 1 then rootInode.image
    else if b = 3 then DiskEntry.image ⟨1, dot⟩ zeroBlock
    else if b = 4 then DiskEntry.image ⟨1, dotdot⟩ zeroBlock
    else zeroBlock
  outcomes := []

def rootMount (free : ℕ) : Mount := ⟨rootVol free, [1], fun _ => ⟨rootInode, 1, false⟩⟩

def rootLayout : Layout := ⟨{1}, fun _ => [3, 4]⟩

/-- Local variables and memory that hold zeros. -/
def zeroLeft : Leftover := ⟨0, 0, 0, zeroBlock, zeroBlock⟩

section Small

-- a full volume, and one with room for a file or a directory
variable {free : ℕ} (few : free = 0 ∨ free = 4)
include few

theorem rootVol_bit (b : ℕ) : (rootVol free).freemap.bit b = decide (5 ≤ b ∧ b < 5 + free) := by
  have word : ∀ i < 32, (BitVec.ofNat 32 (2 ^ (5 + free) - 2 ^ 5)).getLsbD i = decide (5 ≤ i ∧ i < 5 + free) := by
    rcases few with rfl | rfl <;> decide
  change (if b / 32 = 0 then BitVec.ofNat 32 (2 ^ (5 + free) - 2 ^ 5) else 0#32).getLsbD (b % 32) = _
  by_cases first : b / 32 = 0
  · have small : b < 32 := by omega
    rw [if_pos first, Nat.mod_eq_of_lt small, word b small]
  · have large : ¬ (5 ≤ b ∧ b < 5 + free) := by omega
    rw [if_neg first, decide_eq_false large, BitVec.getLsbD_zero]

theorem rootVol_free (b : ℕ) : (rootVol free).Free b ↔ 5 ≤ b ∧ b < 5 + free := by
  have covered : (rootVol free).freemap.nbits = 32768 := rfl
  unfold Vol.Free
  rw [rootVol_bit few, decide_eq_true_iff, covered]
  omega

theorem rootVol_inUse (b : ℕ) : (rootVol free).InUse b ↔ b = 1 ∨ b = 2 ∨ b = 3 ∨ b = 4 := by
  have small : (rootVol free).super.blocks = 5 + free := rfl
  unfold Vol.InUse Vol.Valid
  rw [rootVol_bit few, small, decide_eq_false_iff_not]
  omega

theorem rootVol_sound : (rootVol free).Sound := by
  have small : (rootVol free).super.blocks = 5 + free := rfl
  have covered : (rootVol free).freemap.nbits = 32768 := rfl
  have words : blkBits = 1024 * wordBits := by decide
  refine ⟨rfl, words, by omega, ?_, ?_, by omega⟩
  · intro b unused
    have place := (rootVol_free few b).mp unused
    exact ⟨by omega, by omega⟩
  · have counted := @Vol.card_stretch 5 (5 + free) 32768 (by omega)
    rw [Nat.add_sub_cancel_left] at counted
    rw [Vol.freeCount, covered]
    refine counted.symm.trans (congrArg Finset.card (Finset.filter_congr fun b _ => ?_))
    rw [rootVol_bit few, decide_eq_true_iff]

theorem rootVol_isFreemap (b : ℕ) : (rootVol free).IsFreemap b ↔ b = 2 := by
  have one : roundupDiv (rootVol free).super.blocks blkBits = 1 := by
    rcases few with rfl | rfl <;> decide
  unfold Vol.IsFreemap
  rw [one]
  unfold blknFreemap
  omega

omit few in
theorem rootMount_owned : (rootMount free).owned rootLayout 1 = [1, 3, 4] := rfl

theorem rootMount_laid : Laid (rootMount free) rootLayout := by
  have only : ∀ i ∈ rootLayout.inos, i = 1 := fun i inode => inode
  have din : (rootMount free).din 1 = rootInode := Mount.din_cached (mem_singleton_self 1)
  refine ⟨rootVol_sound few, rfl, ?_, ?_, ?_, ?_, ?_, ?_, ?_, ?_⟩
  · intro i inode
    rw [only i inode, rootMount_owned]
    decide
  · intro i one j two b _ _
    rw [only i one, only j two]
  · intro b
    change (rootVol free).InUse b ↔ (rootVol free).IsFreemap b ∨ _
    rw [rootVol_inUse few, rootVol_isFreemap few]
    constructor
    · rintro (rfl | rfl | rfl | rfl)
      · exact .inr ⟨1, rfl, by rw [rootMount_owned]; decide⟩
      · exact .inl rfl
      · exact .inr ⟨1, rfl, by rw [rootMount_owned]; decide⟩
      · exact .inr ⟨1, rfl, by rw [rootMount_owned]; decide⟩
    · rintro (map | ⟨i, inode, member⟩)
      · omega
      · rw [only i inode, rootMount_owned] at member
        simp only [mem_cons, not_mem_nil, or_false] at member
        omega
  · intro i inode b member
    rw [only i inode, rootMount_owned] at member
    change ¬ (rootVol free).IsFreemap b
    rw [rootVol_isFreemap few]
    rintro rfl
    revert member
    decide
  · intro i inode
    rw [only i inode, din]
    refine ⟨rfl, by decide, by decide, fun there => absurd rfl there, by decide, ?_, by decide⟩
    intro b member
    change (rootVol free).InUse b
    have held : b = 3 ∨ b = 4 := by
      revert member
      simp [DiskInode.holds, rootInode, rootLayout]
    rw [rootVol_inUse few]
    omega
  · intro i inode
    rw [only i inode, din]
    exact ⟨by decide, by decide, by decide, by decide⟩
  · intro i member
    rw [mem_singleton.mp member]
    exact ⟨rfl, rfl⟩
  · intro i inode _ entry listed
    rw [only i inode] at listed
    right
    rcases mem_pair.mp listed with rfl | rfl
    · rfl
    · rfl

end Small

theorem rootVol_alloc : sfsBlockAlloc (rootVol 0) = .err (-eNoMem) (rootVol 0) := by
  rcases sfsBlockAlloc_cases (rootVol_sound (.inl rfl)) with ⟨b, -, -, free, -⟩ | ⟨ran, -⟩
  · exact absurd free (by rw [rootVol_free (.inl rfl)]; omega)
  · exact ran

theorem rootMount_index : onNode 1 (sfsBmapGetNolock 2 true) (rootMount 0) = .err (-eNoMem) (rootMount 0) := by
  have alloc : onVol sfsBlockAlloc ((rootMount 0).ctx 1) = .err (-eNoMem) ((rootMount 0).ctx 1) :=
    onVol_err rootVol_alloc
  have pointer : bmapPointer 2 true ((rootMount 0).ctx 1) = .err (-eNoMem) ((rootMount 0).ctx 1) := by
    rw [bmapPointer, get_bind_run, dif_pos (by decide : 2 < 12), if_pos ⟨rfl, rfl⟩, bind_err alloc]
  have got : sfsBmapGetNolock 2 true ((rootMount 0).ctx 1) = .err (-eNoMem) ((rootMount 0).ctx 1) := by
    rw [sfsBmapGetNolock, bind_err pointer]
  rw [onNode_err got, Mount.put_ctx]

/-- Block 0 cannot be asked for. -/
theorem sfsWblock_zero (s : Mount) (buf : Block) : onVolume (sfsWblock buf 0 1) s = .fault .assertion := by
  refine zoom_fault ?_
  rw [sfsWblock, sfsRwblock, sfsRwblockNolock]
  refine bind_fault (bind_fault ?_)
  rw [get_bind_run, require_bind_fault]
  rintro ⟨nonzero | unchecked, -⟩
  · exact nonzero rfl
  · cases unchecked

/-- Without a block for the entry and the inode the code writes to block 0. -/
theorem rootMount_create : sfsCreate 1 [97] zeroLeft (rootMount 0) = .fault .assertion := by
  have node : onVolume sfsBlockAlloc (rootMount 0) = .err (-eNoMem) (rootMount 0) := onVolume_err rootVol_alloc
  have blocks : ((rootMount 0).sin 1).din.blocks = 2 := rfl
  rw [sfsCreate, get_bind_run, if_neg (by decide), blocks, bind_ok (attempt_err rootMount_index),
    bind_ok (attempt_err node)]
  refine bind_fault ?_
  rw [assertOk]
  exact bind_fault (attempt_fault (sfsWblock_zero (rootMount 0) _))

/-- On a full volume `sfs_create` ends in a failed assertion. -/
theorem making_full_panics :
    Laid (rootMount 0) rootLayout ∧ 1 ∈ (rootMount 0).cached ∧ ((rootMount 0).din 1).type = typeDir ∧
      ¬ CleanEnd .file (rootMount 0) rootLayout 1 [97] (Kind.file.make 1 [97] zeroLeft (rootMount 0)) := by
  refine ⟨rootMount_laid (.inl rfl), mem_singleton_self 1, by decide, ?_⟩
  have ran : Kind.file.make 1 [97] zeroLeft (rootMount 0) = .fault .assertion := by
    rw [Kind.make, bind_fault rootMount_create]
  rw [ran]
  exact not_false

theorem rootMount_list (free : ℕ) : (rootMount free).list rootLayout 1 = [⟨1, dot⟩, ⟨1, dotdot⟩] := rfl

/-- With four free blocks the condition holds, and a directory is made. -/
theorem making_clean_iff_room :
    CleanEnd .dir (rootMount 4) rootLayout 1 [97] (Kind.dir.make 1 [97] zeroLeft (rootMount 4)) := by
  have missing : Missing ((rootMount 4).list rootLayout 1) [97] := by
    intro entry listed
    rw [rootMount_list] at listed
    right
    rcases mem_pair.mp listed with rfl | rfl
    · decide
    · decide
  have space : ((rootMount 4).din 1).growth + Kind.dir.size ≤ (rootMount 4).vol.super.unusedBlocks := by decide
  rw [making_clean_iff .dir (rootMount_laid (.inr rfl)) (mem_singleton_self 1) (by decide) (by decide) (by decide)]
  exact ⟨missing, by decide, space⟩

end LiNos.Fs
