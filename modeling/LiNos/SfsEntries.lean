import LiNos.SfsDirs

/-!
What `sfs_create`, `sfs_mkdir` and `sfs_rename` do to a consistently mounted volume.

A new entry is put together from three things that keep the volume consistent: the
directory grows by a block without an entry, an inode is added, and the block gets its
entry.
-/

namespace LiNos.Fs

open Kernel LittleEndian Function List

variable {s s' : Mount} {l l' : Layout} {v v' w : Vol} {d i b n k : ℕ} {c c' : Ctx} {name : List UInt8}
  {extra : List ℕ} {left : Leftover}

/-! ## Entries and inodes on the disk -/

theorem cString_eq {mem : Block} {pos max : ℕ} {text : List UInt8} (clean : 0 ∉ text)
    (bytes : ∀ k < text.length, mem (pos + k) = text.getD k 0) (ended : mem (pos + text.length) = 0) :
    cString mem pos max = text.take max := by
  induction max generalizing pos text with
  | zero => rfl
  | succ max ih =>
    cases text with
    | nil =>
      rw [length_nil, add_zero] at ended
      rw [cString, if_pos ended, take_nil]
    | cons byte rest =>
      have first := bytes 0 (Nat.succ_pos _)
      rw [add_zero, getD_cons_zero] at first
      have nonzero : mem pos ≠ 0 := by
        rw [first]
        rintro rfl
        exact clean mem_cons_self
      rw [cString, if_neg nonzero, take_succ_cons, first]
      congr 1
      apply ih
      · exact fun member => clean (mem_cons_of_mem _ member)
      · intro k below
        have next := bytes (k + 1) (by simpa using below)
        rw [getD_cons_succ] at next
        rw [← next]
        congr 1
        omega
      · rw [← ended, length_cons]
        congr 1
        omega

/-- An entry is read back, with its name cut to what the field has room for. -/
theorem DiskEntry.load_image {entry : DiskEntry} {memory : Block} (small : entry.ino < 2 ^ 32)
    (clean : 0 ∉ entry.name) :
    DiskEntry.load (entry.image memory) = ⟨entry.ino, entry.name.take maxFnameLen⟩ := by
  rw [DiskEntry.load, DiskEntry.mk.injEq]
  constructor
  · have read : getLE (entry.image memory) 0 4 = getLE (bytesLE entry.ino) 0 4 := by
      apply getLE_congr
      intro i below
      rw [DiskEntry.image, if_pos (by omega)]
    rw [read, getLE_bytesLE small]
  · apply cString_eq clean
    · intro k below
      rw [DiskEntry.image, if_neg (by omega), Nat.add_sub_cancel_left, if_pos below]
    · rw [DiskEntry.image, if_neg (by omega), Nat.add_sub_cancel_left, if_neg (lt_irrefl _), if_pos rfl]

theorem DiskEntry.load_zero : DiskEntry.load zeroBlock = ⟨0, []⟩ := rfl

/-- The inode of a new file is read back. -/
theorem newFile_load (memory : Block) : DiskInode.load (inodeBlock newFile memory) = newFile :=
  DiskInode.load_image ⟨by decide, by decide, by decide, by decide, fun _ => Nat.two_pow_pos 32, by decide⟩

/-- The inode of a new directory is read back. -/
theorem newDir_load (memory : Block) (small : n < 2 ^ 32) :
    DiskInode.load (inodeBlock (newDir n) memory) = newDir n :=
  DiskInode.load_image ⟨show 4096 < 2 ^ 32 by decide, show typeDir < 2 ^ 16 by decide, show 1 < 2 ^ 16 by decide,
    Nat.two_pow_pos 32, fun _ => Nat.two_pow_pos 32, small⟩

/-! ## The block of an entry is written -/

section WriteEntry

variable (laid : Laid s l) (inode : d ∈ l.inos) (inside : k < (l.bs d).length) (data : Block)
include laid inode inside

/-- A block of a directory belongs to nothing else. -/
theorem Laid.entry_apart (other : i ∈ l.inos) (owned : (l.bs d).getD k 0 ∈ s.owned l i) : i = d :=
  laid.apart i other d inode _ owned (Mount.mem_owned_of_bs (getD_mem inside))

theorem Laid.writeEntry_list : (s.setVol (s.vol.write ((l.bs d).getD k 0) data)).list l d =
    (s.list l d).set k (DiskEntry.load data) := by
  apply ext_getElem?
  intro j
  rw [getElem?_set]
  by_cases below : j < (l.bs d).length
  · rw [Mount.list_getElem? _ l below, Mount.length_list, if_pos inside, Mount.list_getElem? s l below]
    by_cases same : k = j
    · subst same
      rw [if_pos rfl, Mount.setVol_vol, Vol.write_disk, update_self]
    · have other : (l.bs d).getD j 0 ≠ (l.bs d).getD k 0 := fun eq =>
        same (((laid.mapped d inode).getD_inj inside below).mp eq.symm)
      rw [if_neg same, Mount.setVol_vol, Vol.write_disk, update_of_ne other]
  · have outside : ∀ t : Mount, (t.list l d)[j]? = none := by
      intro t
      rw [getElem?_eq_none_iff, Mount.length_list]
      omega
    rw [outside, outside, if_neg (by omega)]

theorem Laid.writeEntry_other {x : ℕ} (other : x ∈ l.inos) (ne : x ≠ d) :
    (s.setVol (s.vol.write ((l.bs d).getD k 0) data)).list l x = s.list l x := by
  apply map_congr_left
  intro t mine
  have apart : t ≠ (l.bs d).getD k 0 := by
    rintro rfl
    exact ne (laid.entry_apart inode inside other (Mount.mem_owned_of_bs mine))
  rw [Mount.setVol_vol, Vol.write_disk, update_of_ne apart]

theorem Laid.writeEntry_not_inode (other : i ∈ l.inos) : i ≠ (l.bs d).getD k 0 := by
  intro same
  have mine : (l.bs d).getD k 0 ∈ s.owned l i := by
    rw [← same]
    exact Mount.self_mem_owned
  have eq := laid.entry_apart inode inside other mine
  subst eq
  apply laid.self_not_held inode
  apply mem_append_left
  have mine := getD_mem inside
  rw [← same] at mine
  exact mine

theorem Laid.writeEntry (names : l.Names (DiskEntry.load data)) :
    Laid (s.setVol (s.vol.write ((l.bs d).getD k 0) data)) l ∧
      Kept s (s.setVol (s.vol.write ((l.bs d).getD k 0) data)) l l {d} := by
  have rewrote := Vol.Rewrote.of_write s.vol ((l.bs d).getD k 0) data
  refine ⟨laid.rewrote rewrote ?_ ?_ ?_, subset_rfl, ?_, ?_, fun _ old => old⟩
  · intro i other _
    exact laid.writeEntry_not_inode inode inside other
  · intro i other there same
    have mine : (s.din i).indirect ∈ s.owned l i := Mount.indirect_mem_owned there
    rw [same] at mine
    have eq := laid.entry_apart inode inside other mine
    subst eq
    apply (laid.mapped i inode).apart
    rw [same]
    exact getD_mem inside
  · intro x other type entry listed
    by_cases ne : x = d
    · subst ne
      rw [laid.writeEntry_list inode inside] at listed
      rcases mem_or_eq_of_mem_set listed with old | rfl
      · exact laid.entries x other type entry old
      · exact names
    · rw [laid.writeEntry_other inode inside data other ne] at listed
      exact laid.entries x other type entry listed
  · intro j other
    rw [Mount.din_setVol fun _ => rewrote.disk j (laid.writeEntry_not_inode inode inside other)]
  · intro x other outside _
    exact laid.writeEntry_other inode inside data other outside

end WriteEntry

/-! ## A new entry -/

theorem assertOk_ok {α : Type} {m : Kernel Fault Mount α} {a : α} (ran : m s = .ok a s') :
    assertOk m s = .ok () s' := by
  rw [assertOk, bind_ok (attempt_ok ran)]
  exact require_run rfl _ _

/-- The entry that `sfs_create` and `sfs_mkdir` write. -/
theorem newEntry_load (memory : Block) (small : n < 2 ^ 32) (clean : 0 ∉ name) :
    DiskEntry.load (DiskEntry.image ⟨n, name.take (maxFnameLen + 1)⟩ memory) = ⟨n, name.take maxFnameLen⟩ := by
  have read := @DiskEntry.load_image ⟨n, name.take (maxFnameLen + 1)⟩ memory small
    (fun zero => clean (mem_of_mem_take zero))
  rw [read, take_take, min_eq_left (Nat.le_succ _)]

/-- The entries of the other directories stay when an inode is added. -/
theorem Laid.addNode_kept (laid : Laid s l) (moved : s.vol.Moved v' (n :: extra) [] []) (free : s.vol.Free n) :
    Kept s (s.setVol v') l (l.add n) ∅ := by
  have new := laid.addNode_new free
  refine ⟨Set.subset_insert _ _, ?_, ?_, fun _ old => old⟩
  · intro i inode
    rw [laid.addNode_din moved inode]
  · intro x inode _ _
    have other : x ≠ n := by
      rintro rfl
      exact new inode
    rw [Mount.list, Layout.add_bs, update_of_ne other]
    apply map_congr_left
    intro t mine
    rw [Mount.setVol_vol, laid.addNode_disk moved inode (Mount.mem_owned_of_bs mine)]

/-- What is new after `sfs_create` and `sfs_mkdir`: an inode `n` without blocks, and an
entry for it at the end of the directory. Their blocks were free. -/
structure Entered (s s' : Mount) (l l' : Layout) (d n : ℕ) (name : List UInt8) (din : DiskInode) : Prop where
  laid : Laid s' l'
  kept : Kept s s' l l' {d}
  inos : l'.inos = insert n l.inos
  new : n ∉ l.inos
  list : s'.list l' d = s.list l d ++ [⟨n, name⟩]
  empty : l'.bs n = []
  made : s'.din n = din
  free : s.vol.Free n
  slot : ∃ b, l'.bs d = l.bs d ++ [b] ∧ s.vol.Free b
  others : ∀ i ∈ l.inos, i ≠ d → l'.bs i = l.bs i ∧ s'.din i = s.din i
  indirect : (s'.din d).indirect ≠ (s.din d).indirect → s.vol.Free (s'.din d).indirect
  blocks : s'.vol.super.blocks = s.vol.super.blocks
  disk : ∀ x, s.vol.InUse x → x ≠ d → x ≠ (s.din d).indirect → ¬ s.vol.IsFreemap x → s'.vol.disk x = s.vol.disk x

section NewEntry

variable {block data : Block} (laid : Laid s l) (member : d ∈ s.cached) (appended : Appended (s.ctx d) c (l.bs d) b)
  (blocks : c.sin.din.blocks = (s.ctx d).sin.din.blocks) (moved : c.vol.Moved w (n :: extra) [] [])
  (free : ∀ x ∈ n :: extra, c.vol.Free x)
include laid member appended blocks

/-- The directory has one block more, without an entry. -/
theorem Laid.addSlot_laid :
    Reshaped (s.ctx d) (addSlot c) (l.bs d) (l.bs d ++ [b]) ∧
      Laid (s.put d (addSlot c)) (l.setBs d (l.bs d ++ [b])) ∧
      (s.put d (addSlot c)).list (l.setBs d (l.bs d ++ [b])) d = s.list l d ++ [⟨0, []⟩] := by
  have inode := (laid.cached d member).1
  have mapped := laid.ctx_mapped member
  have slot : Appended (s.ctx d) (addSlot c) (l.bs d) b :=
    ⟨appended.mapped, appended.moved, appended.free, appended.fresh, appended.zero, appended.size, appended.type,
      appended.nlinks, appended.ino⟩
  have after : Mapped (addSlot c).vol (addSlot c).sin.din (l.bs d ++ [b]) := by
    have grown := appended.mapped
    rw [← blocks] at grown
    exact grown
  have reshaped := (slot.grown mapped after).1.toReshaped
  have old : ∀ t ∈ l.bs d, c.vol.disk t = s.vol.disk t := fun t mine =>
    appended.disk mapped (mapped.block mine) (.inr mine)
  have list : (s.put d (addSlot c)).list (l.setBs d (l.bs d ++ [b])) d = s.list l d ++ [⟨0, []⟩] := by
    rw [Mount.list, Layout.setBs_bs, update_self, map_append, map_singleton]
    congr 1
    · apply map_congr_left
      intro t mine
      exact congrArg DiskEntry.load (old t mine)
    · exact congrArg (fun block => [DiskEntry.load block]) appended.zero
  have size := (laid.shape d inode).size
  rw [Mount.din_cached member] at size
  refine ⟨reshaped, laid.reshape member reshaped ?_ ?_, list⟩
  · change c.sin.din.size < 2 ^ 32
    rw [appended.size]
    exact size
  · intro type t mine
    change l.Names (DiskEntry.load (c.vol.disk t))
    rcases mem_append.mp mine with before | last
    · rw [old t before]
      exact laid.entries d inode type _ (mem_map_of_mem before)
    · rw [mem_singleton.mp last, appended.zero, DiskEntry.load_zero]
      exact .inl rfl

include moved free

/-- The entry and the inode it names are written. -/
theorem Laid.newEntry {din : DiskInode} (nodup : (n :: extra).Nodup) (load : DiskInode.load block = din)
    (mapped : Mapped (w.write n block) din []) (holds : din.holds [] = extra) (shape : din.Shape)
    (entry : DiskEntry.load data = ⟨n, name⟩) :
    Entered s ((s.put d (addSlot c)).setVol ((w.write n block).write b data)) l
      ((l.setBs d (l.bs d ++ [b])).add n) d n name din := by
  obtain ⟨reshaped, first, list⟩ := laid.addSlot_laid member appended blocks
  have kept := laid.reshape_kept member reshaped
  have inode := (laid.cached d member).1
  have freeN := free n mem_cons_self
  -- the inode is written to a block that was free
  have added : (s.put d (addSlot c)).vol.Moved (w.write n block) (n :: extra) [] [] := by
    refine ⟨moved.sound.write n block, moved.blocks, moved.unused, moved.inUse, ?_⟩
    intro t used _
    have other : t ≠ n := fun same => Vol.Sound.not_free used (same ▸ freeN)
    rw [Vol.write_disk, update_of_ne other]
    exact moved.disk t used not_mem_nil
  have here : DiskInode.load ((w.write n block).disk n) = din := by
    rw [Vol.write_disk, update_self, load]
  have second := first.addNode added free nodup (by rwa [here]) (by rwa [here]) (by rwa [here])
  have also := first.addNode_kept added freeN
  have new : n ∉ l.inos := first.addNode_new freeN
  have other : d ≠ n := ne_of_mem_of_not_mem inode new
  have bs : ((l.setBs d (l.bs d ++ [b])).add n).bs d = l.bs d ++ [b] := by simp [other]
  have last : (l.bs d).length < (((l.setBs d (l.bs d ++ [b])).add n).bs d).length := by simp [bs]
  have place : (((l.setBs d (l.bs d ++ [b])).add n).bs d).getD (l.bs d).length 0 = b := by
    rw [bs, getD_concat, if_pos rfl]
  have inodeD : d ∈ ((l.setBs d (l.bs d ++ [b])).add n).inos := Set.mem_insert_of_mem _ inode
  obtain ⟨third, finished⟩ := second.writeEntry inodeD last data
    (by rw [entry]; exact .inr (Set.mem_insert _ _))
  have listed := second.writeEntry_list inodeD last data
  have notInode := second.writeEntry_not_inode inodeD last (Set.mem_insert n _)
  rw [place] at third finished listed notInode
  have dinD : ((s.put d (addSlot c)).setVol ((w.write n block).write b data)).din d = (addSlot c).sin.din := by
    rw [← show (s.put d (addSlot c)).sin d = (addSlot c).sin from update_self _ _ _]
    exact Mount.din_cached member
  refine ⟨third, (kept.trans also.weaken).trans finished, rfl, new, ?_, ?_, ?_, ?_, ⟨b, bs, appended.free⟩, ?_, ?_,
    moved.blocks.trans appended.moved.blocks, ?_⟩
  · have length : (s.list l d).length = (l.bs d).length := Mount.length_list
    have between : ((s.put d (addSlot c)).setVol (w.write n block)).list ((l.setBs d (l.bs d ++ [b])).add n) d =
        s.list l d ++ [⟨0, []⟩] := by
      rw [← list, Mount.list, Layout.add_bs, update_of_ne other]
      apply map_congr_left
      intro t mine
      rw [Mount.setVol_vol, first.addNode_disk added inode (Mount.mem_owned_of_bs mine)]
    refine listed.trans ?_
    rw [between, entry, ← length, set_append_right _ _ le_rfl, Nat.sub_self]
    rfl
  · simp
  · have absent : n ∉ s.cached := fun old => new (laid.cached n old).1
    have same : DiskInode.load (((w.write n block).write b data).disk n) = din := by
      rw [Vol.write_disk, update_of_ne notInode, here]
    rw [← same]
    exact Mount.din_uncached absent
  · exact (appended.moved.free_of laid.sound freeN).1
  · intro i old ne
    have neN : i ≠ n := ne_of_mem_of_not_mem old new
    have notEntry := second.writeEntry_not_inode inodeD last (Set.mem_insert_of_mem n old)
    rw [place] at notEntry
    refine ⟨by simp [neN, ne], ?_⟩
    rw [← laid.reshape_din member reshaped old ne, ← first.addNode_din added old]
    exact @Mount.din_setVol ((s.put d (addSlot c)).setVol (w.write n block)) _ i fun _ => by simp [notEntry]
  · rw [dinD, Mount.din_cached member]
    exact fun changed => (appended.fresh changed).2.2
  · intro x used neD neI notMap
    have still : c.vol.InUse x := appended.moved.keeps used
    have neB : x ≠ b := fun same => Vol.Sound.not_free used (same ▸ appended.free)
    have neN : x ≠ n := fun same => Vol.Sound.not_free still (same ▸ freeN)
    rw [Mount.setVol_vol, Vol.write_disk, update_of_ne neB, Vol.write_disk, update_of_ne neN,
      moved.disk x still not_mem_nil]
    apply appended.moved.disk x used
    rw [mem_singleton]
    rintro rfl
    rw [Mount.din_cached member] at neI
    exact Vol.Sound.not_free used (appended.fresh neI).2.2

end NewEntry

section Entered

variable {s'' : Mount} {din : DiskInode} (entered : Entered s s' l l' d n name din) (inode : d ∈ l.inos)
include entered inode

/-- What is done afterwards changes neither entries nor blocks that were in use. -/
theorem Entered.trans (laid : Laid s'' l') (kept : Kept s' s'' l' l' ∅) (list : s''.list l' d = s'.list l' d)
    (dins : ∀ i ∈ l'.inos, s''.din i = s'.din i) (blocks : s''.vol.super.blocks = s'.vol.super.blocks)
    (disk : ∀ x, s.vol.InUse x → x ≠ d → ¬ s.vol.IsFreemap x → s''.vol.disk x = s'.vol.disk x) :
    Entered s s'' l l' d n name din := by
  have new : n ∈ l'.inos := by simp [entered.inos]
  refine { entered with
    laid := laid
    kept := entered.kept.trans kept.weaken
    list := list.trans entered.list
    made := (dins n new).trans entered.made
    others := fun i old ne => ?_
    indirect := ?_
    blocks := blocks.trans entered.blocks
    disk := fun x used neD neI notMap => (disk x used neD notMap).trans (entered.disk x used neD neI notMap) }
  · rw [dins i (entered.kept.inos old)]
    exact entered.others i old ne
  · rw [dins d (entered.kept.inos inode)]
    exact entered.indirect

/-- The new inode is loaded. -/
theorem Entered.loaded (loaded : Loaded s' s'' n) : Entered s s'' l l' d n name din := by
  have there : n ∈ l'.inos := by simp [entered.inos]
  exact entered.trans inode (entered.laid.loaded loaded there) loaded.kept (loaded.list d)
    (fun i _ => loaded.din i) (by rw [loaded.vol]) fun x _ _ _ => by rw [loaded.vol]

/-- What is written back changes no entry. -/
theorem Entered.settled (settled : Settled s' s'' l' (s'.synced d)) : Entered s s'' l l' d n name din := by
  refine entered.trans inode settled.laid settled.kept (settled.list d (entered.kept.inos inode)) settled.din
    (by rw [settled.rewrote.super]) fun x used neD notMap => settled.rewrote.disk x ?_
  rintro (same | super | map)
  · exact neD same
  · exact used.1.1 super
  · apply notMap
    unfold Vol.IsFreemap
    rw [← entered.blocks]
    exact map

end Entered

/-! ## Creating files and directories -/

/-- What is created. -/
inductive Kind where
  | file
  | dir

namespace Kind

/-- `sfs_create` or `sfs_mkdir`, with the return code. -/
def make : Kind → ℕ → List UInt8 → Leftover → Kernel Fault Mount ℤ
  | .file, d, name, left => do
    let made ← sfsCreate d name left
    pure made.1
  | .dir, d, name, left => sfsMkdir d name left

/-- The blocks of a new object: its inode, and the indirect block of a directory. -/
def size : Kind → ℕ
  | .file => 1
  | .dir => 2

/-- The inode of a new object whose other blocks are those of `extra`. -/
def Empty : Kind → DiskInode → List ℕ → Prop
  | .file, din, extra => din = newFile ∧ extra = []
  | .dir, din, extra => ∃ m, din = newDir m ∧ extra = [m]

end Kind

/-- A block for an inode. -/
theorem Vol.Sound.alloc (sound : v.Sound) (anyLeft : 0 < v.super.unusedBlocks) :
    ∃ n w, sfsBlockAlloc v = .ok n w ∧ v.Free n ∧ v.Took w n := by
  rcases sfsBlockAlloc_cases sound with ⟨n, w, ran, free, took⟩ | ⟨-, full⟩
  · exact ⟨n, w, ran, free, took⟩
  · have none := sound.full full
    omega

section Create

variable (laid : Laid s l) (member : d ∈ s.cached)
include laid member

/-- The block for the entry. The kernel stops if the map of the directory is full. -/
theorem Laid.newSlot_cases (space : (s.sin d).din.growth ≤ s.vol.super.unusedBlocks) :
    (∃ b c, onNode d (sfsBmapGetNolock (s.sin d).din.blocks true) s = .ok b (s.put d c) ∧
      Appended (s.ctx d) c (l.bs d) b ∧ c.sin.din.blocks = (s.ctx d).sin.din.blocks ∧
      s.vol.super.unusedBlocks ≤ c.vol.super.unusedBlocks + (s.sin d).din.growth) ∨
    (onNode d (sfsBmapGetNolock (s.sin d).din.blocks true) s = .fault .indexOutOfRange ∧
      ndirect + blkNentry ≤ (l.bs d).length) := by
  have mapped := laid.ctx_mapped member
  have blocks : (s.sin d).din.blocks = (l.bs d).length := mapped.blocks
  by_cases room : (l.bs d).length < ndirect + blkNentry
  · left
    rcases sfsBmapGetNolock_new laid.sound mapped room with ⟨b, c, ran, appended, same⟩ | ⟨c, -, refused⟩
    · rw [← blocks] at ran
      refine ⟨b, c, onNode_ok ran, appended, same, ?_⟩
      have count := appended.moved.unused
      change c.vol.super.unusedBlocks + _ = s.vol.super.unusedBlocks + 0 at count
      by_cases kept : c.sin.din.indirect = (s.ctx d).sin.din.indirect
      · rw [if_pos kept, length_singleton] at count
        have one : 1 ≤ (s.sin d).din.growth := by
          unfold DiskInode.growth
          split <;> omega
        omega
      · obtain ⟨none, many, -⟩ := appended.fresh kept
        have two : (s.sin d).din.growth = 2 := if_pos ⟨many, none⟩
        rw [if_neg kept, length_cons, length_singleton] at count
        omega
    · exact absurd refused.full (Nat.not_lt.mpr space)
  · right
    have stopped : bmapPointer (s.sin d).din.blocks true (s.ctx d) = .fault .indexOutOfRange := by
      have most := mapped.most
      unfold ndirect at room most
      rw [blocks, bmapPointer, get_bind_run, dif_neg (by omega), if_neg (by unfold ndirect; omega)]
      rfl
    exact ⟨zoom_fault (by rw [sfsBmapGetNolock, bind_fault stopped]), not_lt.mp room⟩

variable (dir : (s.din d).type = typeDir)
include dir

omit laid member dir in
theorem Mount.addSlot_put (v : Vol) :
    onNode d (modify addSlot) ((s.put d c).setVol v) = .ok () ((s.put d (addSlot c)).setVol v) := by
  have ran : (modify addSlot : Kernel Fault Ctx Unit) ⟨v, update s.sin d c.sin d⟩ =
      .ok () ⟨v, (addSlot c).sin⟩ := by
    rw [update_self]
    rfl
  refine (onNode_ok ran).trans ?_
  congr 1
  exact congrArg (Mount.mk v s.cached) (update_idem _ _ _)

omit laid member dir in
/-- The slot of the directory may be counted before or after the new inode is loaded. -/
theorem Mount.addSlot_comm (other : d ≠ n) (v : Vol) (sin : SfsInode) :
    onNode d (modify addSlot) { (s.put d c).setVol v with
      cached := n :: s.cached, sin := update (s.put d c).sin n sin } =
    .ok () { (s.put d (addSlot c)).setVol v with
      cached := n :: s.cached, sin := update (s.put d (addSlot c)).sin n sin } := by
  have here : update (update s.sin d c.sin) n sin d = c.sin := by
    rw [update_of_ne other, update_self]
  have same : update (update (update s.sin d c.sin) n sin) d (addSlot c).sin =
      update (update s.sin d (addSlot c).sin) n sin := by
    rw [update_comm other.symm, update_idem]
  have ran : (modify addSlot : Kernel Fault Ctx Unit) ⟨v, update (update s.sin d c.sin) n sin d⟩ =
      .ok () ⟨v, (addSlot c).sin⟩ := by
    rw [here]
    rfl
  refine (onNode_ok ran).trans ?_
  congr 1
  exact congrArg (Mount.mk v (n :: s.cached)) same

omit laid member dir in
/-- The blocks of the entry and of the inode are written, in the order of the code. -/
theorem Vol.Moved.writes {block data : Block} (moved : c.vol.Moved w (n :: extra) [] [])
    (appended : Appended (s.ctx d) c (l.bs d) b) (free : c.vol.Free n) :
    sfsWblock data b 1 w = .ok () (w.write b data) ∧
      sfsWblock block n 1 (w.write b data) = .ok () ((w.write n block).write b data) := by
  have usedN : w.InUse n := (moved.inUse n).mpr (.inr mem_cons_self)
  have usedB : w.InUse b := moved.keeps appended.inUse
  have apart : b ≠ n := fun same => Vol.Sound.not_free appended.inUse (same ▸ free)
  refine ⟨sfsWblock_run moved.sound.device usedB.1, ?_⟩
  have wrote : (w.write b data).write n block = (w.write n block).write b data := by
    rw [Vol.write, Vol.write, Vol.write, Vol.write, update_comm apart]
  rw [← wrote]
  exact sfsWblock_run moved.sound.device usedN.1

/-- `sfs_create` with blocks for the entry and the inode. The kernel stops if the map of the
directory is full. -/
theorem Laid.create_cases (clean : 0 ∉ name) (space : (s.sin d).din.growth < s.vol.super.unusedBlocks) :
    (∃ n s' l', sfsCreate d name left s = .ok (0, some n) s' ∧
      Entered s s' l l' d n (name.take maxFnameLen) newFile) ∨
    (sfsCreate d name left s = .fault .indexOutOfRange ∧ ndirect + blkNentry ≤ (l.bs d).length) := by
  have inode := (laid.cached d member).1
  have type : ¬ (s.sin d).din.type ≠ typeDir := by
    rw [← Mount.din_cached member]
    exact not_not.mpr dir
  rw [sfsCreate, get_bind_run, if_neg type]
  rcases laid.newSlot_cases member space.le with ⟨b, c, slot, appended, blocks, count⟩ | ⟨stopped, full⟩
  · left
    obtain ⟨n, w, ran, free, took⟩ := appended.sound.alloc (by omega)
    have moved := took.moved appended.sound free
    have freed : ∀ x ∈ [n], c.vol.Free x := forall_mem_singleton.mpr free
    have small : n < 2 ^ 32 := (appended.sound.free n free).2.trans_le appended.sound.small
    have entry := newEntry_load left.entry small clean
    have load := newFile_load left.inode
    obtain ⟨data, writes⟩ : ∃ data, DiskEntry.image ⟨n, name.take (maxFnameLen + 1)⟩ left.entry = data := ⟨_, rfl⟩
    obtain ⟨block, image⟩ : ∃ block, inodeBlock newFile left.inode = block := ⟨_, rfl⟩
    rw [writes] at entry
    rw [image] at load
    have mapped : Mapped (w.write n block) newFile [] :=
      ⟨rfl, fun _ => rfl, fun _ => Nat.zero_le _, fun there => absurd rfl there, Nat.zero_le _,
        fun x none => absurd none not_mem_nil, List.nodup_nil⟩
    have entered := laid.newEntry member appended blocks moved freed (nodup_singleton n) load mapped rfl
      ⟨by decide, by decide, by decide, by decide⟩ entry
    have absent : n ∉ s.cached := fun old => entered.new (laid.cached n old).1
    have apart : n ≠ b := fun same => Vol.Sound.not_free appended.inUse (same ▸ free)
    obtain ⟨first, second⟩ := moved.writes appended free
    have there : DiskInode.load (((w.write n block).write b data).disk n) = newFile := by simp [apart, load]
    have loads := @sfsLoadInode_fresh ((s.put d c).setVol ((w.write n block).write b data)) n newFile absent
      ((moved.sound.write n block).write b data) ((moved.inUse n).mpr (.inr mem_cons_self)) there (by decide)
      (by decide)
    -- the directory is changed in memory after the new inode is there
    have slotted := @Mount.addSlot_comm s d n c (ne_of_mem_of_not_mem inode entered.new)
      ((w.write n block).write b data) ⟨newFile, n, false⟩
    have loaded := @Loaded.fresh ((s.put d (addSlot c)).setVol ((w.write n block).write b data)) n absent
    rw [Mount.setVol_vol, there] at loaded
    have still := entered.loaded inode loaded
    obtain ⟨s', flushed, settled⟩ := still.laid.flush ((loaded.cached d).mpr (.inr member))
    refine ⟨n, s', _, ?_, still.settled inode settled⟩
    rw [bind_ok (attempt_ok slot)]
    rw [bind_ok (attempt_ok (onVolume_ok ran))]
    dsimp only [stored]
    rw [writes, image, bind_ok (assertOk_ok (onVolume_ok first)), bind_ok (assertOk_ok (onVolume_ok second))]
    refine (bind_ok (attempt_ok loads)).trans ?_
    refine (bind_ok slotted).trans ?_
    exact bind_ok flushed
  · right
    exact ⟨bind_fault (by rw [attempt, stopped]), full⟩

/-- `sfs_mkdir` with blocks for the entry, the inode and its indirect block. The new directory
has no entries. -/
theorem Laid.mkdir_cases (clean : 0 ∉ name) (space : (s.sin d).din.growth + 1 < s.vol.super.unusedBlocks) :
    (∃ n s' l', sfsMkdir d name left s = .ok 0 s' ∧
      ∃ m, Entered s s' l l' d n (name.take maxFnameLen) (newDir m) ∧ s.vol.Free m) ∨
    (sfsMkdir d name left s = .fault .indexOutOfRange ∧ ndirect + blkNentry ≤ (l.bs d).length) := by
  have inode := (laid.cached d member).1
  have type : ¬ (s.sin d).din.type ≠ typeDir := by
    rw [← Mount.din_cached member]
    exact not_not.mpr dir
  rw [sfsMkdir, get_bind_run, if_neg type]
  rcases laid.newSlot_cases member (by omega) with ⟨b, c, slot, appended, blocks, count⟩ | ⟨stopped, full⟩
  · left
    obtain ⟨n, u, ran, free, took⟩ := appended.sound.alloc (by omega)
    have one := took.moved appended.sound free
    have countLeft := one.unused
    rw [length_singleton, length_nil] at countLeft
    obtain ⟨m, w, ran', free', took'⟩ := one.sound.alloc (by omega)
    have two := took'.moved one.sound free'
    have moved : c.vol.Moved w [n, m] [] [] := one.trans two (by simp)
    obtain ⟨freeM, ne⟩ := took.free_iff.mp free'
    have freed : ∀ x ∈ [n, m], c.vol.Free x := by simp [free, freeM]
    have small : ∀ x, c.vol.Free x → x < 2 ^ 32 := fun x is =>
      (appended.sound.free x is).2.trans_le appended.sound.small
    have usedM : w.InUse m := took'.inUse (one.sound.free m free')
    have entry := newEntry_load left.entry (small n free) clean
    have load := newDir_load left.inode (small m freeM)
    obtain ⟨data, writes⟩ : ∃ data, DiskEntry.image ⟨n, name.take (maxFnameLen + 1)⟩ left.entry = data := ⟨_, rfl⟩
    obtain ⟨block, image⟩ : ∃ block, inodeBlock (newDir m) left.inode = block := ⟨_, rfl⟩
    rw [writes] at entry
    rw [image] at load
    have holds : (newDir m).holds [] = [m] := if_neg usedM.1.1
    have mapped : Mapped (w.write n block) (newDir m) [] := by
      refine ⟨rfl, fun _ => rfl, fun _ => Nat.zero_le _, ?_, Nat.zero_le _, ?_, ?_⟩
      · intro _ j _
        have zero : (w.write n block).disk (newDir m).indirect = zeroBlock := by
          change update w.disk n block m = zeroBlock
          rw [update_of_ne ne, took'.disk, update_self]
        rw [zero]
        rfl
      · rw [holds]
        exact forall_mem_singleton.mpr usedM
      · simp [holds]
    have nodup : [n, m].Nodup := by simp [Ne.symm ne]
    have entered := laid.newEntry member appended blocks moved freed nodup load mapped holds
      ⟨show 4096 < 2 ^ 32 by decide, show typeDir < 2 ^ 16 by decide, show 1 < 2 ^ 16 by decide, Nat.one_ne_zero⟩ entry
    obtain ⟨first, second⟩ := moved.writes appended free
    obtain ⟨s', flushed, settled⟩ := entered.laid.flush member
    have before := (appended.moved.free_of laid.sound freeM).1
    refine ⟨n, s', _, ?_, m, entered.settled inode settled, before⟩
    rw [bind_ok (attempt_ok slot)]
    rw [bind_ok (attempt_ok (onVolume_ok ran)), bind_ok (attempt_ok (onVolume_ok ran'))]
    dsimp only [stored]
    rw [writes, image]
    refine (bind_ok (@Mount.addSlot_put s d c w)).trans ?_
    rw [bind_ok (attempt_ok (onVolume_ok first)), bind_ok (attempt_ok (onVolume_ok second))]
    exact flushed
  · right
    exact ⟨bind_fault (by rw [attempt, stopped]), full⟩

/-- `sfs_create` or `sfs_mkdir` with the blocks it needs. -/
theorem Laid.make_cases (kind : Kind) (clean : 0 ∉ name)
    (space : (s.sin d).din.growth + kind.size ≤ s.vol.super.unusedBlocks) :
    (∃ n s' l' extra, kind.make d name left s = .ok 0 s' ∧
      Entered s s' l l' d n (name.take maxFnameLen) (s'.din n) ∧ kind.Empty (s'.din n) extra ∧
      ∀ m ∈ extra, s.vol.Free m) ∨
    (kind.make d name left s = .fault .indexOutOfRange ∧ ndirect + blkNentry ≤ (l.bs d).length) := by
  cases kind with
  | file =>
    rw [Kind.make]
    rcases laid.create_cases member dir clean space with
      ⟨n, s', l', ran, entered⟩ | ⟨stopped, full⟩
    · have object := entered.made
      rw [← object] at entered
      refine .inl ⟨n, s', l', [], ?_, entered, ⟨object, rfl⟩, fun m none => absurd none not_mem_nil⟩
      rw [bind_ok ran]
      rfl
    · exact .inr ⟨bind_fault stopped, full⟩
  | dir =>
    rcases laid.mkdir_cases member dir clean space with
      ⟨n, s', l', ran, m, entered, freeM⟩ | ⟨stopped, full⟩
    · have object := entered.made
      rw [← object] at entered
      refine .inl ⟨n, s', l', [m], ran, entered, ⟨m, object, rfl⟩, ?_⟩
      intro x same
      rw [mem_singleton.mp same]
      exact freeM
    · exact .inr ⟨stopped, full⟩

end Create

/-! ## Renaming -/

/-- The entry in slot `k` of directory `d` is `entry` now, and nothing else has changed. -/
structure Replaced (s s' : Mount) (l : Layout) (d k : ℕ) (entry : DiskEntry) : Prop where
  laid : Laid s' l
  kept : Kept s s' l l {d}
  list : s'.list l d = (s.list l d).set k entry

section Rename

variable {entry : DiskEntry} {newName : List UInt8} (laid : Laid s l) (member : d ∈ s.cached)
include laid member

/-- The part of `sfs_rename` behind the search. -/
theorem Laid.rename_found (clean : 0 ∉ newName) (found : Found (s.list l d) name k entry)
    (loaded : i ∈ s.cached) :
    ∃ s', (do
      let index ← attempt (onNode d (sfsBmapLoadNolock k))
      let inoEntryIndex := stored left.index index
      let s ← get
      let data := DiskEntry.image ⟨(s.sin i).ino, newName.take 255⟩ left.entry
      let _ ← attempt (onVolume (sfsClearBlock inoEntryIndex 1))
      let wrote ← attempt (onVolume (sfsWblock data inoEntryIndex 1))
      onNode d (modify Ctx.setDirty)
      let _ ← attempt (onNode d sfsFsync)
      pure (code wrote) : Kernel Fault Mount ℤ) s = .ok 0 s' ∧
      Replaced s s' l d k ⟨i, newName.take maxFnameLen⟩ := by
  obtain ⟨inode, -⟩ := laid.cached d member
  obtain ⟨named, number⟩ := laid.cached i loaded
  have mapped := laid.ctx_mapped member
  have inside : k < (l.bs d).length := by
    rw [← @Mount.length_list s l]
    exact (List.getElem?_eq_some_iff.mp found.here).1
  have used := mapped.nth inside
  have small : i < 2 ^ 32 := (laid.inUse named Mount.self_mem_owned).1.2.trans_le laid.sound.small
  obtain ⟨data, writes⟩ : ∃ data, DiskEntry.image ⟨i, newName.take 255⟩ left.entry = data := ⟨_, rfl⟩
  have read : DiskEntry.load data = ⟨i, newName.take maxFnameLen⟩ := by
    have image := @DiskEntry.load_image ⟨i, newName.take 255⟩ left.entry small
      (fun zero => clean (mem_of_mem_take zero))
    rw [← writes, image, take_take]
    rfl
  obtain ⟨b, place⟩ : ∃ b, (l.bs d).getD k 0 = b := ⟨_, rfl⟩
  obtain ⟨first, kept⟩ := laid.writeEntry inode inside data (by rw [read]; exact .inr named)
  have list := laid.writeEntry_list inode inside data
  have slot : onNode d (sfsBmapLoadNolock k) s = .ok b s := by
    rw [onNode_ok (sfsBmapLoadNolock_old laid.sound mapped inside), Mount.put_ctx, place]
  rw [place] at first kept list used
  rw [read] at list
  have cleared := sfsClearBlock_run laid.sound.device used.1
  have wrote := @sfsWblock_run (s.vol.write b zeroBlock) b data laid.sound.device used.1
  have twice : (s.vol.write b zeroBlock).write b data = s.vol.write b data := by
    rw [Vol.write, Vol.write, update_idem]
    rfl
  rw [twice] at wrote
  have marks := first.setFlag member true
  obtain ⟨s', synced, settled, flag⟩ := marks.laid.fsync member
  have after := marks.trans settled
  refine ⟨s', ?_, settled.laid, kept.trans after.kept.weaken, ?_⟩
  · rw [bind_ok (attempt_ok slot)]
    dsimp only [stored]
    rw [get_bind_run, number, writes, bind_ok (attempt_ok (onVolume_ok cleared)),
      bind_ok (attempt_ok (onVolume_ok wrote))]
    have marked : onNode d (modify Ctx.setDirty) (s.setVol (s.vol.write b data)) =
        .ok () ((s.setVol (s.vol.write b data)).put d ⟨s.vol.write b data, { s.sin d with dirty := true }⟩) := rfl
    refine (bind_ok marked).trans ?_
    refine (bind_ok (attempt_ok synced)).trans ?_
    rfl
  · rw [← list]
    exact after.list d inode

/-- `sfs_rename`. -/
theorem Laid.rename_cases (dir : (s.din d).type = typeDir) (short : name.length ≤ maxFnameLen) (clean : 0 ∉ newName) :
    (∃ k entry s', Found (s.list l d) name k entry ∧ sfsRename d name newName left s = .ok 0 s' ∧
      Replaced s s' l d k ⟨entry.ino, newName.take maxFnameLen⟩) ∨
    (Missing (s.list l d) name ∧ sfsRename d name newName left s = .err (-eNoent) s) ∨
    sfsRename d name newName left s = .fault .invalidType := by
  have type : ¬ (s.sin d).din.type ≠ typeDir := by
    rw [← Mount.din_cached member]
    exact not_not.mpr dir
  rw [sfsRename, get_bind_run, if_neg type]
  rcases laid.lookupOnce_cases member dir short with
    ⟨k, entry, t, found, ran, loaded⟩ | ⟨missing, ran⟩ | ⟨k, entry, -, ran, -⟩
  · left
    have again := laid.loaded loaded (laid.found_inode member dir found)
    rw [← loaded.list] at found
    obtain ⟨s', rest, replaced⟩ := again.rename_found ((loaded.cached d).mpr (.inr member)) clean found
      loaded.mem
    rw [loaded.list] at found
    refine ⟨k, entry, s', found, ?_, replaced.laid, loaded.kept.weaken.trans replaced.kept, ?_⟩
    · rw [bind_ok ran]
      exact rest
    · rw [replaced.list, loaded.list]
  · right
    left
    exact ⟨missing, bind_err ran⟩
  · right
    right
    exact bind_fault ran

end Rename

/-! ## Looking up -/

/-- `sfs_lookup`. -/
theorem Laid.lookup_cases (laid : Laid s l) (member : d ∈ s.cached) (short : name.length ≤ maxFnameLen) :
    (∃ k entry s', Found (s.list l d) name k entry ∧ sfsLookup d name s = .ok entry.ino s' ∧
      Loaded s s' entry.ino ∧ entry.ino ∈ l.inos) ∨
    (∃ e, sfsLookup d name s = .err e s) ∨ (∃ reason, sfsLookup d name s = .fault reason) := by
  rw [sfsLookup]
  by_cases path : name ≠ [] ∧ name.head? ≠ some 47
  · rw [require_bind_run path, get_bind_run]
    split_ifs with type
    · exact .inr (.inl ⟨_, rfl⟩)
    · have dir : (s.din d).type = typeDir := by
        rw [Mount.din_cached member]
        exact not_not.mp type
      rcases laid.lookupOnce_cases member dir short with
        ⟨k, entry, t, found, ran, loaded⟩ | ⟨-, ran⟩ | ⟨k, entry, -, ran, -⟩
      · rw [bind_ok ran]
        exact .inl ⟨k, entry, t, found, rfl, loaded, laid.found_inode member dir found⟩
      · exact .inr (.inl ⟨_, bind_err ran⟩)
      · exact .inr (.inr ⟨_, bind_fault ran⟩)
  · rw [require_bind_fault path]
    exact .inr (.inr ⟨_, rfl⟩)

end LiNos.Fs
