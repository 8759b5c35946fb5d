import Mathlib.Data.Set.Insert
import LiNos.SfsNodes
import LiNos.SfsTransfer

/-!
Which block of a mounted volume belongs to what.

An inode owns its own block, the blocks of its map and its indirect block. `Laid` says that
the blocks in use are those of the free map and those of the inodes, that no block has two
owners, and that every directory entry is empty or names an inode. What the operations do
to a volume is put together from three things that keep it: one inode gets other blocks,
blocks are rewritten, and a new inode is added.
-/

namespace LiNos.Fs

open Kernel LittleEndian Function List

/-- The inode `i` as it is: in memory, or else on the disk. -/
def Mount.din (s : Mount) (i : ℕ) : DiskInode :=
  if i ∈ s.cached then (s.sin i).din else DiskInode.load (s.vol.disk i)

/-- The numbers of the inodes, and for each of them the list of its blocks. -/
structure Layout where
  inos : Set ℕ
  bs : ℕ → List ℕ

namespace Layout

/-- Inode `i` has the blocks of `bs`. -/
@[simps -fullyApplied] def setBs (l : Layout) (i : ℕ) (bs : List ℕ) : Layout :=
  { l with bs := update l.bs i bs }

/-- A new inode without blocks. -/
@[simps -fullyApplied] def add (l : Layout) (n : ℕ) : Layout := ⟨insert n l.inos, update l.bs n []⟩

end Layout

/-- The blocks that belong to inode `i`. -/
def Mount.owned (s : Mount) (l : Layout) (i : ℕ) : List ℕ := i :: (s.din i).holds (l.bs i)

/-- The entries of a directory, slot by slot. -/
def Mount.list (s : Mount) (l : Layout) (d : ℕ) : List DiskEntry :=
  (l.bs d).map fun b => DiskEntry.load (s.vol.disk b)

/-- A block of the free map on the disk. -/
def Vol.IsFreemap (v : Vol) (b : ℕ) : Prop :=
  blknFreemap ≤ b ∧ b < blknFreemap + roundupDiv v.super.blocks blkBits

/-- What does not follow from the block map: the fields have the widths of the C structure,
and the inode is linked. -/
structure DiskInode.Shape (din : DiskInode) : Prop where
  size : din.size < 2 ^ 32
  type : din.type < 2 ^ 16
  nlinks : din.nlinks < 2 ^ 16
  linked : din.nlinks ≠ 0

/-- An entry that is empty or names an inode. -/
def Layout.Names (l : Layout) (entry : DiskEntry) : Prop := entry.ino = 0 ∨ entry.ino ∈ l.inos

/-- A consistently mounted volume. -/
structure Laid (s : Mount) (l : Layout) : Prop where
  sound : s.vol.Sound
  root : blknRoot ∈ l.inos
  nodup : ∀ i ∈ l.inos, (s.owned l i).Nodup
  apart : ∀ i ∈ l.inos, ∀ j ∈ l.inos, ∀ b ∈ s.owned l i, b ∈ s.owned l j → i = j
  used : ∀ b, s.vol.InUse b ↔ s.vol.IsFreemap b ∨ ∃ i ∈ l.inos, b ∈ s.owned l i
  clear : ∀ i ∈ l.inos, ∀ b ∈ s.owned l i, ¬ s.vol.IsFreemap b
  mapped : ∀ i ∈ l.inos, Mapped s.vol (s.din i) (l.bs i)
  shape : ∀ i ∈ l.inos, (s.din i).Shape
  cached : ∀ i ∈ s.cached, i ∈ l.inos ∧ (s.sin i).ino = i
  entries : ∀ d ∈ l.inos, (s.din d).type = typeDir → ∀ entry ∈ s.list l d, l.Names entry

variable {s s' : Mount} {l l' : Layout} {v v' : Vol} {i j b n : ℕ} {bs' extra : List ℕ} {c c' : Ctx}

/-! ## What belongs to an inode -/

theorem Mount.din_cached (member : i ∈ s.cached) : s.din i = (s.sin i).din := if_pos member

theorem Mount.din_uncached (absent : i ∉ s.cached) : s.din i = DiskInode.load (s.vol.disk i) := if_neg absent

/-- An inode does not change with the rest of the volume. -/
theorem Mount.din_setVol (same : i ∉ s.cached → v.disk i = s.vol.disk i) : (s.setVol v).din i = s.din i := by
  by_cases member : i ∈ s.cached
  · rw [Mount.din_cached member]
    exact Mount.din_cached member
  · rw [Mount.din_uncached member, ← same member]
    exact Mount.din_uncached member

theorem Mount.mem_owned : b ∈ s.owned l i ↔ b = i ∨ b ∈ (s.din i).holds (l.bs i) := mem_cons

theorem Mount.mem_owned_of_bs (member : b ∈ l.bs i) : b ∈ s.owned l i :=
  Mount.mem_owned.mpr (.inr (mem_append_left _ member))

theorem Mount.self_mem_owned : i ∈ s.owned l i := mem_cons_self

theorem Mount.indirect_mem_owned (there : (s.din i).indirect ≠ 0) : (s.din i).indirect ∈ s.owned l i := by
  rw [Mount.mem_owned, DiskInode.holds, if_neg there]
  exact .inr (mem_append_right _ (mem_singleton_self _))

namespace Laid

variable (laid : Laid s l)
include laid

theorem inUse (inode : i ∈ l.inos) (member : b ∈ s.owned l i) : s.vol.InUse b :=
  (laid.used b).mpr (.inr ⟨i, inode, member⟩)

theorem not_free (inode : i ∈ l.inos) (member : b ∈ s.owned l i) : ¬ s.vol.Free b :=
  Vol.Sound.not_free (laid.inUse inode member)

/-- A block of one inode is not among those another one holds. -/
theorem not_held (inode : i ∈ l.inos) (other : j ∈ l.inos) (ne : j ≠ i) (member : b ∈ s.owned l j) :
    b ∉ (s.din i).holds (l.bs i) := fun held =>
  ne (laid.apart j other i inode b member (Mount.mem_owned.mpr (.inr held)))

/-- The block of an inode is not among those it holds. -/
theorem self_not_held (inode : i ∈ l.inos) : i ∉ (s.din i).holds (l.bs i) :=
  (nodup_cons.mp (laid.nodup i inode)).1

end Laid

/-! ## Blocks are rewritten -/

/-- Only the contents of the blocks in `touched` have changed, and the dirty flag. -/
structure Vol.Rewrote (v v' : Vol) (touched : Set ℕ) : Prop where
  super : v'.super = v.super
  freemap : v'.freemap = v.freemap
  outcomes : v'.outcomes = v.outcomes
  disk : ∀ b, b ∉ touched → v'.disk b = v.disk b

namespace Vol.Rewrote

variable {touched also : Set ℕ}

theorem refl (v : Vol) : v.Rewrote v ∅ := ⟨rfl, rfl, rfl, fun _ _ => rfl⟩

theorem of_write (v : Vol) (b : ℕ) (data : Block) : v.Rewrote (v.write b data) {b} := by
  refine ⟨rfl, rfl, rfl, ?_⟩
  intro t outside
  rw [write_disk, update_of_ne (by simpa using outside)]

theorem trans {w : Vol} (first : v.Rewrote v' touched) (second : v'.Rewrote w also) :
    v.Rewrote w (touched ∪ also) := by
  refine ⟨second.super.trans first.super, second.freemap.trans first.freemap,
    second.outcomes.trans first.outcomes, ?_⟩
  intro t outside
  rw [Set.mem_union, not_or] at outside
  exact (second.disk t outside.2).trans (first.disk t outside.1)

theorem mono (rewrote : v.Rewrote v' touched) (wider : touched ⊆ also) : v.Rewrote v' also :=
  ⟨rewrote.super, rewrote.freemap, rewrote.outcomes, fun t outside => rewrote.disk t fun inside =>
    outside (wider inside)⟩

variable (rewrote : v.Rewrote v' touched)
include rewrote

theorem inUse_iff : v'.InUse b ↔ v.InUse b := by
  unfold InUse Valid
  rw [rewrote.super, rewrote.freemap]

theorem free_iff : v'.Free b ↔ v.Free b := by
  unfold Free
  rw [rewrote.freemap]

theorem isFreemap_iff : v'.IsFreemap b ↔ v.IsFreemap b := by
  unfold IsFreemap
  rw [rewrote.super]

theorem sound (sound : v.Sound) : v'.Sound := by
  refine ⟨rewrote.outcomes.trans sound.device, ?_, ?_, ?_, ?_, ?_⟩
  · rw [rewrote.freemap]
    exact sound.words
  · rw [rewrote.freemap, rewrote.super]
    exact sound.covered
  · intro b free
    have valid := sound.free b (rewrote.free_iff.mp free)
    unfold Valid at *
    rw [rewrote.super]
    exact valid
  · unfold freeCount
    rw [rewrote.freemap, rewrote.super]
    exact sound.unused
  · rw [rewrote.super]
    exact sound.small

end Vol.Rewrote

/-- A map is kept when its indirect block is. -/
theorem Mapped.rewrote {touched : Set ℕ} {din : DiskInode} {bs : List ℕ} (mapped : Mapped v din bs)
    (rewrote : v.Rewrote v' touched) (alone : din.indirect ≠ 0 → din.indirect ∉ touched) : Mapped v' din bs := by
  refine ⟨mapped.blocks, mapped.direct, mapped.few, ?_, mapped.most, ?_, mapped.nodup⟩
  · intro there k inside
    rw [rewrote.disk _ (alone there)]
    exact mapped.entries there k inside
  · intro b member
    exact rewrote.inUse_iff.mpr (mapped.used b member)

/-- The volume is rewritten where no inode outside memory, no indirect block and no named
entry is lost. -/
theorem Laid.rewrote {touched : Set ℕ} (laid : Laid s l) (rewrote : s.vol.Rewrote v' touched)
    (inodes : ∀ i ∈ l.inos, i ∉ s.cached → i ∉ touched)
    (indirects : ∀ i ∈ l.inos, (s.din i).indirect ≠ 0 → (s.din i).indirect ∉ touched)
    (entries : ∀ d ∈ l.inos, (s.din d).type = typeDir → ∀ entry ∈ (s.setVol v').list l d, l.Names entry) :
    Laid (s.setVol v') l := by
  have din : ∀ i ∈ l.inos, (s.setVol v').din i = s.din i := by
    intro i inode
    exact Mount.din_setVol fun absent => rewrote.disk i (inodes i inode absent)
  have owned : ∀ i ∈ l.inos, (s.setVol v').owned l i = s.owned l i := by
    intro i inode
    rw [Mount.owned, din i inode, Mount.owned]
  have map : ∀ b, v'.IsFreemap b ↔ s.vol.IsFreemap b := fun b => rewrote.isFreemap_iff
  have used := laid.used
  have apart := laid.apart
  have clear := laid.clear
  refine ⟨rewrote.sound laid.sound, laid.root, ?_, by grind, ?_, ?_, ?_, ?_, laid.cached, ?_⟩
  · exact fun i inode => owned i inode ▸ laid.nodup i inode
  · intro b
    rw [Mount.setVol_vol, rewrote.inUse_iff, map]
    grind
  · intro i inode b member
    rw [Mount.setVol_vol, map]
    grind
  · intro i inode
    rw [din i inode]
    exact (laid.mapped i inode).rewrote rewrote (indirects i inode)
  · exact fun i inode => din i inode ▸ laid.shape i inode
  · exact fun d inode type => entries d inode (din d inode ▸ type)

/-! ## One inode gets other blocks -/

section Reshape

variable (laid : Laid s l) (member : i ∈ s.cached) (reshaped : Reshaped (s.ctx i) c' (l.bs i) bs')
include laid member reshaped

/-- A block of another inode is as it was. -/
theorem Laid.reshape_disk (other : j ∈ l.inos) (ne : j ≠ i) (owned : b ∈ s.owned l j) :
    c'.vol.disk b = s.vol.disk b := by
  have inode := (laid.cached i member).1
  apply reshaped.disk b (laid.inUse other owned)
  have apart := laid.not_held inode other ne owned
  rw [Mount.din_cached member] at apart
  exact apart

theorem Laid.reshape_din (other : j ∈ l.inos) (ne : j ≠ i) : (s.put i c').din j = s.din j := by
  by_cases cached : j ∈ s.cached
  · rw [Mount.din_cached cached]
    have same : (s.put i c').din j = (update s.sin i c'.sin j).din := Mount.din_cached cached
    rw [same, update_of_ne ne]
  · rw [Mount.din_uncached cached, ← laid.reshape_disk member reshaped other ne Mount.self_mem_owned]
    exact Mount.din_uncached cached

omit laid reshaped in
theorem Mount.put_din : (s.put i c').din i = c'.sin.din := by
  have same : (s.put i c').din i = (update s.sin i c'.sin i).din := Mount.din_cached member
  rw [same, update_self]

theorem Laid.reshape (size : c'.sin.din.size < 2 ^ 32)
    (entries : (s.din i).type = typeDir → ∀ b ∈ bs', l.Names (DiskEntry.load (c'.vol.disk b))) :
    Laid (s.put i c') (l.setBs i bs') := by
  obtain ⟨inode, number⟩ := laid.cached i member
  have here := @Mount.put_din s i c' member
  have din := s.din_cached member
  have held : (s.ctx i).sin.din.holds (l.bs i) = (s.din i).holds (l.bs i) := by
    rw [din]
    rfl
  have ownedHere : (s.put i c').owned (l.setBs i bs') i = i :: c'.sin.din.holds bs' := by
    rw [Mount.owned, here, Layout.setBs_bs, update_self]
  have owned : ∀ j ∈ l.inos, j ≠ i →
      (s.put i c').owned (l.setBs i bs') j = s.owned l j := by
    intro j other ne
    rw [Mount.owned, laid.reshape_din member reshaped other ne, Layout.setBs_bs, update_of_ne ne, Mount.owned]
  have ownedWas : s.owned l i = i :: (s.din i).holds (l.bs i) := rfl
  -- what the inode holds now it held before, or it was free
  have fresh : ∀ b ∈ c'.sin.din.holds bs', b ∈ (s.din i).holds (l.bs i) ∨ s.vol.Free b :=
    held ▸ reshaped.fresh
  have inUse : ∀ b, c'.vol.InUse b ↔ s.vol.InUse b ∧ b ∉ (s.din i).holds (l.bs i) ∨
      b ∈ c'.sin.din.holds bs' := held ▸ reshaped.inUse
  have inos : (l.setBs i bs').inos = l.inos := rfl
  have taken : ∀ b, s.vol.InUse b → ¬ s.vol.Free b := fun b => Vol.Sound.not_free
  have map : ∀ b, c'.vol.IsFreemap b ↔ s.vol.IsFreemap b := by
    intro b
    unfold Vol.IsFreemap
    rw [reshaped.blocks]
    rfl
  have lone := laid.self_not_held inode
  have used := laid.used
  have apart := laid.apart
  have clear := laid.clear
  refine ⟨reshaped.sound, laid.root, ?_, by grind, ?_, ?_, ?_, ?_, ?_, ?_⟩
  · intro j other
    by_cases ne : j = i
    · rw [ne, ownedHere]
      exact nodup_cons.mpr ⟨by grind, reshaped.mapped.nodup⟩
    · rw [owned j other ne]
      exact laid.nodup j other
  · intro b
    change c'.vol.InUse b ↔ c'.vol.IsFreemap b ∨ _
    rw [inUse, map]
    grind
  · intro j other b mine
    change ¬ c'.vol.IsFreemap b
    rw [map]
    grind
  · intro j other
    by_cases ne : j = i
    · rw [ne, here]
      change Mapped c'.vol c'.sin.din (update l.bs i bs' i)
      rw [update_self]
      exact reshaped.mapped
    · have mapped := laid.mapped j other
      rw [laid.reshape_din member reshaped other ne]
      change Mapped c'.vol (s.din j) (update l.bs i bs' j)
      rw [update_of_ne ne]
      refine { mapped with entries := ?_, used := ?_ }
      · intro there k inside
        rw [laid.reshape_disk member reshaped other ne (Mount.indirect_mem_owned there)]
        exact mapped.entries there k inside
      · intro b mine
        exact (inUse b).mpr (.inl ⟨mapped.used b mine,
          laid.not_held inode other ne (Mount.mem_owned.mpr (.inr mine))⟩)
  · intro j other
    by_cases ne : j = i
    · have shape := laid.shape i inode
      rw [din] at shape
      rw [ne, here]
      exact ⟨size, reshaped.type ▸ shape.type, reshaped.nlinks ▸ shape.nlinks,
        reshaped.nlinks ▸ shape.linked⟩
    · rw [laid.reshape_din member reshaped other ne]
      exact laid.shape j other
  · intro j cached
    obtain ⟨other, name⟩ := laid.cached j cached
    refine ⟨other, ?_⟩
    change (update s.sin i c'.sin j).ino = j
    by_cases ne : j = i
    · rw [ne, update_self, reshaped.ino]
      exact number
    · rwa [update_of_ne ne]
  · intro d other type entry listed
    obtain ⟨b, mine, rfl⟩ := mem_map.mp listed
    change b ∈ update l.bs i bs' d at mine
    by_cases ne : d = i
    · rw [ne, update_self] at mine
      rw [ne, here, reshaped.type] at type
      exact entries (din ▸ type) b mine
    · rw [update_of_ne ne] at mine
      rw [laid.reshape_din member reshaped other ne] at type
      change l.Names (DiskEntry.load (c'.vol.disk b))
      rw [laid.reshape_disk member reshaped other ne (Mount.mem_owned_of_bs mine)]
      exact laid.entries d other type _ (mem_map_of_mem mine)

end Reshape

/-! ## An inode is added -/

section AddNode

variable (laid : Laid s l) (moved : s.vol.Moved v' (n :: extra) [] [])
include laid

include moved in
theorem Laid.addNode_disk (inode : i ∈ l.inos) (member : b ∈ s.owned l i) : v'.disk b = s.vol.disk b :=
  moved.disk b (laid.inUse inode member) not_mem_nil

theorem Laid.addNode_new (free : s.vol.Free n) : n ∉ l.inos := fun old =>
  laid.not_free old Mount.self_mem_owned free

include moved

theorem Laid.addNode_din (inode : i ∈ l.inos) : (s.setVol v').din i = s.din i :=
  Mount.din_setVol fun _ => laid.addNode_disk moved inode Mount.self_mem_owned

theorem Laid.addNode (free : ∀ b ∈ n :: extra, s.vol.Free b) (nodup : (n :: extra).Nodup)
    (mapped : Mapped v' (DiskInode.load (v'.disk n)) [])
    (holds : (DiskInode.load (v'.disk n)).holds [] = extra) (shape : (DiskInode.load (v'.disk n)).Shape) :
    Laid (s.setVol v') (l.add n) := by
  have new := laid.addNode_new (free n mem_cons_self)
  have other : ∀ i ∈ l.inos, i ≠ n := fun i inode same => new (same ▸ inode)
  have din : (s.setVol v').din n = DiskInode.load (v'.disk n) :=
    Mount.din_uncached fun member => new (laid.cached n member).1
  have ownedNew : (s.setVol v').owned (l.add n) n = n :: extra := by
    rw [Mount.owned, din, Layout.add_bs, update_self, holds]
  have owned : ∀ i ∈ l.inos,
      (s.setVol v').owned (l.add n) i = s.owned l i := by
    intro i inode
    rw [Mount.owned, laid.addNode_din moved inode, Layout.add_bs, update_of_ne (other i inode), Mount.owned]
  have map : ∀ b, v'.IsFreemap b ↔ s.vol.IsFreemap b := by
    intro b
    unfold Vol.IsFreemap
    rw [moved.blocks]
  have inos : ∀ i, i ∈ (l.add n).inos ↔ i = n ∨ i ∈ l.inos := fun i => Iff.rfl
  have taken : ∀ b, s.vol.InUse b → ¬ s.vol.Free b := fun b => Vol.Sound.not_free
  have used := laid.used
  have apart := laid.apart
  have clear := laid.clear
  refine ⟨moved.sound, .inr laid.root, ?_, by grind, ?_, ?_, ?_, ?_, ?_, ?_⟩
  · rintro i (rfl | inode)
    · rwa [ownedNew]
    · exact owned i inode ▸ laid.nodup i inode
  · intro b
    change v'.InUse b ↔ v'.IsFreemap b ∨ _
    rw [moved.inUse, map]
    grind
  · intro i inode b mine
    change ¬ v'.IsFreemap b
    rw [map]
    grind
  · rintro i (rfl | inode)
    · rw [din]
      change Mapped v' _ (update l.bs i [] i)
      rwa [update_self]
    · rw [laid.addNode_din moved inode]
      change Mapped v' _ (update l.bs n [] i)
      rw [update_of_ne (other i inode)]
      exact (laid.mapped i inode).frame moved (fun _ _ => not_mem_nil) not_mem_nil
  · rintro i (rfl | inode)
    · rwa [din]
    · exact laid.addNode_din moved inode ▸ laid.shape i inode
  · exact fun i cached => ⟨.inr (laid.cached i cached).1, (laid.cached i cached).2⟩
  · rintro d (rfl | inode) type entry listed
    · obtain ⟨b, mine, -⟩ := mem_map.mp listed
      simp at mine
    · obtain ⟨b, mine, rfl⟩ := mem_map.mp listed
      change b ∈ update l.bs n [] d at mine
      rw [update_of_ne (other d inode)] at mine
      rw [laid.addNode_din moved inode] at type
      change Layout.Names _ (DiskEntry.load (v'.disk b))
      rw [laid.addNode_disk moved inode (Mount.mem_owned_of_bs mine)]
      exact (laid.entries d inode type _ (mem_map_of_mem mine)).imp_right .inr

end AddNode

end LiNos.Fs
