import LiNos.SfsFull
import LiNos.SfsUpdates

/-!
Runs of calls on a mounted volume, and the owners of its blocks.

What belongs to whom is read off the inodes that can be reached from the root directory:
`BlockOwner` names the places that can own a block, and `Mount.Refers` the places that can
mention one. A run creates, renames, looks up, writes and truncates in any order; in every
state of it a block in use has one owner and a free block is mentioned nowhere.
-/

namespace LiNos.Fs

open Kernel LittleEndian List

/-! ## Runs -/

/-- The call comes back, with a result or an error code, and leaves `s'`. -/
def Returns {α : Type} (s' : Mount) : Outcome Fault Mount α → Prop
  | .ok _ t => t = s'
  | .err _ t => t = s'
  | .fault _ => False

/-- A call on an inode in memory. Creating finds the blocks it needs: those of the entry and
one or two for the new object. -/
inductive MountStep (s s' : Mount) : Prop
  | make {d : ℕ} {name : List UInt8} {left : Leftover} (kind : Kind) (member : d ∈ s.cached) (clean : 0 ∉ name)
    (space : (s.sin d).din.growth + kind.size ≤ s.vol.super.unusedBlocks)
    (ran : Returns s' (kind.make d name left s))
  | rename {d : ℕ} {name newName : List UInt8} {left : Leftover} (member : d ∈ s.cached) (clean : 0 ∉ newName)
    (ran : Returns s' (sfsRename d name newName left s))
  | lookup {d : ℕ} {name : List UInt8} (member : d ∈ s.cached) (ran : Returns s' (sfsLookup d name s))
  | write {i len : ℕ} {offset : ℤ} {mem : Block} (member : i ∈ s.cached)
    (ran : Returns s' (onNode i (sfsIo true (iobufInit len offset) mem) s))
  | truncfile {i : ℕ} {len : ℤ} (member : i ∈ s.cached) (file : (s.din i).type ≠ typeDir)
    (ran : Returns s' (onNode i (sfsTruncfile len) s))

inductive MountRun (s : Mount) : Mount → Prop
  | refl : MountRun s s
  | step {t u : Mount} (before : MountRun s t) (last : MountStep t u) : MountRun s u

/-! ## What a step does to the directories -/

variable {s s' : Mount} {l l' : Layout} {d i j k n b : ℕ} {name newName : List UInt8}
  {left : Leftover} {o o' : BlockOwner}

/-- No inode is lost, and what is named in a directory stays named there. -/
structure Follows (s s' : Mount) (l l' : Layout) : Prop where
  laid : Laid s' l'
  inos : l.inos ⊆ l'.inos
  type : ∀ x ∈ l.inos, (s'.din x).type = (s.din x).type
  named : ∀ x ∈ l.inos, (s.din x).type = typeDir → ∀ entry ∈ s.list l x,
    ∃ entry' ∈ s'.list l' x, entry'.ino = entry.ino
  new : ∀ n ∈ l'.inos, n ∉ l.inos → ∃ x ∈ l.inos, (s.din x).type = typeDir ∧ ∃ entry ∈ s'.list l' x, entry.ino = n

theorem Follows.of_kept (laid : Laid s' l') (kept : Kept s s' l l' ∅) (inos : l'.inos = l.inos) :
    Follows s s' l l' := by
  refine ⟨laid, kept.inos, kept.type, ?_, ?_⟩
  · intro x inode dir entry listed
    rw [← kept.list x inode (Set.notMem_empty x) dir] at listed
    exact ⟨entry, listed, rfl⟩
  · intro n inside outside
    rw [inos] at inside
    exact absurd inside outside

theorem Follows.of_loaded (laid : Laid s l) (loaded : Loaded s s' i) (inode : i ∈ l.inos) : Follows s s' l l :=
  .of_kept (laid.loaded loaded inode) loaded.kept rfl

theorem Follows.refl (laid : Laid s l) : Follows s s l l := .of_kept laid .refl rfl

theorem Entered.follows {din : DiskInode} (entered : Entered s s' l l' d n name din) (inode : d ∈ l.inos)
    (dir : (s.din d).type = typeDir) : Follows s s' l l' := by
  refine ⟨entered.laid, entered.kept.inos, entered.kept.type, ?_, ?_⟩
  · intro x known isDir entry listed
    refine ⟨entry, ?_, rfl⟩
    by_cases same : x = d
    · rw [same] at listed ⊢
      rw [entered.list]
      exact mem_append_left _ listed
    · rw [entered.kept.list x known same isDir]
      exact listed
  · intro m inside outside
    rw [entered.inos] at inside
    rcases inside with rfl | old
    · refine ⟨d, inode, dir, ⟨m, name⟩, ?_, rfl⟩
      rw [entered.list]
      exact mem_append_right _ (mem_singleton_self _)
    · exact absurd old outside

/-- A renamed entry names the same inode. -/
theorem Replaced.follows {entry : DiskEntry} (found : Found (s.list l d) name k entry)
    (replaced : Replaced s s' l d k ⟨entry.ino, newName⟩) : Follows s s' l l := by
  refine ⟨replaced.laid, subset_rfl, replaced.kept.type, ?_, fun n inside outside => absurd inside outside⟩
  intro x known isDir other listed
  by_cases same : x = d
  · rw [same] at listed ⊢
    rw [replaced.list]
    obtain ⟨m, place⟩ := getElem?_of_mem listed
    by_cases here : k = m
    · rw [← here, found.here] at place
      cases place
      refine ⟨_, mem_of_getElem? (List.getElem?_set_self ?_), rfl⟩
      exact (List.getElem?_eq_some_iff.mp found.here).1
    · rw [← List.getElem?_set_ne here] at place
      exact ⟨other, mem_of_getElem? place, rfl⟩
  · exact ⟨other, by rw [replaced.kept.list x known same isDir]; exact listed, rfl⟩

theorem Returns.ends {α : Type} {P : Mount → Prop} {outcome : Outcome Fault Mount α} (returns : Returns s' outcome)
    (ends : outcome.Ends (fun _ => P) (fun _ => P) (fun _ => True)) : P s' := by
  cases outcome with
  | ok a t =>
    rw [← show t = s' from returns]
    exact ends
  | err e t =>
    rw [← show t = s' from returns]
    exact ends
  | fault reason => exact returns.elim

/-- A search for a name that is too long stops the kernel. -/
theorem lookupOnce_long (long : ¬ name.length ≤ maxFnameLen) (s : Mount) :
    sfsLookupOnce d name s = .fault .assertion := by
  rw [sfsLookupOnce]
  apply bind_fault
  apply onNode_fault
  rw [sfsDirentSearchNolock]
  exact require_bind_fault long _ _ _

section Steps

variable (laid : Laid s l) (member : d ∈ s.cached)
include laid member

theorem Laid.make_follows (kind : Kind) (clean : 0 ∉ name)
    (space : (s.sin d).din.growth + kind.size ≤ s.vol.super.unusedBlocks)
    (ran : Returns s' (kind.make d name left s)) : ∃ l', Follows s s' l l' := by
  by_cases dir : (s.din d).type = typeDir
  · rcases laid.make_cases member dir kind clean space with
      ⟨n, t, l', extra, ended, entered, -, -⟩ | ⟨stopped, -⟩
    · rw [ended] at ran
      obtain rfl : t = s' := ran
      exact ⟨l', entered.follows (laid.cached d member).1 dir⟩
    · rw [stopped] at ran
      exact ran.elim
  · rw [Mount.din_cached member] at dir
    have refused : kind.make d name left s = .err (-eNotdir) s := by
      cases kind with
      | file =>
        apply bind_err
        rw [sfsCreate, get_bind_run, if_pos dir]
        rfl
      | dir =>
        rw [Kind.make, sfsMkdir, get_bind_run, if_pos dir]
        rfl
    rw [refused] at ran
    obtain rfl : s = s' := ran
    exact ⟨l, .refl laid⟩

theorem Laid.rename_follows (clean : 0 ∉ newName)
    (ran : Returns s' (sfsRename d name newName left s)) : Follows s s' l l := by
  by_cases dir : (s.din d).type = typeDir
  · by_cases short : name.length ≤ maxFnameLen
    · rcases laid.rename_cases member dir short clean with
        ⟨k, entry, t, found, ended, replaced⟩ | ⟨-, ended⟩ | stopped
      · rw [ended] at ran
        obtain rfl : t = s' := ran
        exact replaced.follows found
      · rw [ended] at ran
        obtain rfl : s = s' := ran
        exact .refl laid
      · rw [stopped] at ran
        exact ran.elim
    · rw [Mount.din_cached member] at dir
      rw [sfsRename, get_bind_run, if_neg (not_not.mpr dir), bind_fault (lookupOnce_long short s)] at ran
      exact ran.elim
  · rw [Mount.din_cached member] at dir
    rw [sfsRename, get_bind_run, if_pos dir] at ran
    obtain rfl : s = s' := ran
    exact .refl laid

theorem Laid.lookup_follows (ran : Returns s' (sfsLookup d name s)) : Follows s s' l l := by
  by_cases short : name.length ≤ maxFnameLen
  · rcases laid.lookup_cases member short with ⟨k, entry, t, -, ended, loaded, inode⟩ | ⟨e, ended⟩ | ⟨reason, stopped⟩
    · rw [ended] at ran
      obtain rfl : t = s' := ran
      exact .of_loaded laid loaded inode
    · rw [ended] at ran
      obtain rfl : s = s' := ran
      exact .refl laid
    · rw [stopped] at ran
      exact ran.elim
  · rw [sfsLookup] at ran
    by_cases path : name ≠ [] ∧ name.head? ≠ some 47
    · rw [require_bind_run path, get_bind_run] at ran
      by_cases type : (s.sin d).din.type ≠ typeDir
      · rw [if_pos type] at ran
        obtain rfl : s = s' := ran
        exact .refl laid
      · rw [if_neg type, bind_fault (lookupOnce_long short s)] at ran
        exact ran.elim
    · rw [require_bind_fault path] at ran
      exact ran.elim

end Steps

theorem Updated.follows (updated : Updated s s' l l') : Follows s s' l l' :=
  .of_kept updated.laid updated.kept updated.inos

/-- Every step leaves a consistent volume on which nothing has come loose. -/
theorem MountStep.follows (step : MountStep s s') (laid : Laid s l) : ∃ l', Follows s s' l l' := by
  cases step with
  | make kind member clean space ran => exact laid.make_follows member kind clean space ran
  | rename member clean ran => exact ⟨l, laid.rename_follows member clean ran⟩
  | lookup member ran => exact ⟨l, laid.lookup_follows member ran⟩
  | write member ran =>
    obtain ⟨l', updated⟩ := ran.ends (laid.write member)
    exact ⟨l', updated.follows⟩
  | truncfile member file ran =>
    obtain ⟨l', updated⟩ := ran.ends (laid.truncfile member file)
    exact ⟨l', updated.follows⟩

/-! ## Owners -/

/-- The block at index `k` of inode `i`. -/
def Mount.pointer (s : Mount) (i k : ℕ) : ℕ :=
  if direct : k < 12 then (s.din i).direct ⟨k, direct⟩
  else if (s.din i).indirect = 0 then 0
  else getLE (s.vol.disk (s.din i).indirect) (4 * (k - ndirect)) 4

/-- The entry in slot `k` of directory `d`. -/
def Mount.entry (s : Mount) (d k : ℕ) : DiskEntry := DiskEntry.load (s.vol.disk (s.pointer d k))

/-- The inodes that can be reached from the root directory. -/
inductive Mount.Node (s : Mount) : ℕ → Prop
  | root : Node s blknRoot
  | entry {d k : ℕ} (dir : Node s d) (type : (s.din d).type = typeDir) (slot : k < (s.din d).blocks)
    (used : (s.entry d k).ino ≠ 0) : Node s (s.entry d k).ino

/-- What a block can belong to: an inode is in it, it is at an index of an inode (an entry of
a directory or data of a file), or it is the indirect block of an inode. -/
inductive BlockOwner where
  | inode (i : ℕ)
  | slot (i k : ℕ)
  | indirect (i : ℕ)

def BlockOwner.Owns (s : Mount) (b : ℕ) : BlockOwner → Prop
  | .inode i => s.Node i ∧ i = b
  | .slot i k => s.Node i ∧ k < (s.din i).blocks ∧ s.pointer i k = b
  | .indirect i => s.Node i ∧ (s.din i).indirect ≠ 0 ∧ (s.din i).indirect = b

/-- Inode `i`, its indirect block or an entry of it mentions block `b`. -/
def Mount.Refers (s : Mount) (i b : ℕ) : Prop :=
  (∃ k < ndirect + blkNentry, s.pointer i k = b) ∨ (s.din i).indirect = b ∨
    (s.din i).type = typeDir ∧ ∃ k < (s.din i).blocks, (s.entry i k).ino = b

/-- A consistent volume of which every inode can be reached from the root directory. -/
def Mount.Consistent (s : Mount) : Prop := ∃ l, Laid s l ∧ ∀ i ∈ l.inos, s.Node i

/-- The inode of an owner, and the place of the block among those of the inode. -/
def BlockOwner.place (s : Mount) : BlockOwner → ℕ × ℕ
  | .inode i => (i, 0)
  | .slot i k => (i, k + 1)
  | .indirect i => (i, (s.din i).blocks + 1)

/-- The place says which owner it is. -/
theorem BlockOwner.place_inj (owns : o.Owns s b) (owns' : o'.Owns s b)
    (same : o.place s = o'.place s) : o = o' := by
  cases o with
  | inode i =>
    cases o' with
    | inode j => rw [(Prod.mk.inj same).1]
    | slot j k => cases (Prod.mk.inj same).2
    | indirect j => cases (Prod.mk.inj same).2
  | slot i k =>
    cases o' with
    | inode j => cases (Prod.mk.inj same).2
    | slot j m => rw [(Prod.mk.inj same).1, Nat.succ.inj (Prod.mk.inj same).2]
    | indirect j =>
      obtain ⟨rfl, last⟩ := Prod.mk.inj same
      exact absurd owns.2.1 (by omega)
  | indirect i =>
    cases o' with
    | inode j => cases (Prod.mk.inj same).2
    | slot j k =>
      obtain ⟨rfl, last⟩ := Prod.mk.inj same
      exact absurd owns'.2.1 (by omega)
    | indirect j => rw [(Prod.mk.inj same).1]

section Owners

variable (laid : Laid s l)
include laid

theorem Laid.pointer_eq (inode : i ∈ l.inos) (inside : k < ndirect + blkNentry) :
    s.pointer i k = (l.bs i).getD k 0 := by
  have mapped := laid.mapped i inode
  unfold Mount.pointer
  by_cases direct : k < 12
  · rw [dif_pos direct]
    exact mapped.direct ⟨k, direct⟩
  · rw [dif_neg direct]
    by_cases none : (s.din i).indirect = 0
    · have few := mapped.few none
      unfold ndirect at few
      rw [if_pos none, getD_eq_default _ _ (by omega)]
    · unfold ndirect at inside
      rw [if_neg none, mapped.entries none (k - ndirect) (by unfold ndirect; omega)]
      congr 1
      unfold ndirect
      omega

theorem Laid.pointer_slot (inode : i ∈ l.inos) (slot : k < (s.din i).blocks) :
    k < (l.bs i).length ∧ s.pointer i k = (l.bs i).getD k 0 := by
  have mapped := laid.mapped i inode
  rw [mapped.blocks] at slot
  exact ⟨slot, laid.pointer_eq inode (slot.trans_le mapped.most)⟩

theorem Laid.mem_list_iff {entry : DiskEntry} (inode : d ∈ l.inos) :
    entry ∈ s.list l d ↔ ∃ k < (s.din d).blocks, s.entry d k = entry := by
  have mapped := laid.mapped d inode
  constructor
  · intro listed
    obtain ⟨k, inside, here⟩ := getElem_of_mem listed
    rw [Mount.length_list] at inside
    have slot : k < (s.din d).blocks := by rw [mapped.blocks]; exact inside
    refine ⟨k, slot, ?_⟩
    rw [Mount.entry, (laid.pointer_slot inode slot).2, ← here, getD_eq_getElem _ _ inside]
    simp only [Mount.list, getElem_map]
  · rintro ⟨k, slot, rfl⟩
    obtain ⟨inside, pointer⟩ := laid.pointer_slot inode slot
    rw [Mount.entry, pointer]
    exact mem_map_of_mem (getD_mem inside)

/-- What can be reached is an inode. -/
theorem Laid.node_inode (node : s.Node i) : i ∈ l.inos := by
  induction node with
  | root => exact laid.root
  | entry dir type slot used ih =>
    exact (laid.entries _ ih type _ ((laid.mem_list_iff ih).mpr ⟨_, slot, rfl⟩)).resolve_left used

/-- What can be reached stays within reach. -/
theorem Follows.node (follows : Follows s s' l l') (node : s.Node i) : s'.Node i := by
  induction node with
  | root => exact .root
  | @entry d k dir type slot used ih =>
    have inode := laid.node_inode dir
    obtain ⟨entry, listed, same⟩ := follows.named d inode type _ ((laid.mem_list_iff inode).mpr ⟨k, slot, rfl⟩)
    obtain ⟨m, slot', here⟩ := (follows.laid.mem_list_iff (follows.inos inode)).mp listed
    rw [← same, ← here]
    apply Mount.Node.entry ih ((follows.type d inode).trans type) slot'
    rw [here, same]
    exact used

/-- A step keeps the volume consistent. -/
theorem Follows.consistent (linked : ∀ i ∈ l.inos, s.Node i) (follows : Follows s s' l l') : s'.Consistent := by
  refine ⟨l', follows.laid, ?_⟩
  intro n inode
  by_cases old : n ∈ l.inos
  · exact follows.node laid (linked n old)
  · obtain ⟨x, known, dir, entry, listed, rfl⟩ := follows.new n inode old
    obtain ⟨k, slot, here⟩ := (follows.laid.mem_list_iff (follows.inos known)).mp listed
    have nonzero : entry.ino ≠ 0 := (follows.laid.inUse inode Mount.self_mem_owned).1.1
    rw [← here] at nonzero ⊢
    exact .entry (follows.node laid (linked x known)) ((follows.type x known).trans dir) slot nonzero

/-- An owner of a block has it among the blocks of its inode. -/
theorem Laid.owns_place (owns : o.Owns s b) :
    (o.place s).1 ∈ l.inos ∧ (s.owned l (o.place s).1)[(o.place s).2]? = some b := by
  cases o with
  | inode i =>
    obtain ⟨node, rfl⟩ := owns
    exact ⟨laid.node_inode node, rfl⟩
  | slot i k =>
    obtain ⟨node, slot, rfl⟩ := owns
    have inode := laid.node_inode node
    obtain ⟨inside, pointer⟩ := laid.pointer_slot inode slot
    refine ⟨inode, ?_⟩
    change ((s.din i).holds (l.bs i))[k]? = _
    rw [DiskInode.holds, getElem?_append_left inside, pointer, List.getElem?_eq_getElem inside,
      getD_eq_getElem _ _ inside]
  | indirect i =>
    obtain ⟨node, there, rfl⟩ := owns
    have inode := laid.node_inode node
    refine ⟨inode, ?_⟩
    change ((s.din i).holds (l.bs i))[(s.din i).blocks]? = _
    rw [DiskInode.holds, if_neg there, (laid.mapped i inode).blocks, getElem?_concat_length]

theorem Laid.owner_unique (owns : o.Owns s b) (owns' : o'.Owns s b) : o = o' := by
  obtain ⟨inode, here⟩ := laid.owns_place owns
  obtain ⟨inode', here'⟩ := laid.owns_place owns'
  have node := laid.apart _ inode _ inode' b (mem_of_getElem? here) (mem_of_getElem? here')
  rw [← node, ← here] at here'
  have inside := (List.getElem?_eq_some_iff.mp here).1
  have position := (getElem?_inj inside (laid.nodup _ inode)).mp here'.symm
  exact BlockOwner.place_inj owns owns' (Prod.ext node position)

theorem Laid.owner_exists (linked : ∀ i ∈ l.inos, s.Node i) (used : s.vol.InUse b) (free : ¬ s.vol.IsFreemap b) :
    ∃ o : BlockOwner, o.Owns s b := by
  obtain ⟨i, inode, owned⟩ := ((laid.used b).mp used).resolve_left free
  have node := linked i inode
  have mapped := laid.mapped i inode
  rcases Mount.mem_owned.mp owned with rfl | held
  · exact ⟨.inode b, node, rfl⟩
  · rcases mem_append.mp held with slot | last
    · obtain ⟨k, inside, here⟩ := getElem_of_mem slot
      have below : k < (s.din i).blocks := by rw [mapped.blocks]; exact inside
      refine ⟨.slot i k, node, below, ?_⟩
      rw [(laid.pointer_slot inode below).2, getD_eq_getElem _ _ inside, here]
    · by_cases none : (s.din i).indirect = 0
      · rw [if_pos none] at last
        exact absurd last not_mem_nil
      · rw [if_neg none] at last
        exact ⟨.indirect i, node, none, (mem_singleton.mp last).symm⟩

/-- What an inode mentions is nothing or in use. -/
theorem Laid.refers_not_free (node : s.Node i) (refers : s.Refers i b) : ¬ s.vol.Free b := by
  intro free
  have nonzero := (laid.sound.free b free).1
  have inode := laid.node_inode node
  have mapped := laid.mapped i inode
  rcases refers with ⟨k, inside, rfl⟩ | rfl | ⟨dir, k, slot, rfl⟩
  · rw [laid.pointer_eq inode inside] at free nonzero
    by_cases there : k < (l.bs i).length
    · exact Vol.Sound.not_free (mapped.nth there) free
    · exact nonzero (getD_eq_default _ _ (by omega))
  · exact Vol.Sound.not_free (mapped.indirect nonzero) free
  · exact laid.not_free (laid.node_inode (.entry node dir slot nonzero)) Mount.self_mem_owned free

end Owners

theorem MountRun.consistent (run : MountRun s s') (start : s.Consistent) : s'.Consistent := by
  induction run with
  | refl => exact start
  | step before last ih =>
    obtain ⟨l, laid, linked⟩ := ih
    obtain ⟨l', follows⟩ := last.follows laid
    exact follows.consistent laid linked

/-- In every run a block in use that is not one of the free map has exactly one owner, and
no inode, indirect block or entry mentions a free block. -/
theorem blocks_have_one_owner (start : s.Consistent) (run : MountRun s s') :
    (∀ b, s'.vol.InUse b → ¬ s'.vol.IsFreemap b → ∃! o : BlockOwner, o.Owns s' b) ∧
      ∀ i b, s'.Node i → s'.vol.Free b → ¬ s'.Refers i b := by
  obtain ⟨l, laid, linked⟩ := run.consistent start
  constructor
  · intro b used free
    obtain ⟨o, owns⟩ := laid.owner_exists linked used free
    exact ⟨o, owns, fun o' owns' => laid.owner_unique owns' owns⟩
  · intro i b node free refers
    exact laid.refers_not_free node refers free

theorem rootMount_consistent : (rootMount 4).Consistent := by
  refine ⟨rootLayout, rootMount_laid (.inr rfl), ?_⟩
  intro i inode
  rw [show i = blknRoot from inode]
  exact .root

/-- A file is made, and a byte is written to it. -/
def makeAndWrite : Kernel Fault Mount Transfer := do
  let _ ← Kind.file.make 1 [97] zeroLeft
  onNode 6 (sfsIo true (iobufInit 1 0) fun _ => 120)

theorem make_run : ∃ ret t, Kind.file.make 1 [97] zeroLeft (rootMount 4) = .ok ret t ∧ t.cached = [6, 1] :=
  Ends.returned (by decide +kernel)

theorem makeAndWrite_run : ∃ moved s, makeAndWrite (rootMount 4) = .ok moved s ∧
    ((s.din 1).type = typeDir ∧ 2 < (s.din 1).blocks ∧ (s.entry 1 2).ino = 6) ∧ (s.din 6).size = 1 ∧
      s.pointer 1 2 = 5 ∧ s.pointer 6 0 = 7 ∧ s.vol.super.unusedBlocks = 1 :=
  Ends.returned (by decide +kernel)

/-- The entry, the inode and the data of the new file take three of four free blocks, and each
of them has one owner. -/
theorem blocks_have_one_owner_written : ∃ s, MountRun (rootMount 4) s ∧ s.Node 6 ∧ (s.din 6).size = 1 ∧
    s.pointer 1 2 = 5 ∧ s.pointer 6 0 = 7 ∧ s.vol.super.unusedBlocks = 1 ∧
    (∀ b, s.vol.InUse b → ¬ s.vol.IsFreemap b → ∃! o : BlockOwner, o.Owns s b) ∧
      ∀ i b, s.Node i → s.vol.Free b → ¬ s.Refers i b := by
  obtain ⟨_, s, ran, ⟨dir, slot, ino⟩, size, entry, data, unused⟩ := makeAndWrite_run
  obtain ⟨_, t, again, cached⟩ := make_run
  unfold makeAndWrite at ran
  obtain ⟨_, _, first, second⟩ := bind_eq_ok ran
  rw [again] at first
  cases first
  have make := @MountStep.make (rootMount 4) t 1 [97] zeroLeft .file (mem_singleton_self 1) (by decide) (by decide)
    (by rw [again]; rfl)
  have write := @MountStep.write t s 6 1 0 (fun _ => 120) (by rw [cached]; exact mem_cons_self) (by rw [second]; rfl)
  have run : MountRun (rootMount 4) s := .step (.step .refl make) write
  have node : s.Node 6 := by
    rw [← ino]
    exact .entry .root dir slot (by rw [ino]; decide)
  exact ⟨s, run, node, size, entry, data, unused, blocks_have_one_owner rootMount_consistent run⟩

end LiNos.Fs
