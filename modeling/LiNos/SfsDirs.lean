import LiNos.SfsLayout

/-!
What the directory operations do to a consistently mounted volume whose device answers.

Loading an inode, searching a directory and writing dirty inodes back change nothing that
a directory shows. A new entry comes with a new block of the directory and a new inode;
renaming rewrites the block of one entry.
-/

namespace LiNos.Fs

open Kernel LittleEndian Function List

variable {s s' : Mount} {l l' : Layout} {v v' : Vol} {d i j b n k : ℕ} {c c' : Ctx}
  {name : List UInt8} {entries : List DiskEntry} {entry : DiskEntry}

section Parts

variable {α : Type} {a : α} {e : ℤ} {m : Kernel Fault Ctx α} {mv : Kernel Fault Vol α}

theorem onNode_ok (ran : m (s.ctx i) = .ok a c) : onNode i m s = .ok a (s.put i c) := zoom_ok ran

theorem onNode_err (ran : m (s.ctx i) = .err e c) : onNode i m s = .err e (s.put i c) := zoom_err ran

theorem onNode_fault {reason : Fault} (ran : m (s.ctx i) = .fault reason) : onNode i m s = .fault reason :=
  zoom_fault ran

theorem onVolume_ok (ran : mv s.vol = .ok a v) : onVolume mv s = .ok a (s.setVol v) := zoom_ok ran

theorem onVolume_err (ran : mv s.vol = .err e v) : onVolume mv s = .err e (s.setVol v) := zoom_err ran

/-- A call that leaves the volume as it is. -/
theorem onVolume_same (ran : mv s.vol = .ok a s.vol) : onVolume mv s = .ok a s := zoom_ok ran

@[simp] theorem Mount.put_ctx : s.put i (s.ctx i) = s := by
  rw [Mount.put, Mount.ctx, update_eq_self]

end Parts

/-! ## What stays as it is -/

/-- The directories outside `except` show the same entries, and no inode is lost. -/
structure Kept (s s' : Mount) (l l' : Layout) (except : Set ℕ) : Prop where
  inos : l.inos ⊆ l'.inos
  type : ∀ i ∈ l.inos, (s'.din i).type = (s.din i).type
  list : ∀ x ∈ l.inos, x ∉ except → (s.din x).type = typeDir → s'.list l' x = s.list l x
  cached : s.cached ⊆ s'.cached

theorem Kept.refl : Kept s s l l ∅ :=
  ⟨subset_rfl, fun _ _ => rfl, fun _ _ _ _ => rfl, fun _ member => member⟩

theorem Kept.weaken {except : Set ℕ} (kept : Kept s s' l l' ∅) : Kept s s' l l' except :=
  ⟨kept.inos, kept.type, fun x inode _ type => kept.list x inode (Set.notMem_empty x) type, kept.cached⟩

theorem Kept.trans {s'' : Mount} {l'' : Layout} {except : Set ℕ} (first : Kept s s' l l' except)
    (second : Kept s' s'' l' l'' except) : Kept s s'' l l'' except := by
  refine ⟨first.inos.trans second.inos, ?_, ?_, fun _ member => second.cached (first.cached member)⟩
  · intro i inode
    rw [second.type i (first.inos inode), first.type i inode]
  · intro x inode outside type
    rw [second.list x (first.inos inode) outside (by rw [first.type x inode]; exact type),
      first.list x inode outside type]

/-! ## Loading an inode -/

/-- Inode `i` is in memory now, and nothing else has changed. -/
structure Loaded (s s' : Mount) (i : ℕ) : Prop where
  vol : s'.vol = s.vol
  din : ∀ j, s'.din j = s.din j
  cached : ∀ j, j ∈ s'.cached ↔ j = i ∨ j ∈ s.cached
  sin : ∀ j ∈ s.cached, s'.sin j = s.sin j
  number : i ∉ s.cached → (s'.sin i).ino = i

theorem Loaded.mem (loaded : Loaded s s' i) : i ∈ s'.cached := (loaded.cached i).mpr (.inl rfl)

theorem Loaded.list (loaded : Loaded s s' i) (x : ℕ) : s'.list l x = s.list l x := by
  rw [Mount.list, loaded.vol, Mount.list]

theorem Loaded.kept (loaded : Loaded s s' i) : Kept s s' l l ∅ :=
  ⟨subset_rfl, fun j _ => by rw [loaded.din], fun x _ _ _ => loaded.list x,
    fun j member => (loaded.cached j).mpr (.inr member)⟩

theorem Laid.loaded (laid : Laid s l) (loaded : Loaded s s' i) (inode : i ∈ l.inos) : Laid s' l := by
  have owned : ∀ j, s'.owned l j = s.owned l j := by
    intro j
    rw [Mount.owned, loaded.din, Mount.owned]
  refine ⟨?_, laid.root, ?_, ?_, ?_, ?_, ?_, ?_, ?_, ?_⟩
  · rw [loaded.vol]
    exact laid.sound
  · intro j other
    rw [owned]
    exact laid.nodup j other
  · intro j one k two t
    rw [owned, owned]
    exact laid.apart j one k two t
  · intro t
    simp only [owned, loaded.vol]
    exact laid.used t
  · intro j other t
    rw [owned, loaded.vol]
    exact laid.clear j other t
  · intro j other
    rw [loaded.vol, loaded.din]
    exact laid.mapped j other
  · intro j other
    rw [loaded.din]
    exact laid.shape j other
  · intro j member
    by_cases before : j ∈ s.cached
    · rw [loaded.sin j before]
      exact laid.cached j before
    · rcases (loaded.cached j).mp member with rfl | old
      · exact ⟨inode, loaded.number before⟩
      · exact absurd old before
  · intro x other type
    rw [loaded.din] at type
    rw [loaded.list]
    exact laid.entries x other type

section Fresh

variable {din : DiskInode} (absent : i ∉ s.cached) (sound : s.vol.Sound) (used : s.vol.InUse i)
  (there : DiskInode.load (s.vol.disk i) = din)
include absent sound used there

/-- `sfs_load_inode` of a block in use reads the inode there. -/
theorem sfsLoadInode_absent : sfsLoadInode i s = (do
      require (din.nlinks ≠ 0) .assertion
      require (din.type = typeDir ∨ din.type = typeFile) .invalidType
      modify fun s => { s with cached := i :: s.cached, sin := update s.sin i ⟨din, i, false⟩ }
      pure i : Kernel Fault Mount ℕ) s := by
  have tested := sfsBlockInuse_run used.1 (sound.inUse_lt used)
  rw [used.2, Bool.not_false] at tested
  have read := @sfsRbuf_run s.vol i 0 dinSize sound.device used.1 (by decide) (by decide)
  have load : DiskInode.load (fun k => s.vol.disk i (0 + k)) = din := by
    simp only [Nat.zero_add]
    exact there
  rw [sfsLoadInode, get_bind_run, if_neg absent, bind_ok (onVolume_same tested), require_bind_run rfl,
    bind_ok (onVolume_same read), load]

theorem sfsLoadInode_fresh (linked : din.nlinks ≠ 0) (known : din.type = typeDir ∨ din.type = typeFile) :
    sfsLoadInode i s =
      .ok i { s with cached := i :: s.cached, sin := update s.sin i ⟨din, i, false⟩ } := by
  rw [sfsLoadInode_absent absent sound used there, require_bind_run linked, require_bind_run known]
  rfl

end Fresh

/-- An inode that was not in memory is put there as the disk has it. -/
theorem Loaded.fresh (absent : i ∉ s.cached) :
    Loaded s { s with
      cached := i :: s.cached,
      sin := update s.sin i ⟨DiskInode.load (s.vol.disk i), i, false⟩ } i := by
  refine ⟨rfl, ?_, fun j => mem_cons, ?_, ?_⟩
  · intro j
    by_cases same : j = i
    · subst same
      have loaded : j ∈ j :: s.cached := mem_cons_self
      rw [Mount.din_uncached absent, Mount.din, if_pos loaded]
      dsimp only
      rw [update_self]
    · unfold Mount.din
      simp [same]
  · intro j before
    have other : j ≠ i := by
      rintro rfl
      exact absent before
    exact update_of_ne other _ _
  · intro _
    dsimp only
    rw [update_self]

/-- `sfs_load_inode` of an inode. The kernel stops at a type that it has no operations for. -/
theorem Laid.loadInode_cases (laid : Laid s l) (inode : i ∈ l.inos) :
    (∃ s', sfsLoadInode i s = .ok i s' ∧ Loaded s s' i) ∨
      (sfsLoadInode i s = .fault .invalidType ∧ (s.din i).type ≠ typeDir ∧ (s.din i).type ≠ typeFile) := by
  by_cases member : i ∈ s.cached
  · left
    rw [sfsLoadInode, get_bind_run, if_pos member]
    refine ⟨s, rfl, rfl, fun _ => rfl, ?_, fun _ _ => rfl, fun absent => absurd member absent⟩
    intro j
    constructor
    · exact .inr
    · rintro (rfl | old)
      · exact member
      · exact old
  · have used := laid.inUse inode (Mount.self_mem_owned)
    have din := Mount.din_uncached member
    by_cases known : (s.din i).type = typeDir ∨ (s.din i).type = typeFile
    · left
      have linked := (laid.shape i inode).linked
      rw [din] at linked known
      exact ⟨_, sfsLoadInode_fresh member laid.sound used rfl linked known, .fresh member⟩
    · right
      rw [sfsLoadInode_absent member laid.sound used din.symm, require_bind_run (laid.shape i inode).linked,
        require_bind_fault known]
      exact ⟨rfl, fun dir => known (.inl dir), fun file => known (.inr file)⟩

/-! ## Searching a directory -/

/-- The entry that a search for a name finds: the first one that is not empty and has it. -/
structure Found (entries : List DiskEntry) (name : List UInt8) (k : ℕ) (entry : DiskEntry) : Prop where
  here : entries[k]? = some entry
  used : entry.ino ≠ 0
  named : entry.name = name
  first : ∀ j < k, ∀ other, entries[j]? = some other → other.ino = 0 ∨ other.name ≠ name

/-- No entry has the name. -/
def Missing (entries : List DiskEntry) (name : List UInt8) : Prop :=
  ∀ entry ∈ entries, entry.ino = 0 ∨ entry.name ≠ name

theorem Mount.list_getElem? (s : Mount) (l : Layout) (inside : k < (l.bs d).length) :
    (s.list l d)[k]? = some (DiskEntry.load (s.vol.disk ((l.bs d).getD k 0))) := by
  rw [Mount.list, getElem?_map, List.getElem?_eq_getElem inside, getD_eq_getElem _ _ inside]
  rfl

theorem Mount.length_list : (s.list l d).length = (l.bs d).length := length_map _

/-- `sfs_dirent_read_nolock` of a slot of the directory. -/
theorem sfsDirentReadNolock_run {bs : List ℕ} (sound : c.vol.Sound) (mapped : Mapped c.vol c.sin.din bs)
    (dir : c.sin.din.type = typeDir) (below : k < bs.length) :
    sfsDirentReadNolock k c = .ok (DiskEntry.load (c.vol.disk (bs.getD k 0))) c := by
  have used := mapped.nth below
  have read := @sfsRbuf_run c.vol (bs.getD k 0) 0 entrySize sound.device used.1 (by decide) (by decide)
  simp only [Nat.zero_add] at read
  rw [sfsDirentReadNolock, get_bind_run, require_bind_run ⟨dir, by rw [mapped.blocks]; exact below⟩,
    bind_ok (sfsBmapLoadNolock_old sound mapped below), bind_ok (assertInuse_run sound used), bind_ok (onVol_ok read)]
  rfl

section Search

variable (laid : Laid s l) (member : d ∈ s.cached)
include laid member

theorem Laid.ctx_mapped : Mapped (s.ctx d).vol (s.ctx d).sin.din (l.bs d) := by
  have mapped := laid.mapped d (laid.cached d member).1
  rw [Mount.din_cached member] at mapped
  exact mapped

variable (dir : (s.din d).type = typeDir)
include dir

theorem Laid.direntRead (inside : (s.list l d)[k]? = some entry) :
    sfsDirentReadNolock k (s.ctx d) = .ok entry (s.ctx d) := by
  have mapped := laid.ctx_mapped member
  have below : k < (l.bs d).length := by
    rw [← @Mount.length_list s l]
    exact (List.getElem?_eq_some_iff.mp inside).1
  rw [Mount.list_getElem? s l below] at inside
  have type : (s.ctx d).sin.din.type = typeDir := by
    rw [Mount.din_cached member] at dir
    exact dir
  rw [sfsDirentReadNolock_run laid.sound mapped type below]
  exact congrArg (Outcome.ok · (s.ctx d)) (Option.some.inj inside)

theorem Laid.searchSlots_cases {left : ℕ} (rest : k + left = (s.list l d).length)
    (before : ∀ j < k, ∀ other, (s.list l d)[j]? = some other → other.ino = 0 ∨ other.name ≠ name) :
    (∃ m entry, Found (s.list l d) name m entry ∧
      searchSlots name k left (s.ctx d) = .ok (entry.ino, m) (s.ctx d)) ∨
    (Missing (s.list l d) name ∧ searchSlots name k left (s.ctx d) = .err (-eNoent) (s.ctx d)) := by
  induction left generalizing k with
  | zero =>
    right
    refine ⟨?_, rfl⟩
    intro entry listed
    obtain ⟨j, inside, rfl⟩ := getElem_of_mem listed
    exact before j (by omega) _ (List.getElem?_eq_getElem inside)
  | succ left ih =>
    have inside : k < (s.list l d).length := by omega
    obtain ⟨entry, here⟩ : ∃ entry, (s.list l d)[k]? = some entry := ⟨_, List.getElem?_eq_getElem inside⟩
    have read := laid.direntRead member dir here
    have onward : entry.ino = 0 ∨ entry.name ≠ name →
        ∀ j < k + 1, ∀ other, (s.list l d)[j]? = some other → other.ino = 0 ∨ other.name ≠ name := by
      intro skipped j below other found
      rcases Nat.lt_succ_iff_lt_or_eq.mp below with earlier | rfl
      · exact before j earlier other found
      · rw [here] at found
        cases found
        exact skipped
    rw [searchSlots, bind_ok read]
    by_cases empty : entry.ino = 0
    · rw [if_pos empty]
      exact ih (by omega) (onward (.inl empty))
    · rw [if_neg empty]
      split_ifs with same
      · exact .inl ⟨k, entry, ⟨here, empty, same.symm, before⟩, rfl⟩
      · exact ih (by omega) (onward (.inr fun eq => same eq.symm))

/-- `sfs_dirent_search_nolock` finds the first entry with the name. -/
theorem Laid.search_cases (short : name.length ≤ maxFnameLen) :
    (∃ k entry, Found (s.list l d) name k entry ∧
      onNode d (sfsDirentSearchNolock name) s = .ok (entry.ino, k) s) ∨
    (Missing (s.list l d) name ∧ onNode d (sfsDirentSearchNolock name) s = .err (-eNoent) s) := by
  have blocks : (s.ctx d).sin.din.blocks = (s.list l d).length := by
    rw [Mount.length_list]
    exact (laid.ctx_mapped member).blocks
  have start : sfsDirentSearchNolock name (s.ctx d) = searchSlots name 0 (s.list l d).length (s.ctx d) := by
    rw [sfsDirentSearchNolock, require_bind_run short, get_bind_run, blocks]
  have none : ∀ j < 0, ∀ other, (s.list l d)[j]? = some other → other.ino = 0 ∨ other.name ≠ name :=
    fun j below => absurd below (Nat.not_lt_zero j)
  rcases laid.searchSlots_cases member dir (Nat.zero_add _) none with
    ⟨k, entry, found, ran⟩ | ⟨missing, ran⟩
  · left
    refine ⟨k, entry, found, ?_⟩
    rw [onNode_ok (start.trans ran), Mount.put_ctx]
  · right
    refine ⟨missing, ?_⟩
    rw [onNode_err (start.trans ran), Mount.put_ctx]

theorem Laid.found_inode (found : Found (s.list l d) name k entry) : entry.ino ∈ l.inos := by
  have listed : entry ∈ s.list l d := mem_of_getElem? found.here
  rcases laid.entries d (laid.cached d member).1 dir entry listed with none | inode
  · exact absurd none found.used
  · exact inode

/-- `sfs_lookup_once`. -/
theorem Laid.lookupOnce_cases (short : name.length ≤ maxFnameLen) :
    (∃ k entry s', Found (s.list l d) name k entry ∧ sfsLookupOnce d name s = .ok (entry.ino, k) s' ∧
      Loaded s s' entry.ino) ∨
    (Missing (s.list l d) name ∧ sfsLookupOnce d name s = .err (-eNoent) s) ∨
    (∃ k entry, Found (s.list l d) name k entry ∧ sfsLookupOnce d name s = .fault .invalidType ∧
      (s.din entry.ino).type ≠ typeDir ∧ (s.din entry.ino).type ≠ typeFile) := by
  rcases laid.search_cases member dir short with ⟨k, entry, found, ran⟩ | ⟨missing, ran⟩
  · have inode := laid.found_inode member dir found
    rcases laid.loadInode_cases inode with ⟨s', loads, loaded⟩ | ⟨stops, types⟩
    · left
      refine ⟨k, entry, s', found, ?_, loaded⟩
      rw [sfsLookupOnce, bind_ok ran, bind_ok loads]
      rfl
    · right
      right
      refine ⟨k, entry, found, ?_, types⟩
      rw [sfsLookupOnce, bind_ok ran, bind_fault stops]
  · right
    left
    refine ⟨missing, ?_⟩
    rw [sfsLookupOnce, bind_err ran]

end Search

/-! ## Writing back -/

/-- The inode changes in memory only. -/
theorem Laid.reshape_kept {bs' : List ℕ} (laid : Laid s l) (member : i ∈ s.cached)
    (reshaped : Reshaped (s.ctx i) c' (l.bs i) bs') : Kept s (s.put i c') l (l.setBs i bs') {i} := by
  refine ⟨subset_rfl, ?_, ?_, fun _ old => old⟩
  · intro j other
    by_cases ne : j = i
    · rw [ne, Mount.put_din member, Mount.din_cached member]
      exact reshaped.type
    · rw [laid.reshape_din member reshaped other ne]
  · intro x other ne _
    rw [Mount.list, Layout.setBs_bs, update_of_ne ne]
    apply map_congr_left
    intro t mine
    have same := laid.reshape_disk member reshaped other ne (Mount.mem_owned_of_bs mine)
    change DiskEntry.load (c'.vol.disk t) = _
    rw [same]

theorem Layout.setBs_self (l : Layout) (i : ℕ) : l.setBs i (l.bs i) = l := by
  rw [Layout.setBs, update_eq_self]

/-- The blocks of `touched` are rewritten, and everything that the inodes and the directories
say is as it was. -/
structure Settled (s s' : Mount) (l : Layout) (touched : Set ℕ) : Prop where
  laid : Laid s' l
  rewrote : s.vol.Rewrote s'.vol touched
  din : ∀ i ∈ l.inos, s'.din i = s.din i
  list : ∀ x ∈ l.inos, s'.list l x = s.list l x
  cached : s'.cached = s.cached

namespace Settled

variable {touched also : Set ℕ}

theorem kept (settled : Settled s s' l touched) : Kept s s' l l ∅ := by
  refine ⟨subset_rfl, ?_, fun x inode _ _ => settled.list x inode, ?_⟩
  · intro i inode
    rw [settled.din i inode]
  · rw [settled.cached]
    exact List.Subset.refl _

theorem trans {s'' : Mount} (first : Settled s s' l touched) (second : Settled s' s'' l also) :
    Settled s s'' l (touched ∪ also) := by
  refine ⟨second.laid, first.rewrote.trans second.rewrote, ?_, ?_, second.cached.trans first.cached⟩
  · intro i inode
    rw [second.din i inode, first.din i inode]
  · intro x inode
    rw [second.list x inode, first.list x inode]

theorem mono (settled : Settled s s' l touched) (wider : touched ⊆ also) : Settled s s' l also :=
  ⟨settled.laid, settled.rewrote.mono wider, settled.din, settled.list, settled.cached⟩

theorem refl (laid : Laid s l) : Settled s s l ∅ :=
  ⟨laid, .refl _, fun _ _ => rfl, fun _ _ => rfl, rfl⟩

end Settled

/-- Blocks that no inode outside memory and no map or directory needs are rewritten. -/
theorem Laid.settle {touched : Set ℕ} (laid : Laid s l) (rewrote : s.vol.Rewrote v' touched)
    (apart : ∀ i ∈ l.inos, ∀ b ∈ s.owned l i, b ∈ touched → b = i ∧ i ∈ s.cached) :
    Settled s (s.setVol v') l touched := by
  have list : ∀ x ∈ l.inos, (s.setVol v').list l x = s.list l x := by
    intro x inode
    apply map_congr_left
    intro t mine
    have outside : t ∉ touched := by
      intro inside
      obtain ⟨rfl, -⟩ := apart x inode t (Mount.mem_owned_of_bs mine) inside
      exact laid.self_not_held inode (mem_append_left _ mine)
    rw [Mount.setVol_vol, rewrote.disk t outside]
  have inodes : ∀ i ∈ l.inos, i ∉ s.cached → i ∉ touched := fun i inode absent inside =>
    absent (apart i inode i Mount.self_mem_owned inside).2
  refine ⟨laid.rewrote rewrote inodes ?_ ?_, rewrote, ?_, list, rfl⟩
  · intro i inode there inside
    have mine : (s.din i).indirect ∈ s.owned l i := Mount.indirect_mem_owned there
    obtain ⟨same, -⟩ := apart i inode _ mine inside
    apply laid.self_not_held inode
    rw [DiskInode.holds, if_neg there, same]
    exact mem_append_right _ (mem_singleton_self i)
  · intro x inode type entry listed
    rw [list x inode] at listed
    exact laid.entries x inode type entry listed
  · intro i inode
    exact Mount.din_setVol fun absent => rewrote.disk i (inodes i inode absent)

/-- The dirty flag of an inode in memory is written. -/
theorem Laid.setFlag (laid : Laid s l) (member : i ∈ s.cached) (flag : Bool) :
    Settled s (s.put i ⟨s.vol, { s.sin i with dirty := flag }⟩) l ∅ := by
  have same := Reshaped.refl laid.sound (laid.ctx_mapped member)
  have reshaped : Reshaped (s.ctx i) ⟨s.vol, { s.sin i with dirty := flag }⟩ (l.bs i) (l.bs i) :=
    ⟨same.sound, same.mapped, same.blocks, same.unused, same.inUse, same.fresh, same.disk, same.type, same.nlinks,
      same.ino⟩
  have inode := (laid.cached i member).1
  have size := (laid.shape i inode).size
  rw [Mount.din_cached member] at size
  have after := laid.reshape member reshaped size fun type b mine =>
    laid.entries i inode type _ (mem_map_of_mem mine)
  rw [Layout.setBs_self] at after
  refine ⟨after, .refl _, ?_, fun _ _ => rfl, rfl⟩
  intro j other
  by_cases ne : j = i
  · rw [ne, Mount.put_din member, Mount.din_cached member]
  · exact laid.reshape_din member reshaped other ne

/-- The block of an inode in memory can hold anything. -/
theorem Laid.writeInode (laid : Laid s l) (member : i ∈ s.cached) (data : Block) :
    Settled s (s.setVol (s.vol.write i data)) l {i} := by
  have inode := (laid.cached i member).1
  apply laid.settle (Vol.Rewrote.of_write s.vol i data)
  rintro x other t mine rfl
  have same := laid.apart x other t inode t mine Mount.self_mem_owned
  exact ⟨same.symm, same ▸ member⟩

/-- `sfs_fsync` of an inode in memory. -/
theorem Laid.fsync (laid : Laid s l) (member : i ∈ s.cached) :
    ∃ s', onNode i sfsFsync s = .ok () s' ∧ Settled s s' l {i} ∧ s'.vol.superDirty = s.vol.superDirty := by
  by_cases dirty : (s.sin i).dirty = true
  · have used := laid.inUse (laid.cached i member).1 Mount.self_mem_owned
    have wrote := @sfsWbuf_run s.vol i 0 dinSize (s.sin i).din.image laid.sound.device used.1 (by decide) (by decide)
    obtain ⟨data, eq⟩ : ∃ data, data = copy (s.vol.disk i) 0 (s.sin i).din.image dinSize := ⟨_, rfl⟩
    rw [← eq] at wrote
    have written := laid.writeInode member data
    have cleaned := written.laid.setFlag member false
    have ran : sfsFsync (s.ctx i) = .ok () ⟨s.vol.write i data, { s.sin i with dirty := false }⟩ := by
      have stored : onVol (sfsWbuf (s.sin i).din.image dinSize (s.sin i).ino 0)
          ⟨s.vol, { s.sin i with dirty := false }⟩ =
            .ok () ⟨s.vol.write i data, { s.sin i with dirty := false }⟩ := by
        apply onVol_ok
        rw [(laid.cached i member).2]
        exact wrote
      rw [sfsFsync, get_bind_run]
      change (if (s.sin i).dirty = true then _ else _ : Kernel Fault Ctx Unit) (s.ctx i) = _
      rw [if_pos dirty, modify_bind_run]
      exact bind_ok (attempt_ok stored)
    refine ⟨_, onNode_ok ran, ?_, rfl⟩
    have both := written.trans cleaned
    rw [Set.union_empty] at both
    exact both
  · have ran : sfsFsync (s.ctx i) = .ok () (s.ctx i) := by
      rw [sfsFsync, get_bind_run]
      change (if (s.sin i).dirty = true then _ else _ : Kernel Fault Ctx Unit) (s.ctx i) = _
      rw [if_neg dirty]
      rfl
    refine ⟨s, ?_, (Settled.refl laid).mono (Set.empty_subset _), rfl⟩
    rw [onNode_ok ran, Mount.put_ctx]

/-- Several blocks are written one behind the other. -/
theorem sfsRwblock_writes {blkno nblks : ℕ} (device : v.outcomes = []) (valid : ∀ k < nblks, v.Valid (blkno + k))
    (buf : Block) :
    ∃ out v', sfsRwblock buf blkno true nblks v = .ok out v' ∧ v'.superDirty = v.superDirty ∧
      v.Rewrote v' { b | blkno ≤ b ∧ b < blkno + nblks } ∧
      ∀ k < nblks, v'.disk (blkno + k) = fun x => buf (blkSize * k + x) := by
  induction nblks generalizing blkno v buf with
  | zero =>
    exact ⟨buf, v, rfl, rfl, (Vol.Rewrote.refl v).mono (Set.empty_subset _),
      fun k below => absurd below (Nat.not_lt_zero k)⟩
  | succ nblks ih =>
    have first := @sfsRwblockNolock_write v blkno buf device (valid 0 (Nat.succ_pos _))
    have one := Vol.Rewrote.of_write v blkno buf
    obtain ⟨out, v', ran, dirty, rest, blocks⟩ := @ih (v.write blkno buf) (blkno + 1) device
      (fun k below => by
        have next := valid (k + 1) (by omega)
        rw [show blkno + 1 + k = blkno + (k + 1) by omega]
        exact next)
      (fun x => buf (blkSize + x))
    refine ⟨fun x => if x < blkSize then buf x else out (x - blkSize), v', ?_, dirty, ?_, ?_⟩
    · rw [sfsRwblock, bind_ok first, bind_ok ran]
      rfl
    · apply (one.trans rest).mono
      rintro b (rfl | ⟨lower, upper⟩)
      · exact ⟨le_rfl, by omega⟩
      · exact ⟨by omega, by omega⟩
    · intro k below
      by_cases start : k = 0
      · subst start
        have outside : blkno + 0 ∉ { b | blkno + 1 ≤ b ∧ b < blkno + 1 + nblks } := by
          rintro ⟨lower, -⟩
          omega
        rw [rest.disk _ outside, Nat.add_zero, Vol.write_disk, update_self]
        simp
      · have shifted := blocks (k - 1) (by omega)
        rw [show blkno + 1 + (k - 1) = blkno + k by omega] at shifted
        rw [shifted]
        funext x
        congr 1
        unfold blkSize
        omega

section Sync

variable (laid : Laid s l)
include laid

theorem Laid.super_valid : 1 < s.vol.super.blocks :=
  (laid.inUse laid.root Mount.self_mem_owned).1.2

/-- `sfs_sync_super` and `sfs_sync_freemap` one after the other. -/
theorem Laid.syncBoth : ∃ v', sfsSyncSuper s.vol = .ok () (s.vol.write blknSuper (copy zeroBlock 0 s.vol.super.image 44)) ∧
    sfsSyncFreemap (s.vol.write blknSuper (copy zeroBlock 0 s.vol.super.image 44)) = .ok () v' ∧
    s.vol.Rewrote v' ({blknSuper} ∪ { b | s.vol.IsFreemap b }) := by
  have positive := laid.super_valid
  have device := laid.sound.device
  have answered : dopIo s.vol = .ok () s.vol := by rw [dopIo, device]
  have first := Vol.Rewrote.of_write s.vol blknSuper (copy zeroBlock 0 s.vol.super.image 44)
  have valid : ∀ k < roundupDiv s.vol.super.blocks blkBits, s.vol.Valid (blknFreemap + k) := by
    intro k below
    exact ((laid.used _).mpr (.inl ⟨Nat.le_add_right _ _, by omega⟩)).1
  obtain ⟨out, v', ran, dirty, rest, blocks⟩ :=
    @sfsRwblock_writes (s.vol.write blknSuper (copy zeroBlock 0 s.vol.super.image 44)) blknFreemap
      (roundupDiv s.vol.super.blocks blkBits) device valid s.vol.freemap.data
  refine ⟨v', ?_, ?_, first.trans rest⟩
  · have wrote : sfsRwblockNolock (copy zeroBlock 0 s.vol.super.image 44) blknSuper true false s.vol =
        .ok (copy zeroBlock 0 s.vol.super.image 44)
          (s.vol.write blknSuper (copy zeroBlock 0 s.vol.super.image 44)) := by
      have inside : blknSuper < s.vol.super.blocks := by
        unfold blknSuper
        omega
      rw [sfsRwblockNolock, get_bind_run, require_bind_run ⟨.inr rfl, inside⟩, bind_ok answered]
      rfl
    rw [sfsSyncSuper, get_bind_run, bind_ok wrote]
    rfl
  · rw [sfsSyncFreemap, get_bind_run, sfsWblock]
    change (sfsRwblock s.vol.freemap.data blknFreemap true (roundupDiv s.vol.super.blocks blkBits) >>= _) _ = _
    rw [bind_ok ran]
    rfl

/-- Writing the super block and the free map changes nothing else. -/
theorem Laid.synced (rewrote : s.vol.Rewrote v' ({blknSuper} ∪ { b | s.vol.IsFreemap b })) :
    Settled s (s.setVol v') l ({blknSuper} ∪ { b | s.vol.IsFreemap b }) := by
  apply laid.settle rewrote
  rintro x inode t mine (super | map)
  · exact absurd super (laid.inUse inode mine).1.1
  · exact absurd map (laid.clear x inode t mine)

/-- The blocks that are written at the end of an operation on directory `d`. -/
def Mount.synced (s : Mount) (d : ℕ) : Set ℕ := {d} ∪ ({blknSuper} ∪ { b | s.vol.IsFreemap b })

/-- The end of `sfs_create`, `sfs_mkdir` and `sfs_delete`. -/
theorem Laid.flush (member : d ∈ s.cached) :
    ∃ s', Fs.flush d 0 s = .ok 0 s' ∧ Settled s s' l (s.synced d) := by
  obtain ⟨t, ran, first, flag⟩ := laid.fsync member
  have map : { b | t.vol.IsFreemap b } = { b | s.vol.IsFreemap b } :=
    Set.ext fun _ => first.rewrote.isFreemap_iff
  rw [Fs.flush, bind_ok (attempt_ok ran), get_bind_run]
  by_cases dirty : t.vol.superDirty = true
  · -- the flag is cleared before anything is written
    obtain ⟨u, eq⟩ : ∃ u, u = t.setVol { t.vol with superDirty := false } := ⟨_, rfl⟩
    have plain : t.vol.Rewrote u.vol ({blknSuper} ∪ { b | t.vol.IsFreemap b }) := by
      rw [eq]
      exact ⟨rfl, rfl, rfl, fun _ _ => rfl⟩
    have cleared := first.laid.synced plain
    have same : t.setVol u.vol = u := by
      rw [eq]
      rfl
    rw [same] at cleared
    obtain ⟨v', super, freemap, wrote⟩ := cleared.laid.syncBoth
    have written := cleared.laid.synced wrote
    have cleans : onVolume (setSuperDirty false) t = .ok () u := by
      rw [eq]
      rfl
    rw [if_pos dirty, bind_ok cleans, bind_ok (attempt_ok (onVolume_ok super)),
      bind_ok (attempt_ok (onVolume_ok freemap))]
    refine ⟨_, rfl, ?_⟩
    have later : { b | u.vol.IsFreemap b } = { b | t.vol.IsFreemap b } :=
      Set.ext fun _ => cleared.rewrote.isFreemap_iff
    have all := first.trans (cleared.trans written)
    rw [later, map, Set.union_self] at all
    exact all
  · rw [if_neg dirty]
    exact ⟨t, rfl, first.mono Set.subset_union_left⟩

end Sync

end LiNos.Fs
