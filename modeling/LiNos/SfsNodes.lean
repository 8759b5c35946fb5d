import LiNos.SfsFile

/-!
The inodes of a mounted volume and the directory operations (sfs_inode.c and sfs_fs.c).

A mounted file system is the volume and the inodes in memory. An inode is named by its
block number, which is how `sfs_load_inode` finds it: `cached` is `inode_list`, newest
first, and the hash lists hold the same inodes. One call runs at a time, and `kmalloc` does
not fail.

A directory has one entry in each of its blocks. `sfs_create`, `sfs_mkdir` and `sfs_rename` go
on when a call inside them has failed, with whatever their local variables and the memory from
`kmalloc` held before; that is `Leftover`.
-/

namespace LiNos.Fs

open Kernel LittleEndian

structure Mount where
  vol : Vol
  cached : List ℕ
  sin : ℕ → SfsInode

namespace Mount

@[simps -fullyApplied] def setVol (s : Mount) (vol : Vol) : Mount := { s with vol := vol }

/-- The volume and one inode in memory. -/
def ctx (s : Mount) (i : ℕ) : Ctx := ⟨s.vol, s.sin i⟩

/-- The volume and one inode are written back. -/
def put (s : Mount) (i : ℕ) (c : Ctx) : Mount :=
  { s with vol := c.vol, sin := Function.update s.sin i c.sin }

end Mount

/-- A call on the volume. -/
def onVolume {α : Type} (m : Kernel Fault Vol α) : Kernel Fault Mount α := zoom Mount.vol Mount.setVol m

/-- A call on the volume and the inode `i`. -/
def onNode {α : Type} (i : ℕ) (m : Kernel Fault Ctx α) : Kernel Fault Mount α :=
  zoom (fun s => s.ctx i) (fun s c => s.put i c) m

/-- The return code of a call. -/
def code {α : Type} : Except ℤ α → ℤ
  | .ok _ => 0
  | .error e => e

/-- A variable after a call that was to store a value in it. -/
def stored {α : Type} (old : α) : Except ℤ α → α
  | .ok a => a
  | .error _ => old

/-! ## Inodes -/

/-- `sfs_load_inode`, with `lookup_sfs_nolock` and `sfs_create_inode`. -/
def sfsLoadInode (ino : ℕ) : Kernel Fault Mount ℕ := do
  let s ← get
  if ino ∈ s.cached then pure ino
  else do
    let inuse ← onVolume (sfsBlockInuse ino)
    require (inuse = true) .assertion
    let buf ← onVolume (sfsRbuf dinSize ino 0)
    let din := DiskInode.load buf
    require (din.nlinks ≠ 0) .assertion
    require (din.type = typeDir ∨ din.type = typeFile) .invalidType
    modify fun s => { s with cached := ino :: s.cached, sin := Function.update s.sin ino ⟨din, ino, false⟩ }
    pure ino

/-- `sfs_fsync`. -/
def sfsFsync : Kernel Fault Ctx Unit := do
  let c ← get
  if c.sin.dirty then do
    modify fun c => { c with sin := { c.sin with dirty := false } }
    match ← attempt (onVol (sfsWbuf c.sin.din.image dinSize c.sin.ino 0)) with
    | .ok _ => pure ()
    | .error e => do
      modify Ctx.setDirty
      fail e
  else pure ()

/-- `sfs->super_dirty` is written. -/
def setSuperDirty (dirty : Bool) : Kernel Fault Vol Unit := modify fun v => { v with superDirty := dirty }

/-! ## Directories -/

/-- `sfs_dirent_read_nolock`. -/
def sfsDirentReadNolock (slot : ℕ) : Kernel Fault Ctx DiskEntry := do
  let c ← get
  require (c.sin.din.type = typeDir ∧ slot < c.sin.din.blocks) .assertion
  let ino ← sfsBmapLoadNolock slot
  assertInuse ino
  let buf ← onVol (sfsRbuf entrySize ino 0)
  pure (DiskEntry.load buf)

/-- The loop of `sfs_dirent_search_nolock` from slot `i` on, with `left` slots to go. -/
def searchSlots (name : List UInt8) (i : ℕ) : ℕ → Kernel Fault Ctx (ℕ × ℕ)
  | 0 => fail (-eNoent)
  | left + 1 => do
    let entry ← sfsDirentReadNolock i
    if entry.ino = 0 then searchSlots name (i + 1) left
    else if name = entry.name then pure (entry.ino, i)
    else searchSlots name (i + 1) left

/-- `sfs_dirent_search_nolock`; the result is `*ino_store` and `*slot`. No caller asks for
the empty slot. -/
def sfsDirentSearchNolock (name : List UInt8) : Kernel Fault Ctx (ℕ × ℕ) := do
  require (name.length ≤ maxFnameLen) .assertion
  let c ← get
  searchSlots name 0 c.sin.din.blocks

/-- `sfs_lookup_once`; the result is the inode and the slot. -/
def sfsLookupOnce (dir : ℕ) (name : List UInt8) : Kernel Fault Mount (ℕ × ℕ) := do
  let found ← onNode dir (sfsDirentSearchNolock name)
  let node ← sfsLoadInode found.1
  pure (node, found.2)

/-- `sfs_lookup`. -/
def sfsLookup (dir : ℕ) (path : List UInt8) : Kernel Fault Mount ℕ := do
  require (path ≠ [] ∧ path.head? ≠ some 47) .assertion
  let s ← get
  if (s.sin dir).din.type ≠ typeDir then fail (-eNotdir)
  else do
    let found ← sfsLookupOnce dir path
    pure found.1

/-- The values that a call finds in its local variables, and the memory that `kmalloc`
gives it for an entry and an inode. -/
structure Leftover where
  index : ℕ
  node : ℕ
  indirect : ℕ
  entry : Block
  inode : Block

/-- The last part of `sfs_create` and `sfs_mkdir`: what is dirty is written, and the flag is cleared whatever comes of it. -/
def flush (dir : ℕ) (ret : ℤ) : Kernel Fault Mount ℤ := do
  let _ ← attempt (onNode dir sfsFsync)
  let s ← get
  if s.vol.superDirty then do
    onVolume (setSuperDirty false)
    let _ ← attempt (onVolume sfsSyncSuper)
    let done ← attempt (onVolume sfsSyncFreemap)
    pure (code done)
  else pure ret

/-- `assert(ret == 0)`. -/
def assertOk {α : Type} (m : Kernel Fault Mount α) : Kernel Fault Mount Unit := do
  let done ← attempt m
  require (code done = 0) .assertion

/-- A new regular file. -/
def newFile : DiskInode := ⟨0, typeFile, 1, 0, fun _ => 0, 0⟩

/-- A new directory; its indirect block is taken at once. -/
def newDir (indirect : ℕ) : DiskInode := ⟨4096, typeDir, 1, 0, fun _ => 0, indirect⟩

/-- `sin->din->blocks ++` and `sin->dirty = 1`. -/
def addSlot (c : Ctx) : Ctx := (c.setDin { c.sin.din with blocks := c.sin.din.blocks + 1 }).setDirty

/-- An inode as it is written to its block: the memory behind it goes with it. -/
def inodeBlock (din : DiskInode) (memory : Block) : Block := copy memory 0 din.image dinSize

/-- `sfs_create`; the result is the return code and `*node_store`. -/
def sfsCreate (dir : ℕ) (name : List UInt8) (left : Leftover) : Kernel Fault Mount (ℤ × Option ℕ) := do
  let s ← get
  if (s.sin dir).din.type ≠ typeDir then fail (-eNotdir)
  else do
    let index ← attempt (onNode dir (sfsBmapGetNolock (s.sin dir).din.blocks true))
    let indexAddr := stored left.index index
    let node ← attempt (onVolume sfsBlockAlloc)
    let fileNodeAddr := stored left.node node
    assertOk (onVolume (sfsWblock (DiskEntry.image ⟨fileNodeAddr, name.take (maxFnameLen + 1)⟩ left.entry) indexAddr 1))
    assertOk (onVolume (sfsWblock (inodeBlock newFile left.inode) fileNodeAddr 1))
    let loaded ← attempt (sfsLoadInode fileNodeAddr)
    onNode dir (modify addSlot)
    let ret ← flush dir 0
    pure (ret, loaded.toOption)

/-- `sfs_mkdir`. -/
def sfsMkdir (dir : ℕ) (name : List UInt8) (left : Leftover) : Kernel Fault Mount ℤ := do
  let s ← get
  if (s.sin dir).din.type ≠ typeDir then fail (-eNotdir)
  else do
    let index ← attempt (onNode dir (sfsBmapGetNolock (s.sin dir).din.blocks true))
    let indexAddr := stored left.index index
    let node ← attempt (onVolume sfsBlockAlloc)
    let newDirNodeAddr := stored left.node node
    let indirect ← attempt (onVolume sfsBlockAlloc)
    let newDirIndirectAddr := stored left.indirect indirect
    onNode dir (modify addSlot)
    let _ ← attempt (onVolume
      (sfsWblock (DiskEntry.image ⟨newDirNodeAddr, name.take (maxFnameLen + 1)⟩ left.entry) indexAddr 1))
    let wrote ← attempt (onVolume (sfsWblock (inodeBlock (newDir newDirIndirectAddr) left.inode) newDirNodeAddr 1))
    flush dir (code wrote)

/-- `sfs_rename`. -/
def sfsRename (dir : ℕ) (oldName newName : List UInt8) (left : Leftover) : Kernel Fault Mount ℤ := do
  let s ← get
  if (s.sin dir).din.type ≠ typeDir then fail (-eNotdir)
  else do
    let (node, slot) ← sfsLookupOnce dir oldName
    let index ← attempt (onNode dir (sfsBmapLoadNolock slot))
    let inoEntryIndex := stored left.index index
    let s ← get
    let entry := DiskEntry.image ⟨(s.sin node).ino, newName.take 255⟩ left.entry
    let _ ← attempt (onVolume (sfsClearBlock inoEntryIndex 1))
    let wrote ← attempt (onVolume (sfsWblock entry inoEntryIndex 1))
    onNode dir (modify Ctx.setDirty)
    let _ ← attempt (onNode dir sfsFsync)
    pure (code wrote)

end LiNos.Fs
