import LiNos.SfsDisk

/-!
The image builder (tools/mksfs.c).

`mksfs` reads a directory tree and writes an SFS image. Data blocks and entries are
written as they come; inodes and index blocks are kept in a cache and written at the
end, together with the free map and the super block. Cached inodes and cached blocks
are named by their block number. A run that ends in `bug` or in a failed assertion
leaves through `Exit`.

The directory tree is what the system calls show of it: the names in the order of
`readdir`, and for each of them the file number and what is behind it.
-/

namespace LiNos.Mksfs

open Kernel LittleEndian Fs Function

/-- `SFS_MAX_NBLKS`. -/
def maxNblks : ℕ := 1024 * 512

def l0Nblks : ℕ := ndirect
def l1Nblks : ℕ := blkNentry + l0Nblks
def l2Nblks : ℕ := blkNentry * blkNentry + l1Nblks
def lnNblks : ℕ := maxFileSize / blkSize

/-- Where the program gives up. -/
inductive Exit where
  | outOfSpace
  | imageTooSmall
  | fileTooBig
  | nameTooLong
  | readLink
  | assertion
deriving DecidableEq, Repr

/-- `struct inode` of the builder: the inode of the kernel and one more index. -/
structure Inode extends DiskInode where
  dbIndirect : ℕ

def Inode.image (inode : Inode) : Block := packed (inode.toDiskInode.fields ++ [(4, inode.dbIndirect)])

/-- `sizeof(struct inode)`. -/
def inodeSize : ℕ := 68

/-- `struct cache_inode`; the cached blocks it points to are named by their number. -/
structure CacheInode where
  inode : Inode
  real : ℕ
  ino : ℕ
  nblks : ℕ
  l1 : Option ℕ
  l2 : Option ℕ

/-- `struct sfs_fs` of the builder. `inode` and `cache` are the contents of the cached
inodes and blocks, `inodes` and `blocks` the hash lists; `entry` is the static entry
of `add_entry` and `image` the file behind `imgfd`. -/
structure Sfs where
  super : Super
  ninos : ℕ
  nextIno : ℕ
  inode : ℕ → CacheInode
  inodes : ℕ → List ℕ
  cache : ℕ → Block
  blocks : ℕ → List ℕ
  entry : Block
  image : ℕ → Block

def hashListSize : ℕ := 1024

/-- `hash32`, and `hash64` of the low half. -/
def hash32 (val : ℕ) : ℕ := (val % 2 ^ 32 * 0x9e370001 % 2 ^ 32) >>> (32 - 10)

/-- A packing step. -/
abbrev Pack := Kernel Exit Sfs

/-- `sfs_alloc_ino`. -/
def sfsAllocIno : Pack ℕ := do
  let sfs ← get
  if sfs.nextIno < sfs.ninos then do
    modify fun sfs =>
      { sfs with
        super := { sfs.super with unusedBlocks := sfs.super.unusedBlocks - 1 }
        nextIno := sfs.nextIno + 1 }
    pure sfs.nextIno
  else stop .outOfSpace

/-- `alloc_cache_block`. The block is hung into the list of the number it was asked
for, which is 0 when a new one is taken. -/
def allocCacheBlock (ino : ℕ) : Pack ℕ := do
  let number ← if ino ≠ 0 then pure ino else sfsAllocIno
  modify fun sfs =>
    { sfs with
      cache := update sfs.cache number zeroBlock
      blocks := update sfs.blocks (hash32 ino) (number :: sfs.blocks (hash32 ino)) }
  pure number

/-- `search_cache_block`. -/
def searchCacheBlock (sfs : Sfs) (ino : ℕ) : Option ℕ :=
  (sfs.blocks (hash32 ino)).find? fun number => number = ino

/-- An inode as `alloc_cache_inode` leaves it. -/
def newInode (type : ℕ) : Inode where
  size := 0
  type := type
  nlinks := 0
  blocks := 0
  direct := fun _ => 0
  indirect := 0
  dbIndirect := 0

/-- `alloc_cache_inode`. -/
def allocCacheInode (real ino type : ℕ) : Pack ℕ := do
  let number ← if ino ≠ 0 then pure ino else sfsAllocIno
  modify fun sfs =>
    { sfs with
      inode := update sfs.inode number
        { inode := newInode type, real := real, ino := number, nblks := 0, l1 := none, l2 := none }
      inodes := update sfs.inodes (hash32 real) (number :: sfs.inodes (hash32 real)) }
  pure number

/-- `search_cache_inode`. -/
def searchCacheInode (sfs : Sfs) (real : ℕ) : Option ℕ :=
  (sfs.inodes (hash32 real)).find? fun number => (sfs.inode number).real = real

/-- `write_block`. -/
def writeBlock (data : Block) (len ino : ℕ) : Pack Unit := do
  let sfs ← get
  require (len ≤ blkSize ∧ ino < sfs.ninos) .assertion
  let data := if len ≠ blkSize then copy zeroBlock 0 data len else data
  modify fun sfs => { sfs with image := update sfs.image ino data }

/-- What `create_sfs` makes of an image file of `size` bytes, before the root is
allocated. The block count is a `uint32_t`. -/
def emptySfs (size : ℕ) (image : ℕ → Block) : Option Sfs :=
  let ninos := min (size / blkSize % 2 ^ 32) maxNblks
  let nextIno := blknFreemap + (ninos + blkBits - 1) / blkBits
  if ninos ≤ nextIno then none
  else some {
    super := {
      magic := sfsMagic
      blocks := ninos
      unusedBlocks := ninos - nextIno
      info := fun i => ("simple file system".toUTF8.toList.getD i 0) }
    ninos := ninos
    nextIno := nextIno
    inode := fun _ => ⟨newInode typeDir, 0, 0, 0, none, none⟩
    inodes := fun _ => []
    cache := fun _ => zeroBlock
    blocks := fun _ => []
    entry := zeroBlock
    image := image }

/-- `create_sfs`; the root is the cached inode `SFS_BLKN_ROOT`. -/
def createSfs (size : ℕ) (image : ℕ → Block) : Outcome Exit Sfs ℕ :=
  match emptySfs size image with
  | none => .fault .imageTooSmall
  | some sfs => allocCacheInode 0 blknRoot typeDir sfs

/-! ## Packing -/

/-- `update_cache`: the cached block of an index that may not be there yet. -/
def updateCache (cb : Option ℕ) (ino : ℕ) : Pack ℕ := do
  if ino = 0 then allocCacheBlock 0
  else if cb ≠ some ino then do
    let sfs ← get
    require (searchCacheBlock sfs ino = some ino) .assertion
    pure ino
  else pure ino

/-- A cached inode is changed. -/
def setInode (file : ℕ) (change : CacheInode → CacheInode) : Pack Unit :=
  modify fun sfs => { sfs with inode := update sfs.inode file (change (sfs.inode file)) }

/-- Entry `i` of an index block in the cache. -/
def setIndex (block i ino : ℕ) : Pack Unit :=
  modify fun sfs =>
    { sfs with cache := update sfs.cache block (copy (sfs.cache block) (4 * i) (bytesLE ino) 4) }

/-- The place of block `nblks` of a file, in the three levels of `append_block`. -/
def placeBlock (file nblks ino : ℕ) : Pack Unit := do
  let sfs ← get
  let ci := sfs.inode file
  if direct : nblks < l0Nblks then
    setInode file fun ci =>
      { ci with inode := { ci.inode with direct := update ci.inode.direct ⟨nblks, direct⟩ ino } }
  else if nblks < l1Nblks then do
    let nblks := nblks - l0Nblks
    let l1 ← updateCache ci.l1 ci.inode.indirect
    setInode file fun ci => { ci with l1 := some l1, inode := { ci.inode with indirect := l1 } }
    setIndex l1 nblks ino
  else if nblks < l2Nblks then do
    let nblks := nblks - l1Nblks
    let l2 ← updateCache ci.l2 ci.inode.dbIndirect
    setInode file fun ci => { ci with l2 := some l2, inode := { ci.inode with dbIndirect := l2 } }
    let sfs ← get
    let l1 ← updateCache ci.l1 (getLE (sfs.cache l2) (4 * (nblks / blkNentry)) 4)
    setInode file fun ci => { ci with l1 := some l1 }
    setIndex l2 (nblks / blkNentry) l1
    setIndex l1 (nblks % blkNentry) ino
  else pure ()

/-- `append_block`. -/
def appendBlock (file size ino : ℕ) : Pack Unit := do
  require (size ≤ blkSize) .assertion
  let sfs ← get
  let nblks := (sfs.inode file).nblks
  if lnNblks ≤ nblks then stop .fileTooBig
  else do
    placeBlock file nblks ino
    setInode file fun ci =>
      { ci with
        nblks := ci.nblks + 1
        inode := { ci.inode with size := ci.inode.size + size, blocks := ci.inode.blocks + 1 } }

/-- `sizeof(entry->name)`. -/
def nameSize : ℕ := 256

/-- `add_entry`. -/
def addEntry (current file : ℕ) (name : List UInt8) : Pack Unit := do
  let sfs ← get
  require ((sfs.inode current).inode.type = typeDir ∧ name.length ≤ maxFnameLen) .assertion
  let entry := DiskEntry.image ⟨(sfs.inode file).ino, name⟩ sfs.entry
  modify fun sfs => { sfs with entry := entry }
  let entryIno ← sfsAllocIno
  writeBlock entry entrySize entryIno
  appendBlock current nameSize entryIno
  setInode file fun ci => { ci with inode := { ci.inode with nlinks := ci.inode.nlinks + 1 } }

/-- What one `read` after the other gives of a file. -/
def readChunks : ℕ → List UInt8 → List (List UInt8)
  | 0, _ => []
  | fuel + 1, bytes =>
    if bytes = [] then [] else bytes.take blkSize :: readChunks fuel (bytes.drop blkSize)

/-- A buffer that holds a byte string. -/
def bufferOf (bytes : List UInt8) : Block := fun i => bytes.getD i 0

/-- The loop of `open_file`; `last` is the length of the read before. -/
def openFileLoop (file : ℕ) : ℕ → List (List UInt8) → Pack Unit
  | _, [] => pure ()
  | last, chunk :: chunks => do
    require (last = blkSize) .assertion
    let ino ← sfsAllocIno
    writeBlock (bufferOf chunk) chunk.length ino
    appendBlock file chunk.length ino
    openFileLoop file chunk.length chunks

/-- `open_file`. -/
def openFile (file : ℕ) (bytes : List UInt8) : Pack Unit :=
  openFileLoop file blkSize (readChunks bytes.length bytes)

/-- `open_link`. -/
def openLink (file : ℕ) (target : List UInt8) : Pack Unit := do
  let ino ← sfsAllocIno
  if blkSize ≤ target.length then stop .readLink
  else do
    writeBlock (bufferOf target) target.length ino
    appendBlock file target.length ino

mutual

/-- What is behind a name: a regular file, a directory, a symbolic link, or something
that is not packed. `real` is the file number (`st_ino`). -/
inductive Node where
  | file (real : ℕ) (bytes : List UInt8)
  | dir (real : ℕ) (entries : Entries)
  | link (real : ℕ) (target : List UInt8)
  | other

/-- The names of a directory, in the order of `readdir`. -/
inductive Entries where
  | nil
  | cons (name : List UInt8) (node : Node) (rest : Entries)

end

/-- `add_file`. -/
def addFile (current : ℕ) (name : List UInt8) (real : ℕ) (bytes : List UInt8) : Pack Unit := do
  let sfs ← get
  match searchCacheInode sfs real with
  | some file => addEntry current file name
  | none => do
    let file ← allocCacheInode real 0 typeFile
    openFile file bytes
    addEntry current file name

/-- `add_link`. -/
def addLink (current : ℕ) (name : List UInt8) (real : ℕ) (target : List UInt8) : Pack Unit := do
  let file ← allocCacheInode real 0 typeLink
  openLink file target
  addEntry current file name

mutual

/-- What `open_dir` does with one name. Names that begin with a dot are skipped. -/
def addNode (current : ℕ) (name : List UInt8) : Node → Pack Unit
  | .file real bytes => addFile current name real bytes
  | .link real target => addLink current name real target
  | .other => pure ()
  | .dir real entries => do
    -- add_dir
    let sfs ← get
    require (searchCacheInode sfs real = none) .assertion
    let dir ← allocCacheInode real 0 typeDir
    addEntry dir dir dot
    addEntry dir current dotdot
    addEntries dir entries
    addEntry current dir name

/-- The loop of `open_dir`. -/
def addEntries (current : ℕ) : Entries → Pack Unit
  | .nil => pure ()
  | .cons name node rest => do
    if name.head? = some 46 then pure ()
    else if maxFnameLen < name.length then stop .nameTooLong
    else addNode current name node
    addEntries current rest

end

/-- `open_dir`. -/
def openDir (current parent : ℕ) (entries : Entries) : Pack Unit := do
  addEntry current current dot
  addEntry current parent dotdot
  addEntries current entries

/-! ## Closing -/

/-- The buffer of `close_sfs` for the blocks from `i` on: bits `start` to `end` are
set, word by word. -/
def freeBits (buffer : Block) (start : ℕ) : ℕ → Block
  | 0 => buffer
  | count + 1 =>
    let buffer := freeBits buffer start count
    let j := start + count
    copy buffer (4 * (j / 32)) (bytesLE (getLE buffer (4 * (j / 32)) 4 ||| 1 <<< (j % 32))) 4

/-- One block of the free map. -/
def freemapBlock (ninos nextIno i : ℕ) : Block :=
  if nextIno < i + blkBits then
    let start := if i < nextIno then nextIno - i else 0
    let stop := if ninos < i + blkBits then ninos - i else blkBits
    freeBits zeroBlock start (stop - start)
  else zeroBlock

/-- The loop of `close_sfs` over the free map, with `left` blocks to go. -/
def writeFreemap (i ino : ℕ) : ℕ → Pack Unit
  | 0 => pure ()
  | left + 1 => do
    let sfs ← get
    if i < sfs.ninos then do
      writeBlock (freemapBlock sfs.ninos sfs.nextIno i) blkSize ino
      writeFreemap (i + blkBits) (ino + 1) left
    else pure ()

/-- The blocks of one hash list are written. -/
def flushBlocks : List ℕ → Pack Unit
  | [] => pure ()
  | number :: rest => do
    let sfs ← get
    writeBlock (sfs.cache number) blkSize number
    flushBlocks rest

/-- The inodes of one hash list are written. -/
def flushInodes : List ℕ → Pack Unit
  | [] => pure ()
  | number :: rest => do
    let sfs ← get
    writeBlock (sfs.inode number).inode.image inodeSize (sfs.inode number).ino
    flushInodes rest

/-- The last loop of `close_sfs`, from list `i` on. -/
def flushAll (i : ℕ) : ℕ → Pack Unit
  | 0 => pure ()
  | left + 1 => do
    let sfs ← get
    flushBlocks (sfs.blocks i)
    flushInodes (sfs.inodes i)
    flushAll (i + 1) left

/-- `close_sfs`. -/
def closeSfs : Pack Unit := do
  let sfs ← get
  writeFreemap 0 blknFreemap sfs.ninos
  writeBlock sfs.super.image 44 blknSuper
  flushAll 0 hashListSize

/-- `create_img`: the tree is packed and the image is closed. -/
def createImg (size : ℕ) (image : ℕ → Block) (home : Entries) : Outcome Exit Sfs Unit :=
  match createSfs size image with
  | .ok root sfs => (openDir root root home >>= fun _ => closeSfs) sfs
  | .err e sfs => .err e sfs
  | .fault reason => .fault reason

end LiNos.Mksfs
