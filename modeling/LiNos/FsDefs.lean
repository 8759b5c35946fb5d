import LiNos.Outcome

/-!
What the file system modules share: error.h, the flags of unistd.h, and the ways in
which their code stops.
-/

namespace LiNos.Fs

def eInval : ℤ := 3
def eNoMem : ℤ := 4
def eNoent : ℤ := 16
def eNotdir : ℤ := 18

/-- Where a call does not come back. The assertions and panics that are named are
those something is proved about; every other assertion is `assertion`. -/
inductive Fault where
  | assertion
  /-- `assert(index <= din->blocks)` in `sfs_bmap_load_nolock`. -/
  | indexPastBlocks
  /-- `assert(tblks == din->blocks)` in `sfs_truncfile`, before it takes the lock. -/
  | lengthMismatch
  /-- `panic ("sfs_bmap_get_nolock - index out of range")`. -/
  | indexOutOfRange
  /-- `panic("sfs_block_inuse: called out of range ...")`. -/
  | blockOutOfRange
  /-- `panic("invalid file type ...")`. -/
  | invalidType
  /-- A pointer or an inode operation that is not there. -/
  | nullPointer
  /-- A variable is used that no assignment has reached. -/
  | uninitialised
deriving DecidableEq, Repr

end LiNos.Fs
