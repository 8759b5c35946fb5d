import LiNos.SfsFull

/-!
Enumeration of a directory (`sfs_getdirentry` and `file_getdirentry`).

The offset of a `dirent` counts the names that were given out, in units of a name, while the
search runs over the slots of the directory and skips the empty ones. Each call starts from
the first slot again; call after call gives the names of the occupied slots in order.
-/

namespace LiNos.Fs

open Kernel List

variable {c : Ctx} {bs : List ℕ} {i k n : ℕ}

/-- `sfs_dentry_size`, which is also the size of the name in `struct dirent`. -/
def dentrySize : ℕ := maxFnameLen + 1

/-- The loop of `sfs_getdirentry_sub_nolock` from slot `i` on, with `left` slots to go. -/
def getSlots (i : ℕ) : ℕ → ℕ → Kernel Fault Ctx DiskEntry
  | 0, _ => fail (-eNoent)
  | left + 1, slot => do
    let entry ← sfsDirentReadNolock i
    if entry.ino ≠ 0 then
      if slot = 0 then pure entry else getSlots (i + 1) left (slot - 1)
    else getSlots (i + 1) left slot

/-- `sfs_getdirentry_sub_nolock`. -/
def sfsGetdirentrySubNolock (slot : ℕ) : Kernel Fault Ctx DiskEntry := do
  let c ← get
  getSlots 0 c.sin.din.blocks slot

/-- `iobuf_move` of `len` bytes into the buffer: the iobuf, how many were moved, and the return code. -/
def iobufMove (iob : Iobuf) (len : ℕ) : Option (Iobuf × ℕ × ℤ) :=
  let alen := min iob.resid len
  if alen > 0 then do
    let iob ← iobufSkip iob alen
    some (iob, alen, if len - alen = 0 then 0 else -eNoMem)
  else some (iob, alen, if len = 0 then 0 else -eNoMem)

/-- `sfs_getdirentry`, where `kmalloc` does not fail: the iobuf and the name behind its base. -/
def sfsGetdirentry (iob : Iobuf) : Kernel Fault Ctx (Iobuf × List UInt8) := do
  if iob.offset < 0 ∨ iob.offset % dentrySize ≠ 0 then fail (-eInval)
  else do
    let slot := (iob.offset / dentrySize).toNat
    let c ← get
    if slot > c.sin.din.blocks then fail (-eNoent)
    else do
      let entry ← sfsGetdirentrySubNolock slot
      match iobufMove iob dentrySize with
      | none => stop .assertion
      | some (iob, _, ret) => if ret = 0 then pure (iob, entry.name) else fail ret

/-- `struct dirent`; the name is what string functions see. -/
structure Dirent where
  offset : ℤ
  name : List UInt8
deriving DecidableEq

/-- `file_getdirentry` of a descriptor of the directory: the return code, and the `dirent` behind the call. -/
def fileGetdirentry (direntp : Dirent) : Kernel Fault Ctx (ℤ × Dirent) := do
  match ← attempt (sfsGetdirentry (iobufInit dentrySize direntp.offset)) with
  | .ok (iob, name) => pure (0, ⟨direntp.offset + iob.used, name⟩)
  | .error e => pure (e, direntp)

/-- Calls of `file_getdirentry` with one `dirent`, and what each of them returned and left in it. -/
def readAll (direntp : Dirent) : ℕ → Kernel Fault Ctx (List (ℤ × Dirent))
  | 0 => pure []
  | calls + 1 => do
    let answer ← fileGetdirentry direntp
    let later ← readAll answer.2 calls
    pure (answer :: later)

/-- What the calls are to return while `names` are left: one name after the other, and then `-E_NOENT`. -/
def enumeration : List (List UInt8) → Dirent → ℕ → List (ℤ × Dirent)
  | _, _, 0 => []
  | [], direntp, calls + 1 => (-eNoent, direntp) :: enumeration [] direntp calls
  | name :: names, direntp, calls + 1 =>
    (0, ⟨direntp.offset + dentrySize, name⟩) :: enumeration names ⟨direntp.offset + dentrySize, name⟩ calls

/-- The entries of the slots of a directory. -/
def Ctx.entries (c : Ctx) (bs : List ℕ) : List DiskEntry := bs.map fun b => DiskEntry.load (c.vol.disk b)

/-- The names in the occupied slots, in slot order. -/
def Ctx.names (c : Ctx) (bs : List ℕ) : List (List UInt8) :=
  ((c.entries bs).filter fun entry => entry.ino ≠ 0).map DiskEntry.name

section Enumeration

variable (sound : c.vol.Sound) (mapped : Mapped c.vol c.sin.din bs) (dir : c.sin.din.type = typeDir)
include sound mapped dir

/-- By induction on the slots that are left: the search finds the occupied slot of that number. -/
theorem getSlots_run {left : ℕ} (rest : i + left = bs.length) (slot : ℕ) :
    getSlots i left slot c =
      (((c.entries bs).drop i).filter fun entry => entry.ino ≠ 0)[slot]?.elim (.err (-eNoent) c) (.ok · c) := by
  have length : (c.entries bs).length = bs.length := length_map _
  induction left generalizing i slot with
  | zero =>
    rw [drop_eq_nil_of_le (by omega)]
    rfl
  | succ left ih =>
    have below : i < bs.length := by omega
    have here : (c.entries bs)[i] = DiskEntry.load (c.vol.disk (bs.getD i 0)) := by
      rw [getD_eq_getElem _ _ below]
      exact getElem_map _
    have next : i + 1 + left = bs.length := by omega
    rw [getSlots, bind_ok (sfsDirentReadNolock_run sound mapped dir below), drop_eq_getElem_cons (by omega), here]
    by_cases used : (DiskEntry.load (c.vol.disk (bs.getD i 0))).ino ≠ 0
    · rw [if_pos used, filter_cons_of_pos (by simpa using used)]
      cases slot with
      | zero => rfl
      | succ slot =>
        rw [if_neg (Nat.succ_ne_zero slot), getElem?_cons_succ]
        exact ih next slot
    · rw [if_neg used, filter_cons_of_neg (by simpa using used)]
      exact ih next slot

omit sound dir in
/-- `sfs_getdirentry` with the offset behind `k` names. -/
theorem sfsGetdirentry_aligned (most : k ≤ bs.length) :
    sfsGetdirentry (iobufInit dentrySize (dentrySize * k)) c =
      (sfsGetdirentrySubNolock k >>= fun entry =>
        pure ((⟨dentrySize, dentrySize * k + dentrySize, dentrySize, 0⟩ : Iobuf), entry.name)) c := by
  have aligned : ¬ ((dentrySize * k : ℤ) < 0 ∨ (dentrySize * k : ℤ) % dentrySize ≠ 0) := by
    rw [Int.mul_emod_right, not_or, not_lt]
    exact ⟨Int.natCast_nonneg (dentrySize * k), not_not.mpr rfl⟩
  have slot : ((dentrySize * k : ℤ) / dentrySize).toNat = k := by
    rw [Int.mul_ediv_cancel_left _ (by decide), Int.toNat_natCast]
  have within : ¬ k > c.sin.din.blocks := by
    rw [mapped.blocks]
    omega
  have moved : iobufMove (iobufInit dentrySize (dentrySize * k)) dentrySize =
      some (⟨dentrySize, dentrySize * k + dentrySize, dentrySize, 0⟩, dentrySize, 0) := by
    simp [iobufMove, iobufInit, iobufSkip, dentrySize]
  rw [sfsGetdirentry, show (iobufInit dentrySize (dentrySize * k)).offset = dentrySize * k from rfl, if_neg aligned]
  simp only [slot, moved]
  rw [get_bind_run, if_neg within]
  rfl

/-- One call, with `k` names given out before. -/
theorem fileGetdirentry_run (name : List UInt8) (most : k ≤ (c.names bs).length) :
    fileGetdirentry ⟨dentrySize * k, name⟩ c =
      .ok ((c.names bs)[k]?.elim (-eNoent, ⟨dentrySize * k, name⟩) fun found =>
        (0, ⟨dentrySize * k + dentrySize, found⟩)) c := by
  have few : (c.names bs).length ≤ bs.length := by
    rw [Ctx.names, length_map]
    exact (length_filter_le _ _).trans (length_map _).le
  have start := sfsGetdirentry_aligned mapped (most.trans few)
  have search := getSlots_run sound mapped dir (Nat.zero_add _) k
  rw [drop_zero, ← mapped.blocks] at search
  rw [Ctx.names, getElem?_map]
  cases found : ((c.entries bs).filter fun entry => entry.ino ≠ 0)[k]? with
  | none =>
    have none : sfsGetdirentrySubNolock k c = .err (-eNoent) c := by
      rw [sfsGetdirentrySubNolock, get_bind_run, search, found]
      rfl
    rw [bind_err none] at start
    rw [fileGetdirentry, bind_ok (attempt_err start)]
    rfl
  | some entry =>
    have here : sfsGetdirentrySubNolock k c = .ok entry c := by
      rw [sfsGetdirentrySubNolock, get_bind_run, search, found]
      rfl
    rw [bind_ok here, pure_run] at start
    rw [fileGetdirentry, bind_ok (attempt_ok start)]
    rfl

/-- By induction on the calls, with `k` names given out before. -/
theorem readAll_run (calls : ℕ) (name : List UInt8) (most : k ≤ (c.names bs).length) :
    readAll ⟨dentrySize * k, name⟩ calls c =
      .ok (enumeration ((c.names bs).drop k) ⟨dentrySize * k, name⟩ calls) c := by
  induction calls generalizing k name with
  | zero =>
    rw [readAll, enumeration]
    rfl
  | succ calls ih =>
    rw [readAll, bind_ok (fileGetdirentry_run sound mapped dir name most)]
    rcases Nat.lt_or_ge k (c.names bs).length with more | none
    · have next : (dentrySize * k + dentrySize : ℤ) = dentrySize * (k + 1 : ℕ) := by
        rw [Int.natCast_succ, Int.mul_add, Int.mul_one]
      rw [getElem?_eq_getElem more, drop_eq_getElem_cons more, enumeration, Option.elim_some]
      simp only [next]
      rw [bind_ok (ih _ more), pure_run]
    · rw [getElem?_eq_none none, drop_eq_nil_of_le none, enumeration, Option.elim_none]
      have later := ih name most
      rw [drop_eq_nil_of_le none] at later
      rw [bind_ok later, pure_run]

end Enumeration

/-- Calls of `file_getdirentry` that start at offset 0 give the names of the occupied slots, one
after the other and each once, and then `-E_NOENT`; nothing else changes. -/
theorem directory_enumerated (sound : c.vol.Sound) (mapped : Mapped c.vol c.sin.din bs)
    (dir : c.sin.din.type = typeDir) (name : List UInt8) (calls : ℕ) :
    readAll ⟨0, name⟩ calls c = .ok (enumeration (c.names bs) ⟨0, name⟩ calls) c := by
  have read := readAll_run sound mapped dir calls name (Nat.zero_le _)
  simpa using read

/-- The root directory with its first slot empty. -/
def holedRoot : Ctx := ⟨(rootVol 0).write 3 zeroBlock, ⟨rootInode, 1, false⟩⟩

/-- The empty slot is skipped: the first call gives the name in the second slot, and the next one none. -/
theorem directory_enumerated_holed :
    readAll ⟨0, []⟩ 2 holedRoot = .ok [(0, ⟨256, dotdot⟩), (-eNoent, ⟨256, dotdot⟩)] holedRoot := by
  have laid := @rootMount_laid 0 (.inl rfl)
  have before := laid.mapped 1 rfl
  have mapped : Mapped holedRoot.vol holedRoot.sin.din [3, 4] := { before with entries := fun some => absurd rfl some }
  exact directory_enumerated (laid.sound.write 3 zeroBlock) mapped rfl [] 2

end LiNos.Fs
