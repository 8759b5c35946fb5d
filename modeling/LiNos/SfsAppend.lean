import LiNos.SfsContent
import LiNos.SfsShared

/-!
Descriptors opened with `O_APPEND` (file.c).

`file_open` sets the position of such a descriptor to the size of the file, and that is
all that `O_APPEND` does: `file_write` takes the position it finds, as for any other
descriptor. A write appends exactly if the file still ends there when it gets the lock of
the inode.
-/

namespace LiNos.Fs

open Kernel LittleEndian Function List

section Appending

variable {δ π : Type} [DecidableEq δ] [DecidableEq π] {s s' start : Shared δ π} {c c' : Ctx}
  {content written : List UInt8} {mem : Block} {offset len : ℕ} {fd : δ} {proc : π}

/-- The file has the bytes of `content` up to its size. -/
structure Contains (c : Ctx) (content : List UInt8) : Prop where
  spells : ∃ f, Spells c f ∧ ∀ x < content.length, f x = content.getD x 0
  size : c.sin.din.size = content.length

/-- What a step writes: the buffer of a write that gets the lock. -/
def Shared.writes (s : Shared δ π) : SharedEvent δ π → List UInt8
  | .locked proc =>
    match s.waiting proc with
    | some (.io _ true _ len mem) => bytesOf mem len
    | _ => []
  | _ => []

/-- There is room for the bytes of a waiting write behind the end of the file. -/
def Shared.Fits (s : Shared δ π) : Waiting δ → Prop
  | .io _ _ _ len _ => s.ctx.sin.din.size + len ≤ mapBytes ∧ Affords s.ctx (s.ctx.sin.din.size + len)
  | _ => True

/-- The steps of writers in append mode: the file is opened with `O_APPEND` and not
emptied, and only written. -/
def SharedEvent.Appends (s : Shared δ π) : SharedEvent δ π → Prop
  | .fileOpen _ _ flags => flags.append = true ∧ flags.empties = false
  | .fileWrite _ _ _ _ => True
  | .fdArrayDup _ _ => True
  | .locked proc => ∀ call, s.waiting proc = some call → s.Fits call
  | .elsewhere vol => Aside s.ctx (s.ctx.setVol vol)
  | .fileRead _ _ _ => False
  | .fileSeek _ _ _ _ => False

/-- A write that gets the lock and has bytes to write has the position where the file
ends then. -/
def SharedEvent.AtEnd (s : Shared δ π) : SharedEvent δ π → Prop
  | .locked proc => ∀ fd write offset len mem, s.waiting proc = some (.io fd write offset len mem) →
      len = 0 ∨ offset = s.ctx.sin.din.size
  | _ => True

/-- The states reached by writes at the end, and what has been written. -/
inductive AppendRun (start : Shared δ π) : Shared δ π → List UInt8 → Prop
  | start : AppendRun start start []
  | step {s s' : Shared δ π} {written : List UInt8} (event : SharedEvent δ π) : AppendRun start s written →
      event.Appends s → event.AtEnd s → (s.step event).Leaves s' →
      AppendRun start s' (written ++ s.writes event)

/-! ## What every such run keeps -/

/-- Every position is in the file, and only writes wait. -/
structure Appending (s : Shared δ π) (content : List UInt8) : Prop where
  contains : Contains s.ctx content
  slots : ∀ fd file, s.slots fd = .opened file → 0 ≤ file.pos ∧ file.pos ≤ s.ctx.sin.din.size
  waiting : ∀ p call, s.waiting p = some call →
    ∃ fd offset len mem, call = .io fd true (offset : ℕ) len mem ∧ offset ≤ s.ctx.sin.din.size

theorem Affords.mono {n : ℕ} (affords : Affords c n) (less : len ≤ n) : Affords c len := by
  have blocks : roundupDiv len blkSize ≤ roundupDiv n blkSize := by
    unfold roundupDiv blkSize
    omega
  unfold Affords DiskInode.need at *
  split at affords <;> split <;> omega

/-- A write at most at the end of the file: afterwards the buffer follows what was there
exactly if it began at the end. -/
theorem Contains.write (contains : Contains c content) (reached : offset ≤ c.sin.din.size)
    (within : c.sin.din.size + len ≤ mapBytes) (affords : Affords c (c.sin.din.size + len)) :
    ∃ c', sfsIo true (iobufInit len offset) mem c = .ok ⟨⟨len, offset + len, len, 0⟩, mem, 0⟩ c' ∧
      c'.sin.din.size = max c.sin.din.size (offset + len) ∧
      (Contains c' (content ++ bytesOf mem len) ↔ len = 0 ∨ offset = c.sin.din.size) := by
  obtain ⟨f, spells, bytes⟩ := contains.spells
  obtain ⟨c', ran, after, size⟩ := @Spells.write c f mem offset len spells reached (by omega)
    (affords.mono (by omega))
  refine ⟨c', ran, size, ?_⟩
  constructor
  · intro appended
    have length := appended.size
    rw [size, length_append, length_bytesOf, ← contains.size] at length
    omega
  · intro atEnd
    refine ⟨⟨_, after, ?_⟩, ?_⟩
    · intro x inside
      rw [length_append, length_bytesOf, ← contains.size] at inside
      rw [copy]
      rcases Nat.lt_or_ge x c.sin.din.size with before | beyond
      · rw [if_neg (by omega), bytes x (by rw [← contains.size]; exact before),
          getD_append _ _ _ _ (by rw [← contains.size]; exact before)]
      · have place : offset = content.length := by
          rw [← contains.size]
          omega
        rw [if_pos (by omega), getD_append_right _ _ _ _ (by rw [← contains.size]; exact beyond),
          getD_eq_getElem _ _ (by rw [length_bytesOf, ← place]; omega), getElem_bytesOf, place]
    · rw [size, length_append, length_bytesOf, ← contains.size]
      omega

omit [DecidableEq δ] [DecidableEq π] in
theorem Shared.Fresh.appending (fresh : start.Fresh) (contains : Contains start.ctx content) :
    Appending start content := by
  refine ⟨contains, ?_, ?_⟩
  · intro fd file opened
    rw [fresh.slots] at opened
    cases opened
  · intro p call waits
    rw [fresh.waiting] at waits
    cases waits

section

variable (appending : Appending s content)

include appending

omit [DecidableEq π] in
/-- A descriptor changes to a position in the file. -/
theorem Appending.setSlot {file : File} (valid : 0 ≤ file.pos)
    (inside : file.pos ≤ s.ctx.sin.din.size) : Appending (s.setSlot fd (.opened file)) content := by
  refine { appending with slots := ?_ }
  intro other old opened
  rw [Shared.setSlot_slots] at opened
  by_cases same : other = fd
  · rw [same, update_self] at opened
    cases opened
    exact ⟨valid, inside⟩
  · rw [update_of_ne same] at opened
    exact appending.slots other old opened

theorem Appending.fileOpen {flags : OpenFlags}
    (append : flags.append = true) (keeps : flags.empties = false) :
    Appending (s.fileOpen proc fd flags) content := by
  unfold Shared.fileOpen
  cases s.slots fd with
  | none =>
    rw [if_neg (show ¬ (flags.empties = true ∧ s.ctx.sin.din.size ≠ 0) by rw [keeps]; simp)]
    split_ifs with refused
    · exact appending
    · apply appending.setSlot
      · rw [if_pos append]
        exact Int.natCast_nonneg _
      · rw [if_pos append]
  | init => exact appending
  | opened file => exact appending

omit [DecidableEq δ] in
theorem Appending.fileWrite :
    Appending (s.fileIo proc fd true len mem) content := by
  unfold Shared.fileIo
  cases slot : s.slots fd with
  | none => exact appending
  | init => exact appending
  | opened file =>
    dsimp only
    by_cases allowed : (if true = true then file.writable else file.readable) = true
    · rw [if_pos allowed]
      refine { appending with waiting := ?_ }
      intro p call waits
      rw [Shared.setWaiting_waiting] at waits
      by_cases same : p = proc
      · rw [same, update_self] at waits
        cases waits
        obtain ⟨valid, inside⟩ := appending.slots fd file slot
        obtain ⟨pos, eq⟩ := Int.eq_ofNat_of_zero_le valid
        rw [eq] at inside ⊢
        exact ⟨fd, pos, len, mem, rfl, Int.ofNat_le.mp inside⟩
      · rw [update_of_ne same] at waits
        exact appending.waiting p call waits
    · rw [if_neg allowed]
      exact appending

omit [DecidableEq π] in
theorem Appending.fdArrayDup {target : δ} :
    Appending (s.fdArrayDup fd target) content := by
  unfold Shared.fdArrayDup
  split
  · rename_i file opened free
    obtain ⟨valid, inside⟩ := appending.slots fd file opened
    exact appending.setSlot valid inside
  · exact appending

end

theorem Contains.aside (contains : Contains c content) (aside : Aside c c') : Contains c' content := by
  obtain ⟨f, spells, bytes⟩ := contains.spells
  exact ⟨⟨f, spells.aside aside, bytes⟩, by rw [aside.sin]; exact contains.size⟩

section

variable (appending : Appending s content)

include appending

omit [DecidableEq δ] [DecidableEq π] in
theorem Appending.elsewhere {vol : Vol}
    (aside : Aside s.ctx (s.ctx.setVol vol)) : Appending (s.setCtx (s.ctx.setVol vol)) content :=
  ⟨appending.contains.aside aside, appending.slots, appending.waiting⟩

/-- A write that gets the lock. -/
theorem Appending.locked
    (waits : s.waiting proc = some (.io fd true (offset : ℕ) len mem)) (reached : offset ≤ s.ctx.sin.din.size)
    (fits : s.Fits (.io fd true (offset : ℕ) len mem)) :
    ∃ s', s.resume proc = .ok () s' ∧
      (Contains s'.ctx (content ++ bytesOf mem len) ↔ len = 0 ∨ offset = s.ctx.sin.din.size) ∧
      (len = 0 ∨ offset = s.ctx.sin.din.size → Appending s' (content ++ bytesOf mem len)) := by
  obtain ⟨within, affords⟩ := fits
  obtain ⟨c', ran, size, iff⟩ := appending.contains.write reached within affords
  have moved : s.resume proc = .ok () (((s.setWaiting proc none).setCtx c').advance fd len) := by
    rw [Shared.resume, waits]
    change (sfsIo true (iobufInit len offset) mem s.ctx).conclude _ _ = _
    rw [ran]
    rfl
  have ctx : (((s.setWaiting proc none).setCtx c').advance fd len).ctx = c' := by
    unfold Shared.advance
    split
    · rfl
    · rfl
  refine ⟨_, moved, by rw [ctx]; exact iff, ?_⟩
  intro atEnd
  have longer : c'.sin.din.size = s.ctx.sin.din.size + len := by omega
  have back : Appending ((s.setWaiting proc none).setCtx c') (content ++ bytesOf mem len) := by
    refine ⟨iff.mpr atEnd, ?_, ?_⟩
    · intro other file opened
      obtain ⟨valid, inside⟩ := appending.slots other file opened
      exact ⟨valid, by change _ ≤ (c'.sin.din.size : ℤ); omega⟩
    · intro p call still
      by_cases same : p = proc
      · rw [same, Shared.setCtx_waiting, Shared.setWaiting_waiting, update_self] at still
        cases still
      · rw [Shared.setCtx_waiting, Shared.setWaiting_waiting, update_of_ne same] at still
        obtain ⟨fd, offset, len, mem, eq, inside⟩ := appending.waiting p call still
        exact ⟨fd, offset, len, mem, eq, by change _ ≤ c'.sin.din.size; omega⟩
  unfold Shared.advance
  cases slot : ((s.setWaiting proc none).setCtx c').slots fd with
  | none => exact back
  | init => exact back
  | opened file =>
    obtain ⟨valid, inside⟩ := appending.slots fd file slot
    exact back.setSlot (by dsimp only; omega) (by change _ ≤ (c'.sin.din.size : ℤ); dsimp only; omega)

omit [DecidableEq δ] [DecidableEq π] in
theorem Appending.ifIdle {t : Shared δ π}
    (kept : Appending t content) : Appending (s.ifIdle proc t) content := by
  unfold Shared.ifIdle
  split
  · exact kept
  · exact appending

/-- A step comes back. It appends what it writes exactly if it writes at the end. -/
theorem Appending.step (event : SharedEvent δ π) (appends : event.Appends s) :
    ∃ s', s.step event = .ok () s' ∧
      (Contains s'.ctx (content ++ s.writes event) ↔ event.AtEnd s) ∧
      (event.AtEnd s → Appending s' (content ++ s.writes event)) := by
  have quiet : ∀ t : Shared δ π, Appending t content →
      (Contains t.ctx (content ++ []) ↔ True) ∧ (True → Appending t (content ++ [])) := by
    intro t after
    rw [append_nil]
    exact ⟨iff_of_true after.contains trivial, fun _ => after⟩
  cases event with
  | fileOpen proc fd flags =>
    exact ⟨_, rfl, quiet _ (appending.ifIdle (appending.fileOpen appends.1 appends.2))⟩
  | fileRead proc fd len => exact appends.elim
  | fileWrite proc fd len mem => exact ⟨_, rfl, quiet _ (appending.ifIdle appending.fileWrite)⟩
  | fileSeek proc fd pos whence => exact appends.elim
  | fdArrayDup fd target => exact ⟨_, rfl, quiet _ appending.fdArrayDup⟩
  | elsewhere vol => exact ⟨_, rfl, quiet _ (appending.elsewhere appends)⟩
  | locked proc =>
    cases waits : s.waiting proc with
    | none =>
      have idle : s.resume proc = .ok () s := by
        rw [Shared.resume, waits]
      have none : s.writes (.locked proc) = [] := by
        simp only [Shared.writes, waits]
      have atEnd : (SharedEvent.locked proc).AtEnd s ↔ True := by
        apply iff_of_true _ trivial
        intro fd write offset len mem asked
        rw [waits] at asked
        cases asked
      rw [none, atEnd]
      exact ⟨s, idle, quiet s appending⟩
    | some call =>
      obtain ⟨fd, offset, len, mem, rfl, reached⟩ := appending.waiting proc call waits
      have bytes : s.writes (.locked proc) = bytesOf mem len := by
        simp only [Shared.writes, waits]
      have atEnd : (SharedEvent.locked proc).AtEnd s ↔ len = 0 ∨ offset = s.ctx.sin.din.size := by
        constructor
        · intro all
          have here := all fd true offset len mem waits
          omega
        · intro here fd' write' offset' len' mem' asked
          rw [waits] at asked
          cases asked
          omega
      rw [bytes, atEnd]
      exact appending.locked waits reached (appends _ waits)

end

theorem AppendRun.appending (run : AppendRun start s written) (fresh : start.Fresh)
    (contains : Contains start.ctx content) : Appending s (content ++ written) := by
  induction run with
  | start =>
    rw [append_nil]
    exact fresh.appending contains
  | step event _ appends atEnd leaves ih =>
    obtain ⟨s', ran, -, after⟩ := ih.step event appends
    rw [ran] at leaves
    rcases leaves with ⟨_, same⟩ | ⟨_, same⟩
    · cases same
      rw [← append_assoc]
      exact after atEnd
    · cases same

/-- As long as every write gets the lock while the file ends at its position, the file is
what it was followed by the buffers in the order of the writes. The first write that finds
the file longer than its position does not append. -/
theorem appends_follow_each_other (fresh : start.Fresh) (contains : Contains start.ctx content)
    (run : AppendRun start s written) :
    Contains s.ctx (content ++ written) ∧
      ∀ event : SharedEvent δ π, event.Appends s → ∃ s', s.step event = .ok () s' ∧
        (Contains s'.ctx (content ++ written ++ s.writes event) ↔ event.AtEnd s) := by
  have appending := run.appending fresh contains
  refine ⟨appending.contains, ?_⟩
  intro event appends
  obtain ⟨s', ran, iff, -⟩ := appending.step event appends
  exact ⟨s', ran, iff⟩

end Appending

/-! ## Two descriptors -/

/-- Open for writing with `O_APPEND`. -/
def wrAppend : OpenFlags := ⟨false, true, false, false, false, true⟩

theorem unopened_contains : Contains unopened.ctx [] := by
  have inStep : InStep unopened.ctx := by
    refine ⟨⟨rfl, rfl, by decide, ?_, by decide, by decide⟩, rfl, ⟨[], ?_⟩, rfl⟩
    · intro b free
      have spot : ∀ b < 32, unopened.ctx.vol.freemap.bit b = true → 3 < b := by decide
      have place := spot b free.1 free.2
      have bound : b < 32 := free.1
      exact ⟨by omega, bound⟩
    · refine ⟨rfl, fun _ => rfl, fun _ => by decide, fun there => absurd rfl there, by decide, ?_, ?_⟩
      · intro b member
        cases member
      · exact nodup_nil
  obtain ⟨bs, mapped⟩ := inStep.mapped
  have none : bs = [] := length_eq_zero_iff.mp mapped.blocks.symm
  subst none
  exact ⟨⟨_, ⟨inStep, [], mapped, fun _ => rfl⟩, fun x inside => absurd inside (Nat.not_lt_zero x)⟩, rfl⟩

/-- A descriptor that is opened after the first one has written appends behind it. -/
theorem appends_follow_each_other_two : ∃ s : Shared Bool Bool,
    AppendRun unopened s [97, 98] ∧ Contains s.ctx [97, 98] := by
  have opened : AppendRun unopened _ _ := AppendRun.step (.fileOpen false false wrAppend) .start ⟨rfl, rfl⟩ trivial
    (.inl ⟨(), rfl⟩)
  have asked := AppendRun.step (.fileWrite false false 1 fun _ => 97) opened trivial trivial (.inl ⟨(), rfl⟩)
  have wrote := AppendRun.step (.locked false) asked
    (by
      intro call waits
      cases waits
      exact ⟨by decide, by unfold Affords; decide⟩)
    (by
      intro fd write offset len mem waits
      cases waits
      exact .inr rfl)
    (.inl ⟨(), rfl⟩)
  have opened₂ := AppendRun.step (.fileOpen true true wrAppend) wrote ⟨rfl, rfl⟩ trivial (.inl ⟨(), rfl⟩)
  have asked₂ := AppendRun.step (.fileWrite true true 1 fun _ => 98) opened₂ trivial trivial (.inl ⟨(), rfl⟩)
  have wrote₂ := AppendRun.step (.locked true) asked₂
    (by
      intro call waits
      cases waits
      exact ⟨by decide, by unfold Affords; decide⟩)
    (by
      intro fd write offset len mem waits
      cases waits
      exact .inr rfl)
    (.inl ⟨(), rfl⟩)
  exact ⟨_, wrote₂, (appends_follow_each_other unopened_fresh unopened_contains wrote₂).1⟩

/-- Two descriptors are opened with `O_APPEND` on an empty file, and one byte is written
through each. The file has one byte afterwards. -/
theorem second_append_overwrites : unopened.Fresh ∧ Contains unopened.ctx [] ∧
    ∃ s, unopened.runs [.fileOpen false false wrAppend, .fileOpen true true wrAppend,
        .fileWrite false false 1 fun _ => 97, .locked false, .fileWrite true true 1 fun _ => 98, .locked true] =
      .ok () s ∧ s.ctx.sin.din.size = 1 ∧ ¬ Contains s.ctx [97, 98] := by
  refine ⟨unopened_fresh, unopened_contains, _, rfl, rfl, ?_⟩
  intro both
  cases both.size

end LiNos.Fs
