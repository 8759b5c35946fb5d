import LiNos.Outcome
import LiNos.Proc
import LiNos.RingBuffer

/-!
The stdin device (dev_stdin.c): a ring of 4096 characters that the keyboard interrupt
writes and any number of processes read.

A `dev_stdin_read` works with interrupts off except while it sleeps, so a call is cut at
`schedule`. A process sleeps in at most one call, and its `wait_t` is named by it. The
positions are `off_t`, which is a signed 32-bit number here; an overflow is a fault. Of
the processes only the readers and whether they are awake are modelled.
-/

namespace LiNos.Stdin

open Kernel RingBuffer Function List
open Proc (wtInterrupted)

def stdinBufsize : ℕ := 4096

def intMax : ℕ := 0x7fffffff

def wtKbd : ℕ := 0x00000004 ||| wtInterrupted

inductive Fault where
  | overflow
deriving DecidableEq

/-- A call of `dev_stdin_read` that is in `schedule`: how many characters it still wants,
the `wakeup_flags` of its `wait_t`, and whether the process was woken up. -/
structure Waiting where
  left : ℕ
  wakeupFlags : ℕ
  awake : Bool

/-- The device. `queue` is its wait queue, `calls` has the calls that sleep, and `bufs`
what each process's last call has put into the process's buffer; its length is `ret`. -/
structure Device (ρ : Type) where
  buffer : ℕ → UInt8
  pRpos : ℕ
  pWpos : ℕ
  queue : List ρ
  calls : ρ → Option Waiting
  bufs : ρ → List UInt8

section Model

variable {ρ : Type} [DecidableEq ρ]

/-- `stdin_device_init`. -/
def Device.init : Device ρ := ⟨fun _ => 0, 0, 0, [], fun _ => none, fun _ => []⟩

/-- `wakeup_queue` with `WT_KBD`, which also takes every `wait_t` out of the queue. -/
def wakeupQueue (s : Device ρ) : Device ρ :=
  { s with
    queue := []
    calls := fun r =>
      if r ∈ s.queue then (s.calls r).map ({ · with wakeupFlags := wtKbd, awake := true })
      else s.calls r }

/-- `dev_stdin_write`. -/
def devStdinWrite (c : UInt8) : Kernel Fault (Device ρ) Unit :=
  if c ≠ 0 then do
    modify fun s => { s with buffer := update s.buffer (s.pWpos % stdinBufsize) c }
    let s ← get
    if s.pWpos - s.pRpos < stdinBufsize then
      require (s.pWpos < intMax) .overflow
      modify fun s => { s with pWpos := s.pWpos + 1 }
    modify wakeupQueue
  else pure ()

/-- `wait_current_set`. -/
def waitCurrentSet (r : ρ) (left : ℕ) (s : Device ρ) : Device ρ :=
  { s with
    queue := s.queue ++ [r]
    calls := update s.calls r (some ⟨left, wtInterrupted, false⟩) }

/-- One pass of the loop of `dev_stdin_read` that finds a character. -/
def takeOne (r : ρ) (c : UInt8) (s : Device ρ) : Device ρ :=
  { s with
    pRpos := s.pRpos + 1
    bufs := update s.bufs r (s.bufs r ++ [c]) }

/-- The loop of `dev_stdin_read`, with as many characters to go as given, until the call
returns or sleeps. The result is what it took from the buffer. -/
def readLoop (r : ρ) : ℕ → Kernel Fault (Device ρ) (List UInt8)
  | 0 => pure []
  | left + 1 => do
    let s ← get
    if s.pRpos < s.pWpos then do
      let c := s.buffer (s.pRpos % stdinBufsize)
      modify (takeOne r c)
      let cs ← readLoop r left
      pure (c :: cs)
    else do
      modify (waitCurrentSet r (left + 1))
      pure []

/-- `dev_stdin_read` up to its return or its first call of `schedule`. -/
def devStdinRead (r : ρ) (len : ℕ) : Kernel Fault (Device ρ) (List UInt8) := do
  modify fun s => { s with bufs := update s.bufs r [] }
  readLoop r len

/-- `dev_stdin_read` from the return of `schedule` on. -/
def devStdinResume (r : ρ) (call : Waiting) : Kernel Fault (Device ρ) (List UInt8) := do
  modify fun s => { s with queue := s.queue.erase r, calls := update s.calls r none }
  if call.wakeupFlags = wtKbd then readLoop r call.left else pure []

/-! ## Runs -/

/-- What happens with interrupts off: a character arrives, a process calls
`dev_stdin_read`, a process that sleeps is woken up by something else, a process that was
woken up goes on. -/
inductive Event (ρ : Type) where
  | write (c : UInt8)
  | read (r : ρ) (len : ℕ)
  | wake (r : ρ)
  | resume (r : ρ) (call : Waiting)

/-- A process makes one call at a time, and goes on once it is awake. -/
def Event.Possible (s : Device ρ) : Event ρ → Prop
  | .write _ => True
  | .read r _ => s.calls r = none
  | .wake _ => True
  | .resume r call => s.calls r = some call ∧ call.awake

/-- The result is what was taken from the buffer. -/
def step : Event ρ → Kernel Fault (Device ρ) (List UInt8)
  | .write c => do
    devStdinWrite c
    pure []
  | .read r len => devStdinRead r len
  | .wake r => do
    modify fun s =>
      { s with
        calls := update s.calls r ((s.calls r).map ({ · with awake := true })) }
    pure []
  | .resume r call => devStdinResume r call

/-- The characters that wait to be read. -/
def pending (s : Device ρ) : List UInt8 := contents s.buffer stdinBufsize s.pRpos s.pWpos

/-- A character is accepted if fewer than `STDIN_BUFSIZE` are pending. The driver passes on
0 when there is no character. -/
def accepted (s : Device ρ) : Event ρ → List UInt8
  | .write c => if c ≠ 0 ∧ (pending s).length < stdinBufsize then [c] else []
  | _ => []

/-- Runs whose steps satisfy `P`, with the characters that were accepted and those that
were taken from the buffer. -/
inductive Run (P : Device ρ → Event ρ → Prop) : Device ρ → List UInt8 → List UInt8 → Prop
  | start : Run P Device.init [] []
  | step {s s' : Device ρ} {e : Event ρ} {arrived taken cs : List UInt8} (run : Run P s arrived taken)
    (possible : e.Possible s) (heeded : P s e) (ran : step e s = .ok cs s') :
    Run P s' (arrived ++ accepted s e) (taken ++ cs)

/-- A character that arrives finds room in the buffer and in the position, or finds the
buffer full and is the same as the oldest character there. -/
def Heeds (s : Device ρ) : Event ρ → Prop
  | .write c => c = 0 ∨ s.pWpos - s.pRpos < stdinBufsize ∧ s.pWpos < intMax ∨
    s.pWpos - s.pRpos = stdinBufsize ∧ c = s.buffer (s.pRpos % stdinBufsize)
  | _ => True

end Model

section Specs

variable {ρ : Type} [DecidableEq ρ] {s s' : Device ρ} {r : ρ} {c : UInt8} {n : ℕ}

/-- The read position is behind the write position by at most the size of the ring. -/
structure InRing (s : Device ρ) : Prop where
  order : s.pRpos ≤ s.pWpos
  near : s.pWpos ≤ s.pRpos + stdinBufsize

/-- A call takes characters from the front. -/
def Takes (s s' : Device ρ) (cs : List UInt8) : Prop := InRing s' ∧ pending s = cs ++ pending s'

theorem readLoop_run (ring : InRing s) : ∃ cs s', readLoop r n s = .ok cs s' ∧ Takes s s' cs := by
  induction n generalizing s with
  | zero => exact ⟨[], s, rfl, ring, rfl⟩
  | succ n ih =>
    rw [readLoop, get_bind_run]
    split_ifs with unread
    · rw [modify_bind_run]
      have ringNext : InRing (takeOne r (s.buffer (s.pRpos % stdinBufsize)) s) := by
        have near := ring.near
        exact ⟨unread, by change s.pWpos ≤ s.pRpos + 1 + stdinBufsize; omega⟩
      obtain ⟨cs, s', ran, ring', rest⟩ := ih ringNext
      refine ⟨s.buffer (s.pRpos % stdinBufsize) :: cs, s', by rw [bind_ok ran]; rfl, ring', ?_⟩
      rw [cons_append, ← rest]
      exact contents_head unread
    · rw [modify_bind_run]
      exact ⟨[], waitCurrentSet r (n + 1) s, rfl, ⟨ring.order, ring.near⟩, rfl⟩

theorem devStdinWrite_accepts (char : c ≠ 0) (room : s.pWpos - s.pRpos < stdinBufsize)
    (word : s.pWpos < intMax) :
    devStdinWrite c s = .ok () (wakeupQueue { s with
      buffer := update s.buffer (s.pWpos % stdinBufsize) c
      pWpos := s.pWpos + 1 }) := by
  rw [devStdinWrite, if_pos char, modify_bind_run, get_bind_run, if_pos room, require_bind_run word]
  rfl

/-- Room: the character is put behind the pending ones. -/
theorem devStdinWrite_room (ring : InRing s) (char : c ≠ 0) (room : s.pWpos - s.pRpos < stdinBufsize)
    (word : s.pWpos < intMax) :
    ∃ s', devStdinWrite c s = .ok () s' ∧ InRing s' ∧ pending s' = pending s ++ [c] := by
  have order := ring.order
  refine ⟨_, devStdinWrite_accepts char room word, ⟨?_, ?_⟩, contents_push order room⟩
  · change s.pRpos ≤ s.pWpos + 1
    omega
  · change s.pWpos + 1 ≤ s.pRpos + stdinBufsize
    omega

theorem devStdinWrite_drops (char : c ≠ 0) (full : s.pWpos = s.pRpos + stdinBufsize) :
    devStdinWrite c s = .ok () (wakeupQueue { s with
      buffer := update s.buffer (s.pWpos % stdinBufsize) c }) := by
  rw [devStdinWrite, if_pos char, modify_bind_run, get_bind_run, if_neg (by dsimp only; omega)]
  rfl

/-- No room: the character replaces the oldest one. -/
theorem devStdinWrite_full (char : c ≠ 0) (full : s.pWpos = s.pRpos + stdinBufsize) :
    ∃ s', devStdinWrite c s = .ok () s' ∧ s'.pRpos = s.pRpos ∧ s'.pWpos = s.pWpos ∧
      pending s' = c :: (pending s).tail := by
  have unread : s.pRpos < s.pWpos := by
    rw [full]
    exact Nat.lt_add_of_pos_right (by decide)
  refine ⟨_, devStdinWrite_drops char full, rfl, rfl, ?_⟩
  have rest : (pending s).tail = contents s.buffer stdinBufsize (s.pRpos + 1) s.pWpos := by
    rw [pending, contents_head unread, tail_cons]
  rw [rest]
  exact contents_overwrite full (by decide)

omit [DecidableEq ρ] in
theorem length_pending : (pending s).length = s.pWpos - s.pRpos := length_contents

/-- A character that finds the ring full leaves the pending ones as they are exactly if it
is the same as the oldest of them. -/
theorem Heeds.pending_iff (ring : InRing s) (ran : devStdinWrite c s = .ok () s') :
    pending s' = pending s ++ accepted s (.write c) ↔ Heeds s (.write c) := by
  by_cases char : c = 0
  · have same : devStdinWrite c s = .ok () s := by
      rw [devStdinWrite, if_neg (not_not.mpr char)]
      rfl
    cases same.symm.trans ran
    simp [accepted, Heeds, char]
  by_cases room : s.pWpos - s.pRpos < stdinBufsize
  · have word : s.pWpos < intMax := by
      by_contra beyond
      rw [devStdinWrite, if_pos char, modify_bind_run, get_bind_run, if_pos room,
        require_bind_fault beyond] at ran
      cases ran
    obtain ⟨t, wrote, -, after⟩ := devStdinWrite_room ring char room word
    cases wrote.symm.trans ran
    have taken : accepted s (.write c) = [c] := if_pos ⟨char, by rwa [length_pending]⟩
    exact iff_of_true (by rw [after, taken]) (.inr (.inl ⟨room, word⟩))
  · have full : s.pWpos = s.pRpos + stdinBufsize := by
      have near := ring.near
      have order := ring.order
      omega
    have unread : s.pRpos < s.pWpos := by
      rw [full]
      exact Nat.lt_add_of_pos_right (by decide)
    obtain ⟨t, wrote, -, -, after⟩ := devStdinWrite_full char full
    cases wrote.symm.trans ran
    have dropped : accepted s (.write c) = [] :=
      if_neg fun both => room (by rw [← length_pending]; exact both.2)
    have shape : pending s = s.buffer (s.pRpos % stdinBufsize) :: (pending s).tail := by
      rw [pending, contents_head unread, tail_cons]
    rw [after, dropped, append_nil]
    constructor
    · intro same
      rw [shape] at same
      exact .inr (.inr ⟨by omega, (cons.inj same).1⟩)
    · rintro (zero | ⟨more, -⟩ | ⟨-, same⟩)
      · exact absurd zero char
      · exact absurd more room
      · rw [same, ← shape]

theorem Heeds.returns (ring : InRing s) (heeds : Heeds s (.write c)) :
    ∃ s', devStdinWrite c s = .ok () s' ∧ InRing s' := by
  by_cases char : c = 0
  · refine ⟨s, ?_, ring⟩
    rw [devStdinWrite, if_neg (not_not.mpr char)]
    rfl
  · rcases heeds with zero | ⟨room, word⟩ | ⟨full, -⟩
    · exact absurd zero char
    · obtain ⟨s', wrote, ring', -⟩ := devStdinWrite_room ring char room word
      exact ⟨s', wrote, ring'⟩
    · have order := ring.order
      have ringFull : s.pWpos = s.pRpos + stdinBufsize := by omega
      obtain ⟨s', wrote, same, same', -⟩ := devStdinWrite_full char ringFull
      exact ⟨s', wrote, by rw [same, same']; exact order, by rw [same, same']; exact ring.near⟩

/-- What a step that heeds the condition does: it returns, it puts what was accepted behind
the pending characters and takes from their front. -/
theorem step_run {e : Event ρ} (ring : InRing s) (heeds : Heeds s e) :
    ∃ cs s', step e s = .ok cs s' ∧ InRing s' ∧ pending s ++ accepted s e = cs ++ pending s' := by
  cases e with
  | write c =>
    obtain ⟨s', wrote, ring'⟩ := heeds.returns ring
    refine ⟨[], s', ?_, ring', ((Heeds.pending_iff ring wrote).mpr heeds).symm⟩
    rw [step, bind_ok wrote]
    rfl
  | read r len =>
    obtain ⟨cs, s', ran, ring', rest⟩ :=
      readLoop_run (s := { s with bufs := update s.bufs r [] })
        ⟨ring.order, ring.near⟩
    refine ⟨cs, s', ?_, ring', ?_⟩
    · rw [step, devStdinRead, modify_bind_run, ran]
    · rw [← rest]
      exact append_nil _
  | wake r => exact ⟨[], _, rfl, ⟨ring.order, ring.near⟩, append_nil _⟩
  | resume r call =>
    by_cases key : call.wakeupFlags = wtKbd
    · obtain ⟨cs, s', ran, ring', rest⟩ := readLoop_run
        (s := { s with queue := s.queue.erase r, calls := update s.calls r none })
        ⟨ring.order, ring.near⟩
      refine ⟨cs, s', ?_, ring', ?_⟩
      · rw [step, devStdinResume, modify_bind_run, if_pos key, ran]
      · rw [← rest]
        exact append_nil _
    · refine ⟨[], { s with queue := s.queue.erase r, calls := update s.calls r none }, ?_,
        ⟨ring.order, ring.near⟩, append_nil _⟩
      rw [step, devStdinResume, modify_bind_run, if_neg key]
      rfl

theorem Run.fifo {arrived taken : List UInt8} (run : Run Heeds s arrived taken) :
    InRing s ∧ arrived = taken ++ pending s := by
  induction run with
  | start => exact ⟨⟨Nat.le_refl _, Nat.zero_le _⟩, rfl⟩
  | step _ _ heeded ran ih =>
    obtain ⟨ring, before⟩ := ih
    obtain ⟨cs, s', ran', ring', after⟩ := step_run ring heeded
    cases ran'.symm.trans ran
    exact ⟨ring', by rw [before, append_assoc, after, append_assoc]⟩

/-- In every run whose characters find room, or find the buffer full and repeat its oldest
character, the readers get the accepted characters in their order. A character then leaves
the pending ones as they are, apart from itself if it is accepted, exactly if it heeds that
condition; and every step that does returns. -/
theorem readers_get_accepted_in_order {arrived taken : List UInt8} (run : Run Heeds s arrived taken) :
    taken <+: arrived ∧ arrived = taken ++ pending s ∧
      (∀ c s', devStdinWrite c s = .ok () s' →
        (pending s' = pending s ++ accepted s (.write c) ↔ Heeds s (.write c))) ∧
      ∀ e, Heeds s e → ∃ cs s', step e s = .ok cs s' := by
  obtain ⟨ring, all⟩ := run.fifo
  refine ⟨⟨pending s, all.symm⟩, all, fun c s' ran => Heeds.pending_iff ring ran, ?_⟩
  intro e heeds
  obtain ⟨cs, s', ran, -⟩ := step_run ring heeds
  exact ⟨cs, s', ran⟩

/-- Two characters arrive and one is read. -/
theorem readers_get_accepted_in_order_two :
    ∃ s : Device ℕ, Run Heeds s [104, 105] [104] ∧ [(104 : UInt8)] <+: [104, 105] := by
  have begun : Run Heeds (Device.init : Device ℕ) [] [] := Run.start
  have first := Run.step (e := .write 104) begun trivial (.inr (.inl ⟨by decide, by decide⟩)) rfl
  have second := Run.step (e := .write 105) first trivial (.inr (.inl ⟨by decide, by decide⟩)) rfl
  have third := Run.step (e := .read 0 1) second rfl trivial rfl
  exact ⟨_, third, (readers_get_accepted_in_order third).1⟩

/-- The same character arrives again and again. -/
theorem run_fill (ρ : Type) [DecidableEq ρ] (c : UInt8) (char : c ≠ 0) (n : ℕ)
    (fits : n ≤ stdinBufsize) :
    ∃ s : Device ρ, Run Heeds s (replicate n c) [] ∧ s.pRpos = 0 ∧ s.pWpos = n ∧
      ∀ r, s.calls r = none := by
  induction n with
  | zero => exact ⟨_, Run.start, rfl, rfl, fun _ => rfl⟩
  | succ n ih =>
    obtain ⟨s, run, read, wrote, idle⟩ := ih (by omega)
    have room : s.pWpos - s.pRpos < stdinBufsize := by omega
    have word : s.pWpos < intMax := by
      unfold intMax
      unfold stdinBufsize at fits
      omega
    have ran : step (.write c) s = .ok [] (wakeupQueue { s with
        buffer := update s.buffer (s.pWpos % stdinBufsize) c
        pWpos := s.pWpos + 1 }) := by
      rw [step, bind_ok (devStdinWrite_accepts char room word)]
      rfl
    have taken : accepted s (.write c) = [c] := if_pos ⟨char, by rwa [length_pending]⟩
    have next := Run.step (e := .write c) run trivial (.inr (.inl ⟨room, word⟩)) ran
    rw [taken, ← replicate_succ'] at next
    refine ⟨_, next, read, congrArg (· + 1) wrote, fun r => ?_⟩
    simp [wakeupQueue, idle]

theorem Run.weaken {P Q : Device ρ → Event ρ → Prop} {arrived taken : List UInt8}
    (run : Run P s arrived taken) (weaker : ∀ s e, P s e → Q s e) : Run Q s arrived taken := by
  induction run with
  | start => exact Run.start
  | step _ possible heeded ran ih => exact Run.step ih possible (weaker _ _ heeded) ran

/-- 4096 times the letter a arrives, then the letter b, then a process reads one character:
it gets the b, which was not accepted. -/
theorem full_buffer_overwritten : ∃ (s : Device ℕ) (arrived taken : List UInt8),
    Run (fun _ _ => True) s arrived taken ∧ ¬ taken <+: arrived := by
  obtain ⟨s, run, read, wrote, idle⟩ := run_fill ℕ 97 (by decide) stdinBufsize (Nat.le_refl _)
  have full : s.pWpos = s.pRpos + stdinBufsize := by omega
  have dropped : accepted s (.write 98) = [] := by
    apply if_neg
    rw [length_pending, full, Nat.add_sub_cancel_left]
    exact fun both => Nat.lt_irrefl _ both.2
  obtain ⟨t, shape⟩ : ∃ t, t = wakeupQueue { s with
      buffer := update s.buffer (s.pWpos % stdinBufsize) 98 } := ⟨_, rfl⟩
  have stored : step (.write 98) s = .ok [] t := by
    rw [step, bind_ok (devStdinWrite_drops (by decide) full), shape]
    rfl
  have notWaiting : t.calls 0 = none := by
    simp [shape, wakeupQueue, idle]
  have first : t.buffer (t.pRpos % stdinBufsize) = 98 := by
    rw [shape]
    change update s.buffer (s.pWpos % stdinBufsize) 98 (s.pRpos % stdinBufsize) = 98
    rw [full, Nat.add_mod_right, update_self]
  have unread : t.pRpos < t.pWpos := by
    rw [shape]
    rw [full]
    exact Nat.lt_add_of_pos_right (by decide)
  have taken : step (.read 0 1) t = .ok [98]
      (takeOne 0 98 { t with bufs := update t.bufs 0 [] }) := by
    rw [← first, step, devStdinRead, modify_bind_run, readLoop, get_bind_run, if_pos unread]
    rfl
  have anyRun := run.weaken fun _ _ _ => trivial
  have wroteMore := Run.step (e := .write 98) anyRun trivial trivial stored
  rw [dropped] at wroteMore
  refine ⟨_, _, _, Run.step (e := .read 0 1) wroteMore notWaiting trivial taken, ?_⟩
  intro starts
  have inside := starts.subset mem_cons_self
  simp [accepted] at inside

end Specs

end LiNos.Stdin
