import Mathlib.Tactic.Common
import LiNos.Semaphore
import LiNos.Sem
import LiNos.ProcRuns

/-!
sem.c implements a counting semaphore.

`Implements` relates the memory to an abstract semaphore: `value` is its value and
the wait queue holds its waiters, each with the `wait_t` that `wait_current_set`
left. `Kept` adds the units on their way, handed over by `__up` to processes that
have not come back from `schedule`, and the history. Every event of a run is a step
of the abstract semaphore or none at all.
-/

namespace LiNos.Sem

open CircularList Function List
open Proc (ProcState wtInterrupted)

variable {m m' : Machine} {w w' : World} {sem : Semaphore ℕ} {p q : ℕ} {rest handed : List ℕ}
  {others : Bool} {v₀ : ℤ} {s : Proc.Machine} {e : Event}

/-! ## The wait queue -/

/-- The machine has the abstract semaphore in memory. -/
structure Implements (m : Machine) (sem : Semaphore ℕ) : Prop where
  value : m.value = sem.value
  ring : Ring m.waitLinks .waitHead (sem.waiting.map .waitLink)
  nodes : ∀ p ∈ sem.waiting,
    m.waitQueue p = true ∧ m.waitProc p = some p ∧ m.wakeupFlags p = wtInterrupted

namespace Implements

theorem congr (impl : Implements m sem) (value : m'.value = m.value) (links : m'.waitLinks = m.waitLinks)
    (queue : m'.waitQueue = m.waitQueue) (proc : m'.waitProc = m.waitProc)
    (flags : m'.wakeupFlags = m.wakeupFlags) : Implements m' sem := by
  constructor
  · rw [value]
    exact impl.value
  · rw [links]
    exact impl.ring
  · rw [queue, proc, flags]
    exact impl.nodes

theorem nodup (impl : Implements m sem) : sem.waiting.Nodup :=
  List.Nodup.of_map WaitEntry.waitLink impl.ring.nodup

private theorem link_mem {queue : List ℕ} :
    WaitEntry.waitLink p ∈ WaitEntry.waitHead :: queue.map .waitLink ↔ p ∈ queue := by
  simp

theorem first (impl : Implements m sem) : waitQueueFirst m = sem.waiting.head? := by
  have next := impl.ring.next_head
  cases waits : sem.waiting with
  | nil => simp_all [waitQueueFirst]
  | cons q rest => simp_all [waitQueueFirst]

/-- The memory after `wait_current_set`. -/
def enqueued (m : Machine) (p : ℕ) : Machine :=
  { m with
    procs := { m.procs with
      state := update m.procs.state p .sleeping
      waitState := update m.procs.waitState p wtKsem }
    waitProc := update m.waitProc p (some p)
    wakeupFlags := update m.wakeupFlags p wtInterrupted
    waitQueue := update m.waitQueue p true
    waitLinks := listAddBefore (listInit m.waitLinks (.waitLink p)) .waitHead (.waitLink p) }

theorem waitCurrentSet_eq (is : m.procs.current = p) : waitCurrentSet m wtKsem = .ok (enqueued m p) := by
  subst is
  simp [waitCurrentSet, waitQueueAdd, waitInit, assert, listEmpty, listInit, enqueued, bind, Except.bind]

/-- The memory after the waiter `p` was handed the unit. -/
def handedOver (m : Machine) (p : ℕ) (procs : Proc.Machine) : Machine :=
  { m with
    procs := procs
    waitLinks := listDelInit m.waitLinks (.waitLink p)
    wakeupFlags := update m.wakeupFlags p wtKsem }

theorem up_waiting (impl : Implements m sem) (waits : sem.waiting = p :: rest) :
    up m = if m.procs.waitState p = wtKsem then
        (Proc.wakeupProc m.procs p).elim (.error .assertion) fun procs => .ok (handedOver m p procs)
      else .error .assertion := by
  have member : p ∈ sem.waiting := by simp [waits]
  obtain ⟨queue, proc, -⟩ := impl.nodes p member
  have linked := impl.ring.not_empty (mem_map_of_mem member)
  have first : waitQueueFirst m = some p := by rw [impl.first, waits]; rfl
  by_cases same : m.procs.waitState p = wtKsem
  · cases woken : Proc.wakeupProc m.procs p <;>
      simp [up, upAs, first, follow, proc, assert, same, wakeupWait, waitQueueDel, listEmpty, linked,
        queue, wakeupProc, woken, handedOver, bind, Except.bind]
  · simp [up, upAs, first, follow, proc, assert, same, bind, Except.bind]

theorem up_free (impl : Implements m sem) (free : sem.waiting = []) :
    up m = if m.value < intMax then .ok { m with value := m.value + 1 } else .error .overflow := by
  have first : waitQueueFirst m = none := by rw [impl.first, free]; rfl
  simp [up, upAs, first]

/-- A process whose node is not linked comes back with the unit it was handed. -/
theorem downReturn_handed (is : m.procs.current = p)
    (unlinked : m.waitLinks.next (.waitLink p) = .waitLink p) (flags : m.wakeupFlags p = wtKsem) :
    downReturn m = .ok m := by
  subst is
  simp [downReturn, downEnd, waitCurrentDel, waitInQueue, listEmpty, unlinked, flags, assert, bind,
    Except.bind]

section

variable (impl : Implements m sem)

include impl

/-- A waiter that comes back by itself fails the assertion of `down`. -/
theorem downReturn_queued (is : m.procs.current = p) (member : p ∈ sem.waiting) :
    downReturn m = .error .assertion := by
  subst is
  obtain ⟨queue, -, flags⟩ := impl.nodes _ member
  have linked := impl.ring.not_empty (mem_map_of_mem member)
  simp [downReturn, downEnd, waitCurrentDel, waitInQueue, waitQueueDel, listEmpty, linked, queue, flags,
    assert, bind, Except.bind, wtInterrupted, wtKsem]

/-! The abstract steps. -/

theorem step_up_free (free : sem.waiting = []) :
    Implements { m with value := m.value + 1 } sem.up.1 := by
  obtain ⟨value, waiting, -⟩ := Semaphore.up_free free
  refine ⟨?_, ?_, ?_⟩
  · rw [value, impl.value]
    push_cast
    rfl
  · rw [waiting, ← free]
    exact impl.ring
  · simp [waiting]

theorem step_handed (waits : sem.waiting = p :: rest) (procs : Proc.Machine) :
    Implements (handedOver m p procs) sem.up.1 := by
  obtain ⟨value, waiting, -⟩ := Semaphore.up_handed waits
  have distinct := impl.nodup
  rw [waits, nodup_cons] at distinct
  refine ⟨?_, ?_, ?_⟩
  · rw [value]
    exact impl.value
  · have ring : Ring m.waitLinks .waitHead ([] ++ .waitLink p :: rest.map .waitLink) := by
      rw [nil_append, ← map_cons, ← waits]
      exact impl.ring
    rw [waiting]
    exact ring_listDelInit ring
  · intro q member
    rw [waiting] at member
    have other : q ≠ p := fun same => distinct.1 (same ▸ member)
    obtain ⟨queue, proc, flags⟩ := impl.nodes q (by simp [waits, member])
    exact ⟨queue, proc, (update_of_ne other _ _).trans flags⟩

theorem step_take (positive : 0 < sem.value) (p : ℕ) :
    Implements { m with value := m.value - 1 } (sem.down p).1 := by
  obtain ⟨value, waiting, -⟩ := Semaphore.down_taken p positive
  refine ⟨?_, ?_, ?_⟩
  · have before := impl.value
    rw [value]
    show m.value - 1 = _
    omega
  · rw [waiting]
    exact impl.ring
  · rw [waiting]
    exact impl.nodes

/-- `wait_init` writes a node outside of the queue. -/
theorem prepared_ring (fresh : p ∉ sem.waiting) :
    Ring (listInit m.waitLinks (.waitLink p)) .waitHead (sem.waiting.map .waitLink) := by
  have others : ∀ q ∈ sem.waiting, q ≠ p := fun q member same => fresh (same ▸ member)
  apply impl.ring.congr
  · rintro (- | q) member
    · simp [listInit]
    · simp [listInit, others q (link_mem.mp member)]
  · rintro (- | q) member
    · simp [listInit]
    · simp [listInit, others q (link_mem.mp member)]

theorem step_enqueue (zero : sem.value = 0) (fresh : p ∉ sem.waiting) :
    Implements (enqueued m p) (sem.down p).1 := by
  obtain ⟨value, waiting, -⟩ := Semaphore.down_queued p zero
  have ring := impl.prepared_ring fresh
  refine ⟨?_, ?_, ?_⟩
  · rw [value, ← zero]
    exact impl.value
  · rw [waiting, map_append]
    exact ring_listAddBefore_head ring (link_mem.not.mpr fresh)
  · intro q member
    rw [waiting, mem_append, mem_singleton] at member
    by_cases same : q = p
    · simp [enqueued, same]
    · simpa [enqueued, same] using impl.nodes q (member.resolve_right same)

end

end Implements

theorem wakeupProc_other {s' : Proc.Machine} (woken : Proc.wakeupProc s q = some s') (other : p ≠ q) :
    s'.state p = s.state p ∧ s'.waitState p = s.waitState p := by
  unfold Proc.wakeupProc at woken
  split at woken
  · cases woken
  · split at woken
    · cases woken
      exact ⟨rfl, rfl⟩
    · cases woken
      exact ⟨update_of_ne other _ _, update_of_ne other _ _⟩

theorem wakeupProc_alive (alive : s.state p ≠ .zombie) :
    ∃ s', Proc.wakeupProc s p = some s' := by
  simp only [Proc.wakeupProc, alive, if_false]
  split
  · exact ⟨_, rfl⟩
  · exact ⟨_, rfl⟩

/-! ## Runs -/

/-- What an event does to the abstract semaphore. -/
def after (sem : Semaphore ℕ) : Event → Semaphore ℕ
  | .up _ => sem.up.1
  | .down p => (sem.down p).1
  | .tryDown p => if 0 < sem.value then (sem.down p).1 else sem
  | _ => sem

/-- A state of a run of the semaphore that started with `v₀`. `handed` are the
processes that were handed a unit and have not come back from `schedule`. -/
structure Kept (others : Bool) (v₀ : ℤ) (w : World) (sem : Semaphore ℕ) (handed : List ℕ) : Prop where
  impl : Implements w.machine sem
  distinct : handed.Nodup
  exact : ∀ p, p ∈ sem.waiting ∨ p ∈ handed ↔ w.pc p = .waiting
  apart : ∀ p ∈ handed, p ∉ sem.waiting
  back : ∀ p ∈ handed, w.machine.waitLinks.next (.waitLink p) = .waitLink p ∧
    w.machine.wakeupFlags p = wtKsem
  asleep : others = false → ∀ p ∈ sem.waiting,
    w.machine.procs.state p = .sleeping ∧ w.machine.procs.waitState p = wtKsem
  account : w.downs + w.tries + handed.length + sem.value = v₀ + w.ups
  order : w.arrivals = w.grants ++ sem.waiting

namespace Kept

section

variable (kept : Kept others v₀ w sem handed)

include kept

/-- Nothing the semaphore uses is written, and the waiters sleep on. -/
theorem reprocs (procs : Proc.Machine)
    (asleep : others = false → ∀ p ∈ sem.waiting, procs.state p = w.machine.procs.state p ∧
      procs.waitState p = w.machine.procs.waitState p) :
    Kept others v₀ { w with machine := { w.machine with procs := procs } } sem handed := by
  refine { kept with impl := kept.impl.congr rfl rfl rfl rfl rfl, asleep := ?_ }
  intro only p member
  obtain ⟨state, waitState⟩ := asleep only p member
  rw [state, waitState]
  exact kept.asleep only p member

theorem running (p : ℕ) :
    Kept others v₀ { w with machine := w.running p } sem handed :=
  kept.reprocs _ fun _ _ _ => ⟨rfl, rfl⟩

theorem notMem (outside : w.pc p = .outside) :
    p ∉ sem.waiting ∧ p ∉ handed := by
  rw [← not_or, kept.exact, outside]
  simp

private theorem up_free (free : sem.waiting = []) :
    Kept others v₀ { w with
      machine := { w.machine with value := w.machine.value + 1 }
      ups := w.ups + 1 } sem.up.1 handed := by
  obtain ⟨value, waiting, -⟩ := Semaphore.up_free free
  have same : sem.up.1.waiting = sem.waiting := waiting.trans free.symm
  refine ⟨kept.impl.step_up_free free, kept.distinct, ?_, ?_, kept.back, ?_, ?_, ?_⟩
  · rw [same]
    exact kept.exact
  · rw [same]
    exact kept.apart
  · rw [same]
    exact kept.asleep
  · have account := kept.account
    rw [value]
    push_cast
    omega
  · rw [same]
    exact kept.order

private theorem up_handed {procs : Proc.Machine}
    (waits : sem.waiting = q :: rest) (woken : Proc.wakeupProc w.machine.procs q = some procs) :
    Kept others v₀ { w with
      machine := Implements.handedOver w.machine q procs
      ups := w.ups + 1
      grants := w.grants ++ [q] } sem.up.1 (q :: handed) := by
  obtain ⟨value, waiting, -⟩ := Semaphore.up_handed waits
  have distinct := kept.impl.nodup
  rw [waits, nodup_cons] at distinct
  have queued : q ∉ handed := fun member => kept.apart q member (by simp [waits])
  have ring : Ring w.machine.waitLinks .waitHead ([] ++ .waitLink q :: rest.map .waitLink) := by
    rw [nil_append, ← map_cons, ← waits]
    exact kept.impl.ring
  refine ⟨kept.impl.step_handed waits procs, nodup_cons.mpr ⟨queued, kept.distinct⟩, ?_, ?_, ?_,
    ?_, ?_, ?_⟩
  · intro p
    rw [waiting, ← kept.exact p, waits, mem_cons, mem_cons]
    tauto
  · intro p member
    rw [waiting]
    rcases mem_cons.mp member with rfl | member
    · exact distinct.1
    · exact fun inside => kept.apart p member (by simp [waits, inside])
  · intro p member
    by_cases same : p = q
    · subst same
      exact ⟨by simp [Implements.handedOver, listDelInit, listInit], by simp [Implements.handedOver]⟩
    · have member := (mem_cons.mp member).resolve_left same
      obtain ⟨unlinked, flags⟩ := kept.back p member
      have outside := kept.apart p member
      rw [waits] at outside
      have frame := (ring_listDelInit_frame ring (w := .waitLink p) (by simpa using outside)).1
      exact ⟨frame.trans unlinked, (update_of_ne same _ _).trans flags⟩
  · intro only p member
    rw [waiting] at member
    have other : p ≠ q := fun same => distinct.1 (same ▸ member)
    obtain ⟨state, waitState⟩ := wakeupProc_other woken other
    obtain ⟨sleeps, reason⟩ := kept.asleep only p (by simp [waits, member])
    exact ⟨state.trans sleeps, waitState.trans reason⟩
  · have account := kept.account
    rw [value, length_cons]
    push_cast
    omega
  · have order := kept.order
    rw [waits] at order
    rw [waiting, order, append_assoc]
    rfl

theorem up (ran : perform w (.up p) = .ok w') :
    ∃ handed', Kept others v₀ w' sem.up.1 handed' := by
  have kept := kept.running p
  obtain ⟨m, upped, shape⟩ := bind_ok ran
  have first : waitQueueFirst w.machine = sem.waiting.head? := kept.impl.first
  cases shape
  rw [first]
  cases waits : sem.waiting with
  | nil =>
    rw [kept.impl.up_free waits] at upped
    split at upped
    · cases upped
      simpa using ⟨_, kept.up_free waits⟩
    · cases upped
  | cons q rest =>
    rw [kept.impl.up_waiting waits] at upped
    split at upped
    · cases woken : Proc.wakeupProc (w.running p).procs q with
      | none =>
        rw [woken] at upped
        cases upped
      | some procs =>
        rw [woken] at upped
        cases upped
        exact ⟨_, kept.up_handed waits woken⟩
    · cases upped

/-- A unit is taken by a `down` or a `try_down` that does not wait. -/
private theorem take (positive : 0 < sem.value) (p : ℕ)
    {downs tries : ℕ} (one : downs + tries = w.downs + w.tries + 1) :
    Kept others v₀ { w with
      machine := { w.machine with value := w.machine.value - 1 }
      downs := downs
      tries := tries } (sem.down p).1 handed := by
  obtain ⟨value, waiting, -⟩ := Semaphore.down_taken p positive
  refine ⟨kept.impl.step_take positive p, kept.distinct, ?_, ?_, kept.back, ?_, ?_, ?_⟩
  · rw [waiting]
    exact kept.exact
  · rw [waiting]
    exact kept.apart
  · rw [waiting]
    exact kept.asleep
  · have account := kept.account
    rw [value]
    push_cast
    omega
  · rw [waiting]
    exact kept.order

private theorem wait (zero : sem.value = 0)
    (outside : w.pc p = .outside) :
    Kept others v₀ { w with
      machine := Implements.enqueued w.machine p
      pc := update w.pc p .waiting
      arrivals := w.arrivals ++ [p] } (sem.down p).1 handed := by
  obtain ⟨value, waiting, -⟩ := Semaphore.down_queued p zero
  obtain ⟨fresh, fresh'⟩ := kept.notMem outside
  refine ⟨kept.impl.step_enqueue zero fresh, kept.distinct, ?_, ?_, ?_, ?_, ?_, ?_⟩
  · intro q
    rw [waiting, mem_append, mem_singleton]
    by_cases same : q = p
    · simp [same]
    · simpa [same] using kept.exact q
  · intro q member
    rw [waiting, mem_append, mem_singleton, not_or]
    exact ⟨kept.apart q member, fun same => fresh' (same ▸ member)⟩
  · intro q member
    have other : q ≠ p := fun same => fresh' (same ▸ member)
    obtain ⟨unlinked, flags⟩ := kept.back q member
    have before := kept.impl.prepared_ring fresh
    have frame := (ring_listAddBefore_frame (e := WaitEntry.waitLink p) before
      (w := .waitLink q) (by simpa using kept.apart q member) (by simpa using other)).1
    refine ⟨frame.trans ?_, (update_of_ne other _ _).trans flags⟩
    simp [listInit, other, unlinked]
  · intro only q member
    rw [waiting, mem_append, mem_singleton] at member
    by_cases same : q = p
    · simp [Implements.enqueued, same]
    · simpa [Implements.enqueued, same] using kept.asleep only q (member.resolve_right same)
  · have account := kept.account
    rw [zero] at account
    rw [value]
    exact account
  · rw [waiting, ← append_assoc, ← kept.order]

theorem down (outside : w.pc p = .outside)
    (ran : perform w (.down p) = .ok w') : Kept others v₀ w' (sem.down p).1 handed := by
  have kept := kept.running p
  have value : (w.running p).value = sem.value := kept.impl.value
  obtain ⟨⟨m, returned⟩, begun, shape⟩ := bind_ok ran
  unfold downBegin at begun
  split at begun
  · rename_i positive
    cases begun
    cases shape
    exact kept.take (by omega) p (Nat.add_right_comm w.downs 1 w.tries)
  · rename_i zero
    rw [Implements.waitCurrentSet_eq rfl] at begun
    cases begun
    cases shape
    exact kept.wait (by omega) outside

theorem tryDown (ran : perform w (.tryDown p) = .ok w') :
    Kept others v₀ w' (after sem (.tryDown p)) handed := by
  have kept := kept.running p
  have value : (w.running p).value = sem.value := kept.impl.value
  by_cases positive : (w.running p).value > 0
  · have taken : Sem.tryDown (w.running p) = ({ w.running p with value := (w.running p).value - 1 }, true) := by
      simp [Sem.tryDown, positive]
    simp only [perform, taken] at ran
    cases ran
    rw [after, if_pos (show 0 < sem.value by omega)]
    exact kept.take (by omega) p (by simp; omega)
  · have refused : Sem.tryDown (w.running p) = (w.running p, false) := by
      simp [Sem.tryDown, positive]
    simp only [perform, refused] at ran
    cases ran
    rw [after, if_neg (show ¬ 0 < sem.value by omega)]
    exact kept

/-- Only who was handed a unit comes back from `down`. -/
theorem resume (inside : w.pc p = .waiting)
    (ran : perform w (.resume p) = .ok w') : Kept others v₀ w' sem (handed.erase p) := by
  have kept := kept.running p
  obtain ⟨m, returned, shape⟩ := bind_ok ran
  rcases (kept.exact p).mpr inside with queued | member
  · rw [kept.impl.downReturn_queued rfl queued] at returned
    cases returned
  · obtain ⟨unlinked, flags⟩ := kept.back p member
    rw [Implements.downReturn_handed rfl unlinked flags] at returned
    cases returned
    cases shape
    have fewer : ∀ q, q ∈ handed.erase p → q ∈ handed := fun q => mem_of_mem_erase
    refine ⟨kept.impl, kept.distinct.erase p, ?_, fun q member => kept.apart q (fewer q member),
      fun q member => kept.back q (fewer q member), kept.asleep, ?_, kept.order⟩
    · intro q
      rw [kept.distinct.mem_erase_iff]
      by_cases same : q = p
      · subst same
        simp [kept.apart q member]
      · simpa [same] using kept.exact q
    · have account : (w.downs : ℤ) + w.tries + handed.length + sem.value = v₀ + w.ups := kept.account
      have positive := length_pos_of_mem member
      rw [length_erase_of_mem member]
      push_cast
      omega

theorem perform (allowed : Allowed others w e)
    (ran : perform w e = .ok w') : ∃ handed', Kept others v₀ w' (after sem e) handed' := by
  cases e with
  | up p => exact kept.up ran
  | down p => exact ⟨handed, kept.down allowed.2 ran⟩
  | tryDown p => exact ⟨handed, kept.tryDown ran⟩
  | resume p => exact ⟨_, kept.resume allowed.2 ran⟩
  | wake p =>
    obtain ⟨m, woken, shape⟩ := bind_ok ran
    cases shape
    unfold wakeupProc at woken
    cases procs : Proc.wakeupProc w.machine.procs p with
    | none =>
      rw [procs] at woken
      cases woken
    | some procs' =>
      rw [procs] at woken
      cases woken
      refine ⟨handed, kept.reprocs procs' ?_⟩
      intro only q member
      refine wakeupProc_other procs fun same => ?_
      have inside := (kept.exact q).mp (.inl member)
      rw [same] at inside
      exact absurd (allowed.2 inside) (by simp [only])
  | sleep p waitState =>
    cases ran
    refine ⟨handed, kept.reprocs _ fun _ q member => ?_⟩
    have other : q ≠ p := fun same => (kept.notMem allowed.2).1 (same ▸ member)
    exact ⟨update_of_ne other _ _, update_of_ne other _ _⟩
  | exit p =>
    cases ran
    refine ⟨handed, kept.reprocs _ fun _ q member => ?_⟩
    have other : q ≠ p := fun same => (kept.notMem allowed.2).1 (same ▸ member)
    exact ⟨update_of_ne other _ _, rfl⟩

end

/-- When only `__up` wakes the waiters, no assertion fails and no null pointer is
followed. -/
theorem no_fault {fault : Fault} (kept : Kept false v₀ w sem handed) (allowed : Allowed false w e)
    (ran : Sem.perform w e = .error fault) : fault = .overflow := by
  cases e with
  | up p =>
    have kept := kept.running p
    cases waits : sem.waiting with
    | nil =>
      by_cases small : (w.running p).value < intMax
      · simp [Sem.perform, kept.impl.up_free waits, small, bind, Except.bind] at ran
      · simpa [Sem.perform, kept.impl.up_free waits, small, bind, Except.bind] using ran.symm
    | cons q rest =>
      have asleep : (w.running p).procs.state q = .sleeping ∧ (w.running p).procs.waitState q = wtKsem :=
        kept.asleep rfl q (by simp [waits])
      obtain ⟨sleeps, reason⟩ := asleep
      obtain ⟨procs, woken⟩ := wakeupProc_alive (s := (w.running p).procs) (p := q) (by simp [sleeps])
      simp [Sem.perform, kept.impl.up_waiting waits, reason, woken, bind, Except.bind] at ran
  | down p =>
    by_cases positive : (w.running p).value > 0
    · simp [Sem.perform, downBegin, positive, bind, Except.bind] at ran
    · simp [Sem.perform, downBegin, positive, Implements.waitCurrentSet_eq (m := w.running p) rfl,
        bind, Except.bind] at ran
  | tryDown p => cases ran
  | resume p =>
    obtain ⟨ready, inside⟩ := allowed
    rcases (kept.exact p).mpr inside with queued | member
    · rw [(kept.asleep rfl p queued).1] at ready
      cases ready
    · obtain ⟨unlinked, flags⟩ := kept.back p member
      have returned : downReturn (w.running p) = .ok (w.running p) :=
        Implements.downReturn_handed rfl unlinked flags
      simp [Sem.perform, returned, bind, Except.bind] at ran
  | wake p =>
    obtain ⟨procs, woken⟩ := wakeupProc_alive allowed.1
    simp [Sem.perform, wakeupProc, woken, bind, Except.bind] at ran
  | sleep p waitState => cases ran
  | exit p => cases ran

end Kept

theorem Run.kept (positive : 0 ≤ v₀) (run : Run others v₀ w) : ∃ sem handed, Kept others v₀ w sem handed := by
  induction run with
  | start m =>
    refine ⟨.init v₀.toNat, [], ⟨?_, ring_init _ _, by simp⟩, nodup_nil, by simp [Sem.start],
      by simp, by simp, by simp, ?_, rfl⟩
    · exact (Int.toNat_of_nonneg positive).symm
    · simp [Sem.start, positive]
  | step _ allowed ran ih =>
    obtain ⟨sem, handed, kept⟩ := ih
    exact ⟨_, kept.perform allowed ran⟩

/-- sem.c refines the abstract semaphore: in every state of a run one is in memory, and
every step does to it what the event means. -/
theorem Run.refines (positive : 0 ≤ v₀) (run : Run others v₀ w) :
    ∃ sem, Implements w.machine sem ∧
      ∀ e w', Allowed others w e → perform w e = .ok w' → Implements w'.machine (after sem e) := by
  obtain ⟨sem, handed, kept⟩ := run.kept positive
  refine ⟨sem, kept.impl, fun e w' allowed ran => ?_⟩
  obtain ⟨handed', kept'⟩ := kept.perform allowed ran
  exact kept'.impl

/-- What a semaphore that started with `v₀` should be in every state. `queue` is the
wait queue and `handed` are the `down`s that were granted and have not returned. -/
structure Correct (v₀ : ℤ) (w : World) (queue handed : List ℕ) : Prop where
  linked : Ring w.machine.waitLinks .waitHead (queue.map .waitLink)
  nonneg : 0 ≤ w.machine.value
  drained : queue ≠ [] → w.machine.value = 0
  granted : handed.Nodup ∧ ∀ p, p ∈ handed ↔ w.pc p = .waiting ∧ w.machine.wakeupFlags p = wtKsem
  account : w.downs + w.tries + handed.length + w.machine.value = v₀ + w.ups
  fifo : w.arrivals = w.grants ++ queue

/-- Every run of a semaphore is correct: `value` is never negative, and 0 while anyone
waits; every `up` is a `down` that has returned or was granted, a `try_down`, or in
`value`; units are granted in the order in which processes queued. If nobody but
`__up` wakes the waiters, no assertion fails, that of `down` included. -/
theorem semaphore_correct (positive : 0 ≤ v₀) (run : Run others v₀ w) :
    (∃ queue handed, Correct v₀ w queue handed) ∧
      (others = false → ∀ e fault, Allowed false w e → perform w e = .error fault → fault = .overflow) := by
  obtain ⟨sem, handed, kept⟩ := run.kept positive
  refine ⟨⟨sem.waiting, handed, kept.impl.ring, ?_, ?_, ⟨kept.distinct, ?_⟩, ?_, kept.order⟩, ?_⟩
  · rw [kept.impl.value]
    exact Int.natCast_nonneg _
  · intro waits
    rw [kept.impl.value, sem.drained waits]
    rfl
  · intro p
    rw [← kept.exact p]
    constructor
    · exact fun member => ⟨.inr member, (kept.back p member).2⟩
    · rintro ⟨queued | member, flags⟩
      · rw [(kept.impl.nodes p queued).2.2] at flags
        exact absurd flags (by decide)
      · exact member
  · rw [kept.impl.value]
    exact kept.account
  · rintro rfl e fault allowed ran
    exact kept.no_fault allowed ran

/-- A machine on which every process can run. -/
def allRunnable : Machine where
  procs := { Proc.fresh with state := fun _ => .runnable }
  value := 0
  waitLinks := ⟨id, id⟩
  waitProc _ := none
  wakeupFlags _ := 0
  waitQueue _ := false

/-- A semaphore of one unit: process 1 takes it, process 2 waits and is handed it. -/
theorem semaphore_correct_handed :
    ∃ w, Run false 1 w ∧ w.ups = 1 ∧ w.downs = 1 ∧ w.grants = [2] ∧
      ∃ queue handed, Correct 1 w queue handed := by
  have fresh : Run false 1 (start allRunnable 1) := .start allRunnable
  have taken := fresh.step (e := .down 1) ⟨rfl, rfl⟩ rfl
  have queued := taken.step (e := .down 2) ⟨rfl, rfl⟩ rfl
  have handed := queued.step (e := .up 1) ⟨rfl, rfl⟩ rfl
  exact ⟨_, handed, rfl, rfl, rfl, (semaphore_correct (by decide) handed).1⟩

end LiNos.Sem
