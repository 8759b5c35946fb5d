import Mathlib.Algebra.BigOperators.Option
import Mathlib.Algebra.Order.Ring.Int
import Mathlib.Tactic.Ring
import LiNos.Monitor

/-!
Mutual exclusion in a monitor.

There is one unit, and it is always somewhere: in the value of one semaphore, or
with the one process that is active. Every `up` is by an active process, which gives
the unit away with it, and every `down` that returns makes its process active. The
counters are not locked; they are written by active processes only, one at a time.
-/

namespace LiNos.Monitor

open Tally Finset Function

variable {P : Type*} [DecidableEq P] [Fintype P] {n inHand inHand' : ℕ} {w : World P n} {p q : P}
  {id : SemId n} {there : Pc n} {sem : Semaphore P}

/-! ## Counting -/

/-- The number of processes at a place. -/
def census (f : Pc n → Bool) (pc : P → Pc n) : ℕ := (univ.filter fun p => f (pc p) = true).card

omit [DecidableEq P] in
theorem census_eq_tally (f : Pc n → Bool) (pc : P → Pc n) :
    census f pc = tally univ (fun p => some (f (pc p))) true := by
  simp [census, tally]

/-- One process moves. -/
theorem census_update (f : Pc n → Bool) (pc : P → Pc n) (p : P) (there : Pc n) :
    census f (update pc p there) + (f (pc p)).toNat = census f pc + (f there).toNat := by
  have same : ∀ q ∈ univ, q ≠ p → some (f (update pc p there q)) = some (f (pc q)) :=
    fun q _ other => by rw [update_of_ne other]
  have change := tally_change (b := true) (mem_univ p) same
  rw [update_self] at change
  rw [census_eq_tally, census_eq_tally]
  simpa [Bool.toNat, Bool.cond_eq_ite] using change

theorem census_update_same {f : Pc n → Bool} {pc : P → Pc n} (same : f (pc p) = f there) :
    census f (update pc p there) = census f pc := by
  have moved := census_update f pc p there
  rw [same] at moved
  exact Nat.add_right_cancel moved

theorem sum_semId (f : SemId n → ℕ) : ∑ id, f id = f .mutex + f .next + ∑ i, f (.cv i) := by
  have all : (univ : Finset (SemId n)) = insert .mutex (insert .next (univ.image .cv)) := by
    ext id
    cases id <;> simp
  rw [all, sum_insert (by simp), sum_insert (by simp), sum_image fun i _ j _ same => SemId.cv.inj same,
    add_assoc]

omit [DecidableEq P] [Fintype P] in
/-- One semaphore changes. -/
theorem sum_values (w : World P n) (id : SemId n) (sem : Semaphore P) :
    ∑ x, (update w.sem id sem x).value + (w.sem id).value = ∑ x, (w.sem x).value + sem.value := by
  have others : ∑ x ∈ univ.erase id, (update w.sem id sem x).value =
      ∑ x ∈ univ.erase id, (w.sem x).value :=
    sum_congr rfl fun x member => by rw [update_of_ne (ne_of_mem_erase member)]
  rw [← add_sum_erase univ _ (mem_univ id), ← add_sum_erase univ (fun x => (w.sem x).value) (mem_univ id),
    others, update_self]
  ring

/-! ## The invariant -/

/-- The queues hold those that wait, the counters count, and there is one unit. Within
a step it may be `inHand`, on its way between a semaphore and a process. -/
structure Kept (inHand : ℕ) (w : World P n) : Prop where
  distinct : ∀ id, (w.sem id).waiting.Nodup
  waits : ∀ id p, p ∈ (w.sem id).waiting ↔ (w.pc p).blockedOn = some id
  nextCount : w.nextCount = census Pc.inSignal w.pc
  counts : ∀ i, w.count i = census (Pc.inWait i) w.pc
  token : ∑ id, (w.sem id).value + census Pc.active w.pc + inHand = 1

/-- The counters see no difference. -/
def SameBooks (a b : Pc n) : Prop := a.inSignal = b.inSignal ∧ ∀ i, a.inWait i = b.inWait i

theorem sameBooks_returned (pc : Pc n) : SameBooks pc pc.returned := by
  cases pc <;> exact ⟨rfl, fun _ => rfl⟩

theorem returned_of_blocked {pc : Pc n} (blocked : pc.blockedOn = some id) :
    pc.active = false ∧ pc.returned.active = true ∧ pc.returned.blockedOn = none := by
  cases pc <;> first | exact ⟨rfl, rfl, rfl⟩ | cases blocked

namespace Kept

/-- A process that does not wait moves, with the counters and the unit. -/
theorem move {inHand inHand' : ℕ} {nextCount : ℤ} {count : Fin n → ℤ} {a there : Pc n}
    (kept : Kept inHand w) (here : w.pc p = a) (blocked : a.blockedOn = none)
    (blocked' : there.blockedOn = none) (unit : inHand + a.active.toNat = inHand' + there.active.toNat)
    (next : nextCount + a.inSignal.toNat = w.nextCount + there.inSignal.toNat)
    (counts : ∀ i, count i + (a.inWait i).toNat = w.count i + (there.inWait i).toNat) :
    Kept inHand' ({ w with nextCount := nextCount, count := count }.goto p there) := by
  subst here
  refine ⟨kept.distinct, ?_, ?_, ?_, ?_⟩
  · intro id x
    have before := kept.waits id x
    by_cases same : x = p
    · subst same
      rw [blocked] at before
      simpa [World.goto, blocked'] using before
    · simpa [World.goto, same] using before
  · have moved := census_update Pc.inSignal w.pc p there
    have before := kept.nextCount
    show nextCount = census Pc.inSignal (update w.pc p there)
    omega
  · intro i
    have moved := census_update (Pc.inWait i) w.pc p there
    have before := kept.counts i
    have counted := counts i
    show count i = census (Pc.inWait i) (update w.pc p there)
    omega
  · have moved := census_update Pc.active w.pc p there
    have token := kept.token
    show ∑ id, (w.sem id).value + census Pc.active (update w.pc p there) + inHand' = 1
    omega

/-- The same with the counters left alone. -/
theorem goto {a : Pc n} (kept : Kept inHand w) (here : w.pc p = a)
    (blocked : a.blockedOn = none) (blocked' : there.blockedOn = none)
    (unit : inHand + a.active.toNat = inHand' + there.active.toNat)
    (books : SameBooks a there) : Kept inHand' (w.goto p there) :=
  kept.move here blocked blocked' unit (by rw [books.1]) (fun i => by rw [books.2 i])

omit [DecidableEq P] in
/-- The unit goes into a value or comes out of it; the queues stay. -/
theorem revalue (kept : Kept inHand w)
    (waiting : sem.waiting = (w.sem id).waiting) (unit : inHand + (w.sem id).value = inHand' + sem.value) :
    Kept inHand' { w with sem := update w.sem id sem } := by
  have queues : ∀ x, (update w.sem id sem x).waiting = (w.sem x).waiting := by
    intro x
    by_cases same : x = id
    · rw [same, update_self, waiting]
    · rw [update_of_ne same]
  refine ⟨fun x => ?_, fun x q => ?_, kept.nextCount, kept.counts, ?_⟩
  · rw [queues]
    exact kept.distinct x
  · rw [queues]
    exact kept.waits x q
  · have values := sum_values w id sem
    have token := kept.token
    dsimp only
    omega

/-- One semaphore and the place of one process change together; the counters see no
difference. -/
theorem requeue (kept : Kept inHand w) (distinct : sem.waiting.Nodup)
    (here : ∀ r, r ∈ sem.waiting ↔ (update w.pc p there r).blockedOn = some id)
    (elsewhere : ∀ x, x ≠ id → (p ∈ (w.sem x).waiting ↔ there.blockedOn = some x))
    (books : SameBooks (w.pc p) there)
    (unit : inHand + (w.sem id).value + (w.pc p).active.toNat = inHand' + sem.value + there.active.toNat) :
    Kept inHand' ({ w with sem := update w.sem id sem }.goto p there) := by
  refine ⟨fun x => ?_, fun x r => ?_, ?_, fun i => ?_, ?_⟩
  · by_cases same : x = id
    · subst same
      simpa [World.goto] using distinct
    · simpa [World.goto, same] using kept.distinct x
  · by_cases same : x = id
    · subst same
      simpa [World.goto] using here r
    · by_cases moved : r = p
      · subst moved
        simpa [World.goto, same] using elsewhere x same
      · simpa [World.goto, same, moved] using kept.waits x r
  · show w.nextCount = census Pc.inSignal (update w.pc p there)
    rw [census_update_same books.1]
    exact kept.nextCount
  · show w.count i = census (Pc.inWait i) (update w.pc p there)
    rw [census_update_same (books.2 i)]
    exact kept.counts i
  · have values := sum_values w id sem
    have moved := census_update Pc.active w.pc p there
    have token := kept.token
    show ∑ x, (update w.sem id sem x).value + census Pc.active (update w.pc p there) + inHand' = 1
    omega

/-- The unit goes to the process that has waited longest. -/
theorem hand {rest : List P} (kept : Kept 1 w) (waits : (w.sem id).waiting = q :: rest) :
    Kept 0 ({ w with sem := update w.sem id (w.sem id).up.1 }.goto q (w.pc q).returned) := by
  obtain ⟨value, waiting, -⟩ := Semaphore.up_handed waits
  have distinct := kept.distinct id
  rw [waits, List.nodup_cons] at distinct
  have blocked : (w.pc q).blockedOn = some id := (kept.waits id q).mp (by simp [waits])
  obtain ⟨inactive, active, unblocked⟩ := returned_of_blocked blocked
  refine kept.requeue ?_ (fun r => ?_) (fun x other => ?_) (sameBooks_returned (w.pc q)) ?_
  · rw [waiting]
    exact distinct.2
  · by_cases same : r = q
    · subst same
      simpa [waiting, unblocked] using distinct.1
    · have before := kept.waits id r
      rw [waits, List.mem_cons] at before
      simpa [waiting, same] using before
  · rw [kept.waits, blocked, unblocked]
    simpa using other.symm
  · rw [inactive, active, Bool.toNat_false, Bool.toNat_true]
    omega

/-- A process starts to wait. -/
theorem queue {a block : Pc n} (kept : Kept 0 w) (here : w.pc p = a) (zero : (w.sem id).value = 0)
    (blocked : a.blockedOn = none) (blocks : block.blockedOn = some id) (active : a.active = block.active)
    (books : SameBooks a block) :
    Kept 0 ({ w with sem := update w.sem id ((w.sem id).down p).1 }.goto p block) := by
  subst here
  obtain ⟨value, waiting, -⟩ := Semaphore.down_queued p zero
  have fresh : ∀ x, p ∉ (w.sem x).waiting := by
    intro x member
    rw [kept.waits, blocked] at member
    cases member
  refine kept.requeue ?_ (fun r => ?_) (fun x other => ?_) books ?_
  · have distinct := (kept.distinct id).concat (fresh id)
    simpa [waiting] using distinct
  · by_cases same : r = p
    · simp [waiting, blocks, same]
    · simpa [waiting, same] using kept.waits id r
  · simpa [blocks, fresh x] using other.symm
  · rw [active]
    omega

/-- An active process gives the unit away. -/
theorem up {a after : Pc n} (kept : Kept 0 w) (id : SemId n) (here : w.pc p = a)
    (blocked : a.blockedOn = none) (blocked' : after.blockedOn = none) (active : a.active = true)
    (active' : after.active = false) (books : SameBooks a after) : Kept 0 (w.up id p after) := by
  have released : Kept 1 (w.goto p after) := kept.goto here blocked blocked' (by simp [active, active']) books
  cases waits : (w.sem id).waiting with
  | nil =>
    obtain ⟨value, waiting, handed⟩ := Semaphore.up_free waits
    have shape : w.up id p after =
        { w.goto p after with sem := update w.sem id (w.sem id).up.1 } := by
      simp only [World.up, handed]
      rfl
    rw [shape]
    refine released.revalue (waiting.trans waits.symm) ?_
    show 1 + (w.sem id).value = 0 + _
    omega
  | cons q rest =>
    obtain ⟨-, -, handed⟩ := Semaphore.up_handed waits
    have shape : w.up id p after =
        { w.goto p after with sem := update w.sem id (w.sem id).up.1 }.goto q
          ((w.goto p after).pc q).returned := by
      simp only [World.up, handed]
      rfl
    rw [shape]
    exact released.hand waits

/-- A process gets the unit or waits for it. -/
theorem down {a after block : Pc n} (kept : Kept 0 w) (here : w.pc p = a) (blocked : a.blockedOn = none)
    (blocked' : after.blockedOn = none) (blocks : block.blockedOn = some id)
    (active : a.active = false) (active' : after.active = true) (active'' : block.active = false)
    (books : SameBooks a after) (books' : SameBooks a block) :
    Kept 0 (w.down id p after block) := by
  by_cases positive : 0 < (w.sem id).value
  · obtain ⟨value, waiting, taken⟩ := Semaphore.down_taken p positive
    have shape : w.down id p after block =
        ({ w with sem := update w.sem id ((w.sem id).down p).1 }.goto p after) := by
      simp only [World.down, taken, if_true]
    rw [shape]
    have inHand : Kept 1 { w with sem := update w.sem id ((w.sem id).down p).1 } :=
      kept.revalue waiting (by omega)
    exact inHand.goto here blocked blocked' (by simp [active, active']) books
  · have zero : (w.sem id).value = 0 := by omega
    obtain ⟨-, -, refused⟩ := Semaphore.down_queued p zero
    have shape : w.down id p after block =
        ({ w with sem := update w.sem id ((w.sem id).down p).1 }.goto p block) := by
      simp [World.down, refused]
    rw [shape]
    exact kept.queue here zero blocked blocks (active.trans active''.symm) books'

theorem step (kept : Kept 0 w) (p : P) (call : Call n) : Kept 0 (step w p call) := by
  unfold Monitor.step
  cases here : w.pc p with
  | outside => exact kept.down here rfl rfl rfl rfl rfl rfl ⟨rfl, fun _ => rfl⟩ ⟨rfl, fun _ => rfl⟩
  | entering | waiting _ | signaling _ => exact kept
  | body =>
    cases call with
    | wait i =>
      refine kept.move here rfl rfl rfl rfl fun j => ?_
      by_cases same : j = i
      · simp [same, Pc.inWait]
      · simp [same, Pc.inWait]
    | signal i =>
      dsimp only
      split
      · exact kept.goto here rfl rfl rfl ⟨rfl, fun _ => rfl⟩
      · exact kept
    | leave => exact kept.goto here rfl rfl rfl ⟨rfl, fun _ => rfl⟩
  | waitTest i => exact kept.goto here rfl rfl rfl ⟨rfl, fun _ => rfl⟩
  | waitUp i toNext => exact kept.up _ here rfl rfl rfl rfl ⟨rfl, fun _ => rfl⟩
  | waitDown i => exact kept.down here rfl rfl rfl rfl rfl rfl ⟨rfl, fun _ => rfl⟩ ⟨rfl, fun _ => rfl⟩
  | waitDec i =>
    refine kept.move here rfl rfl rfl rfl fun j => ?_
    by_cases same : j = i
    · simp [same, Pc.inWait]
    · simp [same, Pc.inWait]
  | signalInc i => exact kept.move here rfl rfl rfl (by simp [Pc.inSignal]) fun _ => rfl
  | signalUp i => exact kept.up _ here rfl rfl rfl rfl ⟨rfl, fun _ => rfl⟩
  | signalDown i => exact kept.down here rfl rfl rfl rfl rfl rfl ⟨rfl, fun _ => rfl⟩ ⟨rfl, fun _ => rfl⟩
  | signalDec i => exact kept.move here rfl rfl rfl (by simp [Pc.inSignal]) fun _ => rfl
  | leaveUp toNext => exact kept.up _ here rfl rfl rfl rfl ⟨rfl, fun _ => rfl⟩

end Kept

omit [DecidableEq P] in
theorem monitorInit_kept (made : monitorInit P n = some w) : Kept 0 w := by
  unfold monitorInit at made
  split at made
  · cases made
    refine ⟨?_, ?_, ?_, ?_, ?_⟩
    · rintro (- | - | i) <;> simp
    · rintro (- | - | i) p <;> simp [Pc.blockedOn]
    · simp [census, Pc.inSignal]
    · simp [census, Pc.inWait]
    · simp [sum_semId, census, Pc.active]
  · cases made

theorem Reachable.kept (reached : Reachable w) : Kept 0 w := by
  induction reached with
  | init made => exact monitorInit_kept made
  | step _ p call ih => exact ih.step p call

omit [DecidableEq P] in
/-- A signaler that has announced itself gave up the monitor or is active. -/
theorem census_inSignal (pc : P → Pc n) :
    census Pc.inSignal pc = census Pc.gaveUp pc + census (fun a => a.inSignal && a.active) pc := by
  unfold census Pc.gaveUp
  rw [← card_filter_add_card_filter_not
    (fun p => (pc p).active = false), filter_filter, filter_filter]
  simp

/-- What holds in a monitor at every moment. -/
structure Exclusive (w : World P n) : Prop where
  active : ∀ p q, (w.pc p).active = true → (w.pc q).active = true → p = q
  nextCount : w.nextCount = census Pc.gaveUp w.pc + census (fun a => a.inSignal && a.active) w.pc
  counts : ∀ i, w.count i = census (Pc.inWait i) w.pc
  token : (w.sem .mutex).value + (w.sem .next).value + ∑ i, (w.sem (.cv i)).value +
    census Pc.active w.pc = 1

/-- In every interleaving at most one process is active, `count` is the number of
processes in `cond_wait`, the one unit is with a semaphore or the active process, and
`next_count` is the number of signalers that gave up the monitor, with the active
process counted in while it is between its increment and its `up`, or between its
return and its decrement. -/
theorem monitor_exclusive (reached : Reachable w) : Exclusive w := by
  have kept := reached.kept
  have token := kept.token
  refine ⟨?_, ?_, kept.counts, ?_⟩
  · intro p q first second
    have few : census Pc.active w.pc ≤ 1 := by omega
    exact card_le_one.mp few p (by simpa using first) q (by simpa using second)
  · rw [kept.nextCount, census_inSignal]
    push_cast
    rfl
  · rw [← sum_semId fun id => (w.sem id).value]
    exact token

/-- The steps of a list in turn. -/
def play (w : World P n) (steps : List (P × Call n)) : World P n :=
  steps.foldl (fun w s => step w s.1 s.2) w

omit [Fintype P] in
theorem Reachable.play (reached : Reachable w) (steps : List (P × Call n)) :
    Reachable (play w steps) := by
  induction steps generalizing w with
  | nil => exact reached
  | cons s steps ih => exact ih (reached.step s.1 s.2)

/-- Process 0 waits on the condition variable and process 1 signals it. -/
def signalled : List (Fin 2 × Call 1) :=
  [(0, .leave), (0, .wait 0), (0, .leave), (0, .leave), (0, .leave),
    (1, .leave), (1, .signal 0), (1, .leave)]

/-- Once process 1 has given up the monitor, process 0 is the active one. -/
theorem monitor_exclusive_signalled :
    ∃ start w : World (Fin 2) 1, monitorInit (Fin 2) 1 = some start ∧
      w = play start (signalled ++ [(1, .leave), (1, .leave)]) ∧
      (w.pc 0).active = true ∧ (w.pc 1).gaveUp = true ∧ Exclusive w := by
  refine ⟨_, _, rfl, rfl, rfl, rfl, ?_⟩
  exact monitor_exclusive ((Reachable.init rfl).play _)

/-- Before its `up`, the signaler is active and has not given up the monitor, and
`next_count` is 1 already. -/
theorem next_count_before_up :
    ∃ start w : World (Fin 2) 1, monitorInit (Fin 2) 1 = some start ∧ w = play start signalled ∧
      Reachable w ∧ (w.pc 1).active = true ∧ w.nextCount = 1 ∧ census Pc.gaveUp w.pc = 0 :=
  ⟨_, _, rfl, rfl, (Reachable.init rfl).play _, rfl, rfl, rfl⟩

end LiNos.Monitor
