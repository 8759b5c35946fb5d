import Mathlib.Tactic.Common
import LiNos.SchedSwitch

/-!
The stride scheduler and the wrap-around of strides.

The true stride of a process is the unbounded sum of what `stride_pick_next` added
to it; the word in `stride` is its residue. The comparison of two words is that of
the true strides as long as these are within `BIG_STRIDE` of each other. Picking
the least and adding at most `BIG_STRIDE` keeps all processes that can run that
close; a process that joins them from outside, by `do_fork` or a wake-up, may not
be.
-/

namespace LiNos.Sched

open CircularList SkewHeap Function List

variable {m m' m₁ : Machine} {w w' : World} {known : List ℕ} {t : ℕ → ℕ} {p q fuel a b : ℕ}
  {pool l r : HeapTree ℕ}

/-! ## Words -/

/-- Two true strides that their words still tell apart. -/
def Close (a b : ℕ) : Prop := a ≤ b + bigStride.toNat ∧ b ≤ a + bigStride.toNat

theorem bigStride_toNat : bigStride.toNat = 2147483647 := rfl

theorem Close.symm (close : Close a b) : Close b a := ⟨close.2, close.1⟩

theorem Close.refl (a : ℕ) : Close a a := ⟨Nat.le_add_right _ _, Nat.le_add_right _ _⟩

theorem Close.toInt_sub (close : Close a b) :
    (BitVec.ofNat 32 a - BitVec.ofNat 32 b).toInt = (a : ℤ) - b := by
  obtain ⟨left, right⟩ := close
  rw [bigStride_toNat] at left right
  rw [BitVec.toInt_sub, BitVec.toInt_ofNat', BitVec.toInt_ofNat', Int.bmod_sub_bmod, Int.sub_bmod_bmod]
  apply Int.bmod_eq_of_le <;> omega

theorem Close.compare32 (close : Close a b) :
    compare32 (BitVec.ofNat 32 a) (BitVec.ofNat 32 b) = Int.sign ((a : ℤ) - b) := by
  simp only [Sched.compare32, close.toInt_sub]
  rcases lt_trichotomy a b with less | same | more
  · rw [Int.sign_eq_neg_one_of_neg (by omega)]
    split_ifs <;> omega
  · simp [same]
  · rw [Int.sign_eq_one_of_pos (by omega)]
    split_ifs <;> omega

/-- One more that is close to all. -/
theorem Close.extend {P : ℕ → Prop} (close : ∀ x, P x → ∀ y, P y → Close (t x) (t y))
    (new : ∀ y, P y → Close (t p) (t y)) :
    ∀ x, x = p ∨ P x → ∀ y, y = p ∨ P y → Close (t x) (t y) := by
  rintro x (rfl | left) y (rfl | right)
  · exact .refl _
  · exact new y right
  · exact (new x left).symm
  · exact close x left y right

theorem pass_le (priority : BitVec 32) : (pass priority).toNat ≤ bigStride.toNat := by
  unfold pass
  split
  · exact le_rfl
  · rw [BitVec.toNat_udiv]
    exact Nat.div_le_self _ _

/-- A priority above `BIG_STRIDE` is one that moves no stride. -/
theorem pass_pos_iff (priority : BitVec 32) : 0 < (pass priority).toNat ↔ priority ≤ bigStride := by
  unfold pass
  split_ifs with zero
  · simp [zero, bigStride]
  · have positive : 0 < priority.toNat :=
      Nat.pos_of_ne_zero fun vanishes => zero (BitVec.eq_of_toNat_eq vanishes)
    rw [BitVec.toNat_udiv, Nat.div_pos_iff, BitVec.le_def]
    simp [positive]

/-! ## True strides -/

/-- The state in which `stride_pick_next` returns `p`. -/
def advance (m : Machine) (p : ℕ) : Machine :=
  m.setStride (update m.stride p (m.stride p + pass (m.priority p)))

theorem stridePickNext_shape {next : Option ℕ} (hangs : Hangs m.heapLinks m.lab6RunPool pool)
    (picked : stridePickNext m = some (m', next)) :
    m.lab6RunPool = next ∧ m' = next.elim m (advance m) := by
  obtain ⟨-, shape⟩ := (stridePickNext_iff hangs _).mp picked
  unfold heapPickNext at shape
  cases root : m.lab6RunPool with
  | none | some p =>
    rw [root] at shape
    cases shape
    exact ⟨rfl, rfl⟩

/-- What `stride_pick_next` does to the true strides. -/
def truePick (m : Machine) (t : ℕ → ℕ) : ℕ → ℕ :=
  match m.lab6RunPool with
  | none => t
  | some p => update t p (t p + (pass (m.priority p)).toNat)

/-- The true strides after an event: a new process starts at 0. -/
def trueStrides (fuel : ℕ) (w : World) (t : ℕ → ℕ) : Event → ℕ → ℕ
  | .fork p _ => update t p 0
  | .schedule =>
    match requeueCurrent fuel w.machine with
    | none => t
    | some m => truePick m t
  | _ => t

/-- The runs of the stride scheduler whose events meet a condition, with the true
strides. -/
inductive StrideRun (condition : World → (ℕ → ℕ) → Event → Prop) : World → (ℕ → ℕ) → Prop
  | boot (m : Machine) (idle : ℕ) (t : ℕ → ℕ) : StrideRun condition (boot .stride m idle) t
  | step {fuel : ℕ} {w w' : World} {t : ℕ → ℕ} {e : Event} (run : StrideRun condition w t)
      (allowed : Allowed w e) (met : condition w t e) (ran : perform fuel w e = some w') :
      StrideRun condition w' (trueStrides fuel w t e)

/-- A list of events in turn, with the true strides. -/
def playStrides (condition : World → (ℕ → ℕ) → Event → Prop) [∀ w t e, Decidable (condition w t e)]
    (fuel : ℕ) (w : World) (t : ℕ → ℕ) : List Event → Option (World × (ℕ → ℕ))
  | [] => some (w, t)
  | e :: es =>
    if Allowed w e ∧ condition w t e then do
      let w' ← perform fuel w e
      playStrides condition fuel w' (trueStrides fuel w t e) es
    else none

theorem StrideRun.play {condition : World → (ℕ → ℕ) → Event → Prop}
    [∀ w t e, Decidable (condition w t e)] {t' : ℕ → ℕ} (fuel : ℕ) (events : List Event)
    (run : StrideRun condition w t) (ran : playStrides condition fuel w t events = some (w', t')) :
    StrideRun condition w' t' := by
  induction events generalizing w t with
  | nil =>
    cases ran
    exact run
  | cons e es ih =>
    unfold playStrides at ran
    split_ifs at ran with met
    obtain ⟨w₁, first, rest⟩ := Option.bind_eq_some_iff.mp ran
    exact ih (run.step met.1 met.2 first) rest

/-- The true stride of `p` is close to that of every process that can run. -/
def Joins (w : World) (t : ℕ → ℕ) (a : ℕ) : Prop :=
  ∀ q ∈ w.known, w.machine.state q = .runnable → Close a (t q)

/-- Who starts to run, new or woken, joins the others, no priority is above
`BIG_STRIDE`, and no more processes compete for the CPU than `skew_heap_trav` has room for. -/
def InStep (w : World) (t : ℕ → ℕ) : Event → Prop
  | .fork _ _ => Joins w t 0
  | .wakeup p => w.machine.state p ≠ .runnable → p ≠ w.machine.idleproc → Joins w t (t p)
  | .setPriority priority => priority ≤ bigStride
  | .schedule => (w.known.filter fun p => w.machine.state p = .runnable).length ≤ queueEntries
  | _ => True

instance (a b : ℕ) : Decidable (Close a b) := inferInstanceAs (Decidable (_ ∧ _))

instance (w : World) (t : ℕ → ℕ) (a : ℕ) : Decidable (Joins w t a) :=
  inferInstanceAs (Decidable (∀ q ∈ w.known, _))

instance (w : World) (t : ℕ → ℕ) : DecidablePred (InStep w t)
  | .fork _ _ => inferInstanceAs (Decidable (Joins w t 0))
  | .wakeup p =>
    inferInstanceAs (Decidable (w.machine.state p ≠ .runnable → p ≠ w.machine.idleproc → Joins w t (t p)))
  | .sleep _ => .isTrue trivial
  | .exit => .isTrue trivial
  | .reap _ => .isTrue trivial
  | .setPriority priority => inferInstanceAs (Decidable (priority ≤ bigStride))
  | .tick => .isTrue trivial
  | .schedule => inferInstanceAs (Decidable (_ ≤ queueEntries))

/-- What a pick relies on: the true strides in the pool are close, the comparison
function orders the pool as they do, and `stride_pick_next` returns a process of
least true stride and increases it. -/
structure StrideFair (m : Machine) (t : ℕ → ℕ) (pool : HeapTree ℕ) : Prop where
  hangs : Hangs m.heapLinks m.lab6RunPool pool
  close : ∀ p ∈ pool.nodes, ∀ q ∈ pool.nodes, Close (t p) (t q)
  agrees : ∀ p ∈ pool.nodes, ∀ q ∈ pool.nodes, procStrideCompF m p q = Int.sign ((t p : ℤ) - t q)
  returns : pool.size ≤ queueEntries → ∃ m', stridePickNext m = some (m', m.lab6RunPool)
  least : ∀ m' p, stridePickNext m = some (m', some p) → p ∈ pool.nodes ∧ ∀ q ∈ pool.nodes, t p ≤ t q
  increases : ∀ m' p, stridePickNext m = some (m', some p) → t p < truePick m t p

/-! ## The pool in order -/

/-- The order of a pool. -/
def Lower (t : ℕ → ℕ) (p q : ℕ) : Prop := t p ≤ t q

/-- The pool is ordered by true strides, which are close and have their residues in
`stride`; a pick of any of its processes will move it. -/
structure Ranked (m : Machine) (t : ℕ → ℕ) (pool : HeapTree ℕ) : Prop where
  kept : HeapQueue m pool
  ordered : pool.Ordered (Lower t)
  words : ∀ p ∈ pool.nodes, m.stride p = BitVec.ofNat 32 (t p)
  priorities : ∀ p ∈ pool.nodes, m.priority p ≤ bigStride
  close : ∀ p ∈ pool.nodes, ∀ q ∈ pool.nodes, Close (t p) (t q)

theorem compF_eq (close : Close (t p) (t q)) (word : m.stride p = BitVec.ofNat 32 (t p))
    (word' : m.stride q = BitVec.ofNat 32 (t q)) :
    procStrideCompF m p q = Int.sign ((t p : ℤ) - t q) := by
  rw [procStrideCompF, word, word', close.compare32]

theorem Lower.refl (p : ℕ) : Lower t p p := le_refl (t p)

theorem Lower.trans (p q r : ℕ) (first : Lower t p q) (second : Lower t q r) : Lower t p r :=
  Nat.le_trans first second

theorem compF_agrees (close : Close (t p) (t q)) (word : m.stride p = BitVec.ofNat 32 (t p))
    (word' : m.stride q = BitVec.ofNat 32 (t q)) :
    (procStrideCompF m p q = -1 → Lower t p q) ∧ (procStrideCompF m p q ≠ -1 → Lower t q p) := by
  rw [compF_eq close word word', ne_eq, Int.sign_eq_neg_one_iff_neg, Lower, Lower]
  omega

/-- Where the comparison function sees close strides, a merge keeps the order. -/
theorem merge_ordered_strides (left : l.Ordered (Lower t)) (right : r.Ordered (Lower t))
    (words : ∀ p ∈ l.nodes ++ r.nodes, m.stride p = BitVec.ofNat 32 (t p))
    (close : ∀ p ∈ l.nodes, ∀ q ∈ r.nodes, Close (t p) (t q)) :
    (l.merge (procStrideCompF m · · = -1) r).Ordered (Lower t) := by
  refine HeapTree.merge_ordered _ Lower.refl Lower.trans l r (fun p inLeft q inRight => ?_) left right
  exact compF_agrees (close p inLeft q inRight) (words p (mem_append_left _ inLeft))
    (words q (mem_append_right _ inRight))

namespace Ranked

theorem congr (ranked : Ranked m t pool) (links : m'.heapLinks = m.heapLinks)
    (root : m'.lab6RunPool = m.lab6RunPool) (count : m'.procNum = m.procNum)
    (stride : m'.stride = m.stride) (priority : m'.priority = m.priority) : Ranked m' t pool :=
  ⟨ranked.kept.congr links root count, ranked.ordered, stride ▸ ranked.words,
    priority ▸ ranked.priorities, ranked.close⟩

theorem root_least (ranked : Ranked m t pool) (root : m.lab6RunPool = some p)
    (member : q ∈ pool.nodes) : t p ≤ t q := by
  have ordered := ranked.ordered
  obtain ⟨l, r, rfl⟩ := ranked.kept.hangs.root_node root
  exact ordered.root_le (le_refl (t p)) member

theorem fair (ranked : Ranked m t pool) : StrideFair m t pool := by
  refine ⟨ranked.kept.hangs, ranked.close, ?_, ?_, ?_, ?_⟩
  · intro p inside q inside'
    exact compF_eq (ranked.close p inside q inside') (ranked.words p inside) (ranked.words q inside')
  · intro small
    obtain ⟨stride, -, picks⟩ := SchedClass.pickNext_heap (c := .stride) rfl ranked.kept.hangs
    exact ⟨_, (picks _).mpr ⟨fun _ _ _ _ => small, rfl⟩⟩
  · intro m' p picked
    obtain ⟨next, -⟩ := stridePickNext_shape ranked.kept.hangs picked
    exact ⟨ranked.kept.hangs.root_mem next, fun q inside => ranked.root_least next inside⟩
  · intro m' p picked
    obtain ⟨next, -⟩ := stridePickNext_shape ranked.kept.hangs picked
    have moved := (pass_pos_iff _).mpr (ranked.priorities p (ranked.kept.hangs.root_mem next))
    simp only [truePick, next, update_self]
    omega

theorem enqueue (ranked : Ranked m t pool) (fresh : p ∉ pool.nodes)
    (word : m.stride p = BitVec.ofNat 32 (t p)) (priority : m.priority p ≤ bigStride)
    (close : ∀ q ∈ pool.nodes, Close (t p) (t q)) (ran : strideEnqueue fuel m p = some m') :
    ∃ links root pool', m' = enroll (m.setHeap links root) p ∧ Ranked m' t pool' ∧
      pool'.nodes.Perm (p :: pool.nodes) := by
  obtain ⟨links, root, -, only, kept⟩ := ranked.kept.enqueue procStrideCompF fresh
  obtain rfl := only fuel m' ran
  have nodes : (pool.merge (procStrideCompF m · · = -1) (.node .nil p .nil)).nodes.Perm
      (p :: pool.nodes) :=
    (HeapTree.nodes_merge _ _ _).trans perm_append_comm
  refine ⟨links, root, _, rfl, ⟨kept, ?_, ?_, ?_, ?_⟩, nodes⟩
  · exact merge_ordered_strides ranked.ordered ⟨by simp [HeapTree.nodes], trivial, trivial⟩
      (forall_mem_append.mpr ⟨ranked.words, forall_mem_singleton.mpr word⟩)
      fun q inside => forall_mem_singleton.mpr (close q inside).symm
  · exact fun q member => (mem_cons.mp (nodes.subset member)).elim (· ▸ word) (ranked.words q)
  · exact fun q member => (mem_cons.mp (nodes.subset member)).elim (· ▸ priority) (ranked.priorities q)
  · exact fun q member x member' => Close.extend ranked.close close q
      (mem_cons.mp (nodes.subset member)) x (mem_cons.mp (nodes.subset member'))

/-- A pick and the `dequeue` after it. The least stride grows by no more than
`BIG_STRIDE`, so it ends up close to those it was below. -/
theorem pick (ranked : Ranked m t pool) (root : m.lab6RunPool = some p)
    (ran : strideDequeue fuel (advance m p) p = some m') :
    ∃ links root' pool', m' = discharge ((advance m p).setHeap links root') ∧
      Ranked m' (truePick m t) pool' ∧ pool'.nodes.Perm (pool.nodes.erase p) ∧
      ∀ q ∈ pool.nodes, Close (truePick m t p) (truePick m t q) := by
  have grown : truePick m t = update t p (t p + (pass (m.priority p)).toNat) := by
    simp [truePick, root]
  rw [grown]
  have kept : HeapQueue (advance m p) pool := ranked.kept.congr rfl rfl rfl
  have member := ranked.kept.hangs.root_mem root
  obtain ⟨links, root', -, only, left⟩ := kept.dequeue procStrideCompF member
  obtain rfl := only fuel m' ran
  have nodes := HeapTree.nodes_remove (procStrideCompF (advance m p) · · = -1) (b := p) ranked.kept.distinct
  have others : ∀ q, q ∈ pool.nodes.erase p → q ∈ pool.nodes ∧ q ≠ p :=
    fun q member => (ranked.kept.distinct.mem_erase_iff.mp member).symm
  have step := pass_le (m.priority p)
  refine ⟨links, root', _, rfl, ⟨left, ?_, ?_, ?_, ?_⟩, nodes, ?_⟩
  · have words : ∀ q ∈ pool.nodes, q ≠ p → (advance m p).stride q = BitVec.ofNat 32 (t q) :=
      fun q inside other => (update_of_ne other _ _).trans (ranked.words q inside)
    -- the comparisons are between the other processes, whose strides did not move
    refine (HeapTree.remove_ordered _ Lower.refl Lower.trans pool kept.distinct
      (fun x y inside inside' other other' => ?_) ranked.ordered).imp fun x inside y inside' le => ?_
    · exact compF_agrees (ranked.close x inside y inside') (words x inside other) (words y inside' other')
    · rwa [Lower, update_of_ne (others x (nodes.subset inside)).2,
        update_of_ne (others y (nodes.subset inside')).2]
  · intro q member
    obtain ⟨inside, other⟩ := others q (nodes.subset member)
    rw [update_of_ne other, ← ranked.words q inside]
    exact update_of_ne other _ _
  · exact fun q member => ranked.priorities q (others q (nodes.subset member)).1
  · intro q member x member'
    obtain ⟨inside, other⟩ := others q (nodes.subset member)
    obtain ⟨inside', other'⟩ := others x (nodes.subset member')
    rw [update_of_ne other, update_of_ne other']
    exact ranked.close q inside x inside'
  · intro q inside
    by_cases same : q = p
    · rw [same]
      exact .refl _
    · have above := ranked.root_least root inside
      have below := (ranked.close p member q inside).2
      rw [update_self, update_of_ne same]
      constructor <;> omega

end Ranked

/-! ## Runs -/

/-- A state of a run: the pool is in order, and everything that can run is close. -/
structure Strided (m : Machine) (known : List ℕ) (t : ℕ → ℕ) (pool : HeapTree ℕ) : Prop where
  active : m.schedClass = .stride
  roster : Roster m known pool.nodes
  kept : HeapQueue m pool
  ordered : pool.Ordered (Lower t)
  words : ∀ p ∈ known, m.stride p = BitVec.ofNat 32 (t p)
  priorities : ∀ p ∈ known, m.priority p ≤ bigStride
  close : ∀ p ∈ known, m.state p = .runnable → ∀ q ∈ known, m.state q = .runnable →
    Close (t p) (t q)

namespace Strided

section

variable (strided : Strided m known t pool)

include strided

theorem ranked : Ranked m t pool := by
  have inside : ∀ p ∈ pool.nodes, p ∈ known ∧ m.state p = .runnable := by
    intro p member
    obtain ⟨member, ready, -⟩ := (strided.roster.exact p).mp member
    exact ⟨member, ready⟩
  exact { strided with
    words := fun p member => strided.words p (inside p member).1
    priorities := fun p member => strided.priorities p (inside p member).1
    close := fun p member q member' => strided.close p (inside p member).1 (inside p member).2
      q (inside q member').1 (inside q member').2 }

/-- Who starts to run close to the others leaves all of them close. -/
private theorem close_setRunnable
    (joins : p ∈ known → ∀ q ∈ known, m.state q = .runnable → Close (t p) (t q)) :
    ∀ x ∈ known, (setRunnable m p).state x = .runnable → ∀ y ∈ known,
      (setRunnable m p).state y = .runnable → Close (t x) (t y) := by
  have close := strided.close
  have others : ∀ x, x ≠ p → (setRunnable m p).state x = .runnable → m.state x = .runnable := by
    intro x other ready
    simpa [setRunnable, other] using ready
  grind [Close.symm, Close.refl]

/-- A process starts to run: it goes to the pool, or it is the current one or
`idleproc` and the pool stays. -/
theorem wakeup (member : p ∈ known ∨ p = m.idleproc)
    (joins : m.state p ≠ .runnable → p ≠ m.idleproc →
      ∀ q ∈ known, m.state q = .runnable → Close (t p) (t q))
    (ran : wakeupProc fuel m p = some m') : ∃ pool', Strided m' known t pool' := by
  have alive : m.state p ≠ .zombie := by
    intro dead
    simp [wakeupProc, dead] at ran
  have close := fun ready => strided.close_setRunnable fun inside =>
    joins ready fun idle => strided.roster.idle (idle ▸ inside)
  rw [wakeupProc_eq fuel alive] at ran
  split_ifs at ran with ready apart
  · cases ran
    exact ⟨pool, strided⟩
  · cases ran
    exact ⟨pool, { strided with
      roster := strided.roster.restate apart rfl rfl rfl
      kept := strided.kept.congr rfl rfl rfl
      close := close ready }⟩
  rw [strided.active] at ran
  rw [not_or] at apart
  have known' := member.resolve_right apart.2
  have fresh : p ∉ pool.nodes := fun queued => ready ((strided.roster.exact p).mp queued).2.1
  have woken : Ranked (setRunnable m p) t pool := strided.ranked.congr rfl rfl rfl rfl rfl
  obtain ⟨links, root, pool', rfl, ranked, nodes⟩ := woken.enqueue fresh (strided.words p known')
    (strided.priorities p known') (fun q queued => by
      obtain ⟨inQ, readyQ, -⟩ := (strided.roster.exact q).mp queued
      exact joins ready apart.2 q inQ readyQ) ran
  refine ⟨pool', strided.active, .perm ?_ nodes, ranked.kept, ranked.ordered, strided.words,
    strided.priorities, close ready⟩
  exact strided.roster.wake known' apart.1 rfl rfl rfl

/-- The current process stops: those that still can run are as close as before. -/
theorem halt {stopped : Proc.ProcState} (stops : stopped ≠ .runnable) (waitState : ℕ → ℕ) :
    Strided { m with state := update m.state m.current stopped, waitState := waitState }
      known t pool := by
  have others : ∀ x, update m.state m.current stopped x = .runnable → m.state x = .runnable := by
    intro x ready
    rw [update_apply] at ready
    split_ifs at ready
    · exact absurd ready stops
    · exact ready
  exact { strided with
    roster := strided.roster.restate (.inl rfl) rfl rfl rfl
    kept := strided.kept.congr rfl rfl rfl
    close := fun x inside ready y inside' ready' =>
      strided.close x inside (others x ready) y inside' (others y ready') }

/-- A new process starts at 0 and does not run yet. -/
theorem alloc (fresh : p ∉ known) (notIdle : p ≠ m.idleproc) :
    Strided (allocProc m p) (p :: known) (update t p 0) pool := by
  have apart : ∀ q ∈ pool.nodes, q ≠ p :=
    fun q member same => fresh (same ▸ ((strided.roster.exact q).mp member).1)
  have old : ∀ q ∈ known, q ≠ p := fun q member same => fresh (same ▸ member)
  refine ⟨strided.active, strided.roster.alloc fresh notIdle, strided.kept.alloc fun member => apart p member rfl,
    ?_, ?_, ?_, ?_⟩
  · refine strided.ordered.imp fun x inside y inside' le => ?_
    rwa [Lower, update_of_ne (apart x inside), update_of_ne (apart y inside')]
  · refine forall_mem_cons.mpr ⟨by simp [allocProc], fun q member => ?_⟩
    simpa [allocProc, old q member] using strided.words q member
  · refine forall_mem_cons.mpr ⟨by simp [allocProc, bigStride], fun q member => ?_⟩
    simpa [allocProc, old q member] using strided.priorities q member
  · have running : ∀ q ∈ p :: known, (allocProc m p).state q = .runnable →
        q ≠ p ∧ q ∈ known ∧ m.state q = .runnable := by
      refine forall_mem_cons.mpr ⟨by simp [allocProc], fun q member ready => ?_⟩
      exact ⟨old q member, member, by simpa [allocProc, old q member] using ready⟩
    intro x insideX readyX y insideY readyY
    obtain ⟨otherX, oldX, beforeX⟩ := running x insideX readyX
    obtain ⟨otherY, oldY, beforeY⟩ := running y insideY readyY
    rw [update_of_ne otherX, update_of_ne otherY]
    exact strided.close x oldX beforeX y oldY beforeY

theorem setPriority {priority : BitVec 32}
    (bound : priority ≤ bigStride) : Strided (lab6SetPriority m priority) known t pool := by
  refine { strided with roster := strided.roster.congr rfl rfl rfl, kept := strided.kept.congr rfl rfl rfl, priorities := ?_ }
  intro q inside
  by_cases same : q = m.current
  · simp only [lab6SetPriority, same, update_self]
    split
    · decide
    · exact bound
  · simpa [lab6SetPriority, same] using strided.priorities q inside

/-- The current process joins the pool again, as one of those that can run. -/
theorem requeue (ran : requeueCurrent fuel m = some m₁) :
    ∃ pool', Ranked m₁ t pool' ∧ pool'.nodes.Perm (Roster.candidates m pool.nodes) ∧
      m₁.schedClass = .stride ∧ m₁.state = m.state ∧ m₁.stride = m.stride ∧
      m₁.priority = m.priority ∧ m₁.idleproc = m.idleproc := by
  rw [requeueCurrent_eq] at ran
  rw [Roster.candidates]
  have cleared : Ranked (clearResched m) t pool := strided.ranked.congr rfl rfl rfl rfl rfl
  by_cases queued : m.state m.current = .runnable ∧ m.current ≠ m.idleproc
  · have inside := strided.roster.current.resolve_left queued.2
    rw [if_pos queued, strided.active] at ran
    rw [if_pos queued]
    obtain ⟨links, root, pool', rfl, ranked, nodes⟩ := cleared.enqueue strided.roster.current_notMem
      (strided.words _ inside) (strided.priorities _ inside) (fun q member => by
        obtain ⟨inQ, readyQ, -⟩ := (strided.roster.exact q).mp member
        exact strided.close _ inside queued.1 q inQ readyQ) ran
    exact ⟨pool', ranked, nodes, strided.active, rfl, rfl, rfl, rfl⟩
  · rw [if_neg queued] at ran ⊢
    cases ran
    exact ⟨pool, cleared, .rfl, strided.active, rfl, rfl, rfl, rfl⟩

/-- Nobody can run, so `idleproc` does. -/
private theorem run_idle (requeued : requeueCurrent fuel m = some m₁)
    (root : m₁.lab6RunPool = none) : ∃ pool', Strided (switchTo m₁ m₁.idleproc) known t pool' := by
  obtain ⟨waiting, ranked, nodes, active, state, stride, priority, idle⟩ := strided.requeue requeued
  obtain rfl := ranked.kept.hangs.nil_iff.mp root
  refine ⟨.nil, active, ?_, ranked.kept.congr rfl rfl rfl, trivial, stride ▸ strided.words,
    priority ▸ strided.priorities, state ▸ strided.close⟩
  refine strided.roster.switch strided.kept.distinct (.inr idle) ?_ state idle
  rw [← List.Perm.nil_eq nodes]
  exact .rfl

/-- The process of least stride leaves the pool and runs. -/
private theorem run_next (requeued : requeueCurrent fuel m = some m₁)
    (root : m₁.lab6RunPool = some p) (ran : strideDequeue fuel (advance m₁ p) p = some m') :
    ∃ pool', Strided (switchTo m' p) known (truePick m₁ t) pool' := by
  obtain ⟨waiting, ranked, nodes, active, state, stride, priority, idle⟩ := strided.requeue requeued
  obtain ⟨links, root', left, rfl, ranked', nodes', close'⟩ := ranked.pick root ran
  have grown : truePick m₁ t = update t p (t p + (pass (m₁.priority p)).toNat) := by
    simp [truePick, root]
  -- Whoever can run was a candidate.
  have candidate : ∀ q ∈ known, m.state q = .runnable → q ∈ waiting.nodes := by
    intro q inside ready
    rw [nodes.mem_iff, strided.roster.candidates_iff]
    exact ⟨inside, ready⟩
  refine ⟨left, active, ?_, ranked'.kept.congr rfl rfl rfl, ranked'.ordered, ?_,
    priority ▸ strided.priorities, ?_⟩
  · refine strided.roster.switch strided.kept.distinct (.inl ?_) (nodes'.trans (nodes.erase p)) state idle
    exact nodes.mem_iff.mp (ranked.kept.hangs.root_mem root)
  · intro q inside
    have word := strided.words q inside
    rw [← stride] at word
    rw [grown]
    by_cases same : q = p
    · subst same
      rw [update_self, BitVec.ofNat_add, BitVec.ofNat_toNat, BitVec.setWidth_eq, ← word]
      exact update_self q _ _
    · rw [update_of_ne same, ← word]
      exact update_of_ne same _ _
  · have close := strided.close
    rw [← state] at candidate close
    have others : ∀ x, x ≠ p → truePick m₁ t x = t x := fun x other => by
      rw [grown, update_of_ne other]
    intro x insideX readyX y insideY readyY
    have left := close' x (candidate x insideX readyX)
    have right := close' y (candidate y insideY readyY)
    have both := close x insideX readyX y insideY readyY
    grind [Close.symm]

theorem schedule (requeued : requeueCurrent fuel m = some m₁)
    (ran : Sched.schedule fuel m = some m') : ∃ pool', Strided m' known (truePick m₁ t) pool' := by
  obtain ⟨waiting, ranked, -, active, -⟩ := strided.requeue requeued
  obtain ⟨m₁', m₂, requeued', outcome⟩ := schedule_cases ran
  cases requeued.symm.trans requeued'
  rw [schedClassPickNext, active, show SchedClass.stride.pickNext m₁ = stridePickNext m₁ from rfl] at outcome
  rcases outcome with ⟨picked, rfl⟩ | ⟨p, m₃, picked, taken, rfl⟩
  · obtain ⟨root, shape⟩ := stridePickNext_shape ranked.kept.hangs picked
    rw [show truePick m₁ t = t by simp [truePick, root], shape]
    exact strided.run_idle requeued root
  · obtain ⟨root, rfl⟩ := stridePickNext_shape ranked.kept.hangs picked
    change m₁.schedClass.dequeue fuel (advance m₁ p) p = _ at taken
    rw [active] at taken
    exact strided.run_next requeued root taken

/-- With enough depth for the heap and room for the copy of the pool, `schedule` returns. -/
theorem schedule_returns (few : (known.filter fun p => m.state p = .runnable).length ≤ queueEntries) :
    ∃ m', ∀ fuel, pool.size + 1 < fuel → Sched.schedule fuel m = some m' := by
  obtain ⟨m₁, requeued⟩ : ∃ m₁, ∀ fuel, pool.size + 1 < fuel → requeueCurrent fuel m = some m₁ := by
    simp only [requeueCurrent_eq, strided.active]
    split
    · have cleared : HeapQueue (clearResched m) pool := strided.kept.congr rfl rfl rfl
      obtain ⟨links, root, succeeds, -⟩ := cleared.enqueue procStrideCompF strided.roster.current_notMem
      exact ⟨_, succeeds⟩
    · exact ⟨_, fun _ _ => rfl⟩
  obtain ⟨waiting, ranked, nodes, active, -⟩ := strided.requeue (requeued _ (Nat.lt_succ_self _))
  have size : waiting.size ≤ pool.size + 1 := by
    have same := nodes.length_eq
    simp only [Roster.candidates, HeapTree.size] at same ⊢
    split at same <;> grind
  have fits : waiting.size ≤ queueEntries := by
    refine (ranked.kept.distinct.subperm fun p member => ?_).length_le.trans few
    rw [nodes.mem_iff, strided.roster.candidates_iff] at member
    simpa using member
  obtain ⟨stride, picked⟩ : ∃ stride, schedClassPickNext m₁ = some (m₁.setStride stride, m₁.lab6RunPool) := by
    rw [schedClassPickNext, active]
    obtain ⟨stride, -, picks⟩ := SchedClass.pickNext_heap (c := .stride) rfl ranked.kept.hangs
    exact ⟨stride, (picks _).mpr ⟨fun _ _ _ _ => fits, rfl⟩⟩
  cases root : m₁.lab6RunPool with
  | none =>
    rw [root] at picked
    exact ⟨_, fun fuel enough => schedule_idle (requeued fuel enough) picked⟩
  | some p =>
    rw [root] at picked
    have kept : HeapQueue (m₁.setStride stride) waiting := ranked.kept.congr rfl rfl rfl
    obtain ⟨links, root', succeeds, -⟩ := kept.dequeue procStrideCompF (ranked.kept.hangs.root_mem root)
    have same : (m₁.setStride stride).schedClass = .stride := active
    refine ⟨switchTo (discharge ((m₁.setStride stride).setHeap links root')) p, fun fuel enough => ?_⟩
    refine schedule_next (requeued fuel enough) picked ?_
    rw [same]
    exact succeeds fuel (by omega)

end

end Strided

/-- One event that meets the condition. -/
theorem Strided.perform {e : Event} (strided : Strided w.machine w.known t pool) (allowed : Allowed w e)
    (met : InStep w t e) (ran : Sched.perform fuel w e = some w') :
    ∃ pool', Strided w'.machine w'.known (trueStrides fuel w t e) pool' := by
  cases e with
  | fork p pid =>
    obtain ⟨m', woken, ⟨⟩⟩ := Option.bind_eq_some_iff.mp ran
    have made : Strided (forkProc w.machine p pid) (p :: w.known) (update t p 0) pool :=
      { strided.alloc allowed.1 allowed.2 with
        roster := (strided.roster.alloc allowed.1 allowed.2).congr rfl rfl rfl
        kept := (strided.alloc allowed.1 allowed.2).kept.congr rfl rfl rfl }
    refine made.wakeup (.inl mem_cons_self) ?_ woken
    intro _ _ q member ready
    by_cases same : q = p
    · simp [forkProc, allocProc, same] at ready
    · rw [update_self, update_of_ne same]
      exact met q (by simpa [same] using member) (by simpa [forkProc, allocProc, same] using ready)
  | wakeup p =>
    obtain ⟨m', woken, ⟨⟩⟩ := Option.bind_eq_some_iff.mp ran
    exact strided.wakeup allowed.1 met woken
  | sleep waitState =>
    cases ran
    exact ⟨pool, strided.halt (by simp) _⟩
  | exit =>
    cases ran
    exact ⟨pool, strided.halt (by simp) w.machine.waitState⟩
  | reap p =>
    cases ran
    have fewer : ∀ q ∈ w.known.filter (· ≠ p), q ∈ w.known := fun q member => (mem_filter.mp member).1
    exact ⟨pool, { strided with
      roster := strided.roster.reap allowed.2.1 allowed.2.2
      words := fun q member => strided.words q (fewer q member)
      priorities := fun q member => strided.priorities q (fewer q member)
      close := fun x member ready y member' => strided.close x (fewer x member) ready y (fewer y member') }⟩
  | setPriority priority =>
    cases ran
    exact ⟨pool, strided.setPriority met⟩
  | tick =>
    obtain ⟨timeSlice, needResched, ticked⟩ := schedClassProcTick_frame w.machine w.machine.current
    cases ran
    rw [ticked]
    exact ⟨pool, { strided with
      roster := strided.roster.congr rfl rfl rfl
      kept := strided.kept.congr rfl rfl rfl }⟩
  | schedule =>
    obtain ⟨m', scheduled, ⟨⟩⟩ := Option.bind_eq_some_iff.mp ran
    obtain ⟨m₁, requeued, -⟩ := Option.bind_eq_some_iff.mp scheduled
    rw [show trueStrides fuel w t .schedule = truePick m₁ t by simp [trueStrides, requeued]]
    exact strided.schedule requeued scheduled

theorem StrideRun.strided (run : StrideRun InStep w t) : ∃ pool, Strided w.machine w.known t pool := by
  induction run with
  | boot m idle t =>
    have empty : (Sched.boot .stride m idle).known = [] := rfl
    rw [empty]
    exact ⟨.nil, rfl, ⟨by simp, .inl rfl, by simp [HeapTree.nodes]⟩,
      ⟨rfl, fun p root => (by cases root), nodup_nil, rfl⟩, trivial, by simp, by simp, by simp⟩
  | step _ allowed met ran ih =>
    obtain ⟨pool, strided⟩ := ih
    exact strided.perform allowed met ran

/-- In a run in which whoever starts to run does so close to the others, no priority is
above `BIG_STRIDE` and no more than 100 processes compete for the CPU, strides may wrap
around: in every state, and again when `schedule` is about to pick, the pool is fair,
and `schedule` returns. -/
theorem stride_fair_of_inStep (run : StrideRun InStep w t) :
    (∃ pool, StrideFair w.machine t pool) ∧
      (∀ fuel m, requeueCurrent fuel w.machine = some m → ∃ pool, StrideFair m t pool) ∧
      (InStep w t .schedule → ∃ bound m, ∀ fuel, bound < fuel → schedule fuel w.machine = some m) := by
  obtain ⟨pool, strided⟩ := run.strided
  refine ⟨⟨pool, strided.ranked.fair⟩, ?_, ?_⟩
  · intro fuel m requeued
    obtain ⟨waiting, ranked, -⟩ := strided.requeue requeued
    exact ⟨waiting, ranked.fair⟩
  · intro few
    obtain ⟨m', returns⟩ := strided.schedule_returns few
    exact ⟨pool.size + 1, m', returns⟩

/-- Two processes take turns until their strides are past `2 ^ 32`. -/
theorem stride_fair_of_inStep_turns :
    ∃ w t, playStrides InStep 8 (boot .stride unbooted 0) (fun _ => 0)
        [.fork 1 1, .fork 2 2, .schedule, .schedule, .schedule, .schedule, .schedule, .schedule] = some (w, t) ∧
      2 ^ 32 < t 1 ∧ 2 ^ 32 < t 2 ∧ ∃ pool, StrideFair w.machine t pool := by
  have start : StrideRun InStep (boot .stride unbooted 0) fun _ => 0 := .boot unbooted 0 _
  have run := start.play 8
    [.fork 1 1, .fork 2 2, .schedule, .schedule, .schedule, .schedule, .schedule, .schedule] rfl
  exact ⟨_, _, rfl, by decide, by decide, (stride_fair_of_inStep run).1⟩

/-- No condition on the events. -/
def Anything (_w : World) (_t : ℕ → ℕ) (_e : Event) : Prop := True

instance (w : World) (t : ℕ → ℕ) (e : Event) : Decidable (Anything w t e) := .isTrue trivial

/-- Strides do not survive every run. Process 1 has run twice, at priority 0, when it
makes process 2, whose stride is 0: the comparison takes the larger of the two
for the smaller and `stride_pick_next` returns process 1. And a process that sets
its priority above `BIG_STRIDE` is picked without moving. -/
theorem stride_pick_unfair :
    (∃ w t m, StrideRun Anything w t ∧ requeueCurrent 8 w.machine = some m ∧
      (∃ m', stridePickNext m = some (m', some 1)) ∧ m.heapLinks.left 1 = some 2 ∧ t 2 < t 1 ∧
      ¬ ∃ pool, StrideFair m t pool) ∧
    ∃ w t m, StrideRun Anything w t ∧ requeueCurrent 8 w.machine = some m ∧
      (∃ m', stridePickNext m = some (m', some 1)) ∧ truePick m t 1 = t 1 := by
  have start : StrideRun Anything (boot .stride unbooted 0) fun _ => 0 := .boot unbooted 0 _
  constructor
  · refine ⟨_, _, _, start.play 8 [.fork 1 1, .schedule, .schedule, .fork 2 2] rfl, rfl, ⟨_, rfl⟩, rfl,
      by decide, ?_⟩
    rintro ⟨pool, fair⟩
    obtain ⟨l, r, rfl⟩ := fair.hangs.root_node rfl
    have below : 2 ∈ l.nodes := fair.hangs.2.1.root_mem rfl
    have least := (fair.least _ 1 rfl).2 2 (by simp [HeapTree.nodes, below])
    exact absurd least (by decide)
  · exact ⟨_, _, _, start.play 8 [.fork 1 1, .schedule, .setPriority 0x80000000] rfl, rfl, ⟨_, rfl⟩, rfl⟩

end LiNos.Sched
