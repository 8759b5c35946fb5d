import LiNos.StrideRuns

/-!
The priority scheduler.

`prior_pick_next` takes the root of the heap, and the comparison function subtracts two
unsigned priorities and looks at the sign. Priorities that are within `BIG_STRIDE` of each
other are compared as numbers; others are not, and the root may be the worst.
-/

namespace LiNos.Sched

open SkewHeap Function List

variable {m m' : Machine} {queue : List ℕ} {p q fuel : ℕ} {t : HeapTree ℕ}

/-- The runs of the priority scheduler whose `enqueue`s meet a condition. In between anything
but the run queue and the priorities of those in it may change. -/
inductive PriorRun (condition : Machine → List ℕ → ℕ → Prop) : Machine → List ℕ → Prop
  | init (m : Machine) : PriorRun condition (priorInit m) []
  | enqueue {m m' : Machine} {queue : List ℕ} {p fuel : ℕ} (run : PriorRun condition m queue)
      (fresh : p ∉ queue) (met : condition m queue p) (ran : priorEnqueue fuel m p = some m') :
      PriorRun condition m' (p :: queue)
  | dequeue {m m' : Machine} {queue : List ℕ} {p fuel : ℕ} (run : PriorRun condition m queue)
      (member : p ∈ queue) (ran : priorDequeue fuel m p = some m') : PriorRun condition m' (queue.erase p)
  | pickNext {m : Machine} {queue : List ℕ} (run : PriorRun condition m queue) :
      PriorRun condition (priorPickNext m).1 queue
  | other {m m' : Machine} {queue : List ℕ} (run : PriorRun condition m queue) (same : SameQueue m m')
      (kept : ∀ p ∈ queue, m'.priority p = m.priority p) : PriorRun condition m' queue

/-- `prior_pick_next` returns a queued process of least priority value, or `NULL` if there is
none. -/
def PicksBest (m : Machine) (queue : List ℕ) : Prop :=
  ((priorPickNext m).2 = none ↔ queue = []) ∧
    ∀ p, (priorPickNext m).2 = some p → p ∈ queue ∧ ∀ q ∈ queue, m.priority p ≤ m.priority q

/-- The priority of `p` is within `BIG_STRIDE` of the queued ones. -/
def Near (m : Machine) (queue : List ℕ) (p : ℕ) : Prop :=
  ∀ q ∈ queue, Close (m.priority p).toNat (m.priority q).toNat

/-- The order of the pool. -/
def Sooner (m : Machine) (p q : ℕ) : Prop := m.priority p ≤ m.priority q

theorem Sooner.refl (p : ℕ) : Sooner m p p := BitVec.le_refl (m.priority p)

theorem Sooner.trans (p q r : ℕ) (first : Sooner m p q) (second : Sooner m q r) : Sooner m p r :=
  BitVec.le_trans first second

/-- The pool holds the queue, in the order of priorities that are close. -/
structure Prioritised (m : Machine) (queue : List ℕ) (t : HeapTree ℕ) : Prop where
  kept : HeapQueue m t
  nodes : t.nodes.Perm queue
  ordered : t.Ordered (Sooner m)
  close : ∀ p ∈ queue, ∀ q ∈ queue, Close (m.priority p).toNat (m.priority q).toNat

theorem procPriorCompF_agrees (close : Close (m.priority p).toNat (m.priority q).toNat) :
    (procPriorCompF m p q = -1 → Sooner m p q) ∧ (procPriorCompF m p q ≠ -1 → Sooner m q p) := by
  have sign := close.compare32
  rw [BitVec.ofNat_toNat, BitVec.ofNat_toNat, BitVec.setWidth_eq, BitVec.setWidth_eq] at sign
  rw [procPriorCompF, sign, ne_eq, Int.sign_eq_neg_one_iff_neg, Sooner, Sooner, BitVec.le_def, BitVec.le_def]
  omega

namespace Prioritised

theorem congr (prioritised : Prioritised m queue t) (kept : HeapQueue m' t)
    (same : ∀ p ∈ queue, m'.priority p = m.priority p) : Prioritised m' queue t := by
  refine ⟨kept, prioritised.nodes, prioritised.ordered.imp fun p inside q inside' le => ?_, ?_⟩
  · rwa [Sooner, same p (prioritised.nodes.subset inside), same q (prioritised.nodes.subset inside')]
  · intro p member q member'
    rw [same p member, same q member']
    exact prioritised.close p member q member'

theorem enqueue (prioritised : Prioritised m queue t) (fresh : p ∉ queue) (near : Near m queue p)
    (ran : priorEnqueue fuel m p = some m') : ∃ t', Prioritised m' (p :: queue) t' := by
  obtain ⟨kept, nodes, ordered, close⟩ := prioritised
  obtain ⟨links, pool, -, only, kept'⟩ := kept.enqueue procPriorCompF (mt nodes.mem_iff.mp fresh)
  rw [only fuel m' ran]
  refine ⟨_, kept', ?_, ?_, ?_⟩
  · exact (HeapTree.nodes_merge _ _ _).trans (perm_append_comm.trans (nodes.cons p))
  · refine HeapTree.merge_ordered _ Sooner.refl Sooner.trans t
      (.node .nil p .nil) (fun q inside => ?_) ordered ⟨by simp [HeapTree.nodes], trivial, trivial⟩
    exact forall_mem_singleton.mpr (procPriorCompF_agrees (near q (nodes.subset inside)).symm)
  · intro x member y member'
    exact Close.extend close near x (mem_cons.mp member) y (mem_cons.mp member')

theorem dequeue (prioritised : Prioritised m queue t) (member : p ∈ queue)
    (ran : priorDequeue fuel m p = some m') : ∃ t', Prioritised m' (queue.erase p) t' := by
  obtain ⟨kept, nodes, ordered, close⟩ := prioritised
  obtain ⟨links, pool, -, only, kept'⟩ := kept.dequeue procPriorCompF (nodes.mem_iff.mpr member)
  rw [only fuel m' ran]
  refine ⟨_, kept', (HeapTree.nodes_remove _ kept.distinct).trans (nodes.erase p), ?_, ?_⟩
  · refine HeapTree.remove_ordered _ Sooner.refl Sooner.trans t kept.distinct
      (fun x y inside inside' _ _ => ?_) ordered
    exact procPriorCompF_agrees (close x (nodes.subset inside) y (nodes.subset inside'))
  · exact fun x inside y inside' => close x (mem_of_mem_erase inside) y (mem_of_mem_erase inside')

theorem picksBest (prioritised : Prioritised m queue t) : PicksBest m queue := by
  obtain ⟨kept, nodes, ordered, -⟩ := prioritised
  have picked : (priorPickNext m).2 = m.lab6RunPool := by
    obtain ⟨stride, -, picked⟩ := heapPickNext_frame (fun m p => m.priority p) m
    rw [priorPickNext, picked]
  rw [PicksBest, picked]
  constructor
  · rw [kept.hangs.nil_iff]
    constructor
    · rintro rfl
      exact nodes.nil_eq.symm
    · rintro rfl
      cases t with
      | nil => rfl
      | node l a r => cases nodes.eq_nil
  · intro p root
    refine ⟨nodes.subset (kept.hangs.root_mem root), fun q member => ?_⟩
    obtain ⟨l, r, rfl⟩ := kept.hangs.root_node root
    exact ordered.root_le (Sooner.refl p) (nodes.mem_iff.mpr member)

theorem returns (prioritised : Prioritised m queue t) (enough : queue.length + 1 < fuel) :
    (∀ p ∉ queue, (priorEnqueue fuel m p).isSome) ∧ ∀ p ∈ queue, (priorDequeue fuel m p).isSome := by
  obtain ⟨kept, nodes, -, -⟩ := prioritised
  have size : t.size = queue.length := nodes.length_eq
  constructor
  · intro p fresh
    obtain ⟨links, pool, ran, -⟩ := kept.enqueue procPriorCompF (mt nodes.mem_iff.mp fresh)
    simp [priorEnqueue, ran fuel (by omega)]
  · intro p member
    obtain ⟨links, pool, ran, -⟩ := kept.dequeue procPriorCompF (nodes.mem_iff.mpr member)
    simp [priorDequeue, ran fuel (by omega)]

end Prioritised

theorem PriorRun.prioritised (run : PriorRun Near m queue) : ∃ t, Prioritised m queue t := by
  induction run with
  | init m => exact ⟨.nil, ⟨rfl, fun p root => (by cases root), nodup_nil, rfl⟩, .rfl, trivial, by simp⟩
  | enqueue _ fresh met ran ih =>
    obtain ⟨t, prioritised⟩ := ih
    exact prioritised.enqueue fresh met ran
  | dequeue _ member ran ih =>
    obtain ⟨t, prioritised⟩ := ih
    exact prioritised.dequeue member ran
  | @pickNext m queue _ ih =>
    obtain ⟨t, prioritised⟩ := ih
    obtain ⟨stride, -, picked⟩ := heapPickNext_frame (fun m p => m.priority p) m
    rw [priorPickNext, picked]
    exact ⟨t, prioritised.congr (prioritised.kept.congr rfl rfl rfl) fun _ _ => rfl⟩
  | other _ same kept ih =>
    obtain ⟨t, prioritised⟩ := ih
    exact ⟨t, prioritised.congr (prioritised.kept.congr same.heapLinks same.pool same.procNum) kept⟩

/-- In a run in which every process is queued with a priority within `BIG_STRIDE` of those in
the queue, the best one is picked in every state, and every further call returns. -/
theorem prior_picks_best (run : PriorRun Near m queue) :
    PicksBest m queue ∧ ∀ fuel, queue.length + 1 < fuel →
      (∀ p ∉ queue, (priorEnqueue fuel m p).isSome) ∧ ∀ p ∈ queue, (priorDequeue fuel m p).isSome := by
  obtain ⟨t, prioritised⟩ := run.prioritised
  exact ⟨prioritised.picksBest, fun fuel => prioritised.returns⟩

/-- Two processes that `lab6_set_priority` gave their priorities. -/
def twoPriorities (a b : BitVec 32) : Machine :=
  lab6SetPriority { lab6SetPriority { unbooted with current := 1 } a with current := 2 } b

theorem prior_picks_best_two : ∃ m, PriorRun Near m [2, 1] ∧ (priorPickNext m).2 = some 1 ∧
    PicksBest m [2, 1] := by
  have first := @PriorRun.enqueue Near _ _ _ 1 8 (.init (twoPriorities 3 5)) (by simp) (by simp [Near]) rfl
  have second := @PriorRun.enqueue Near _ _ _ 2 8 first (by simp)
    (forall_mem_singleton.mpr ⟨by decide, by decide⟩) rfl
  exact ⟨_, second, rfl, (prior_picks_best second).1⟩

/-- With the priorities 1 and `0xFFFFFFFF` in the queue the second is picked. -/
theorem prior_picks_worst : ∃ m, PriorRun (fun _ _ _ => True) m [2, 1] ∧ m.priority 1 = 1 ∧
    m.priority 2 = 0xFFFFFFFF ∧ (priorPickNext m).2 = some 2 ∧ ¬ PicksBest m [2, 1] := by
  have first := @PriorRun.enqueue (fun _ _ _ => True) _ _ _ 1 8 (.init (twoPriorities 1 0xFFFFFFFF)) (by simp)
    trivial rfl
  have second := @PriorRun.enqueue _ _ _ _ 2 8 first (by simp) trivial rfl
  refine ⟨_, second, rfl, rfl, rfl, fun best => ?_⟩
  have least := (best.2 2 rfl).2 1 (by simp)
  exact absurd least (by decide)

end LiNos.Sched
