import Mathlib.Tactic.Common
import LiNos.SchedRuns

/-!
Changing the scheduling class.

`HeapQueue` is the counterpart of `ListQueue` for the classes that keep the run
queue in the skew heap. `Built` are the run queues a class makes with its own
`enqueue` and `dequeue`, and `drain` empties one with `pick_next` and `dequeue`.
A class finds all of them exactly if it looks into the container they are in.
-/

namespace LiNos.Sched

open CircularList SkewHeap List Option

variable {c : SchedClass} {m m' : Machine} {queue : List ℕ} {p fuel : ℕ}

/-! ## The heap -/

/-- `lab6_run_pool` is the heap `t` and `proc_num` counts its nodes. -/
structure HeapQueue (m : Machine) (t : HeapTree ℕ) : Prop where
  hangs : Hangs m.heapLinks m.lab6RunPool t
  top : ∀ p, m.lab6RunPool = some p → m.heapLinks.parent p = none
  distinct : t.nodes.Nodup
  count : m.procNum = t.size

namespace HeapQueue

variable {t l r : HeapTree ℕ} {comp : Machine → ℕ → ℕ → ℤ}

theorem congr (kept : HeapQueue m t) (links : m'.heapLinks = m.heapLinks)
    (pool : m'.lab6RunPool = m.lab6RunPool) (count : m'.procNum = m.procNum) : HeapQueue m' t := by
  constructor
  · rw [links, pool]
    exact kept.hangs
  · rw [links, pool]
    exact kept.top
  · exact kept.distinct
  · rw [count]
    exact kept.count

/-- What `enqueue` does to the heap: with enough depth it succeeds, and whenever it
does this is the result. -/
theorem enqueue (comp : Machine → ℕ → ℕ → ℤ) (kept : HeapQueue m t) (fresh : p ∉ t.nodes) :
    ∃ links pool, (∀ fuel, t.size + 1 < fuel → heapEnqueue comp fuel m p =
        some (enroll (m.setHeap links pool) p)) ∧
      (∀ fuel m', heapEnqueue comp fuel m p = some m' →
        m' = enroll (m.setHeap links pool) p) ∧
      HeapQueue (enroll (m.setHeap links pool) p)
        (t.merge (comp m · · = -1) (.node .nil p .nil)) := by
  have nodes := HeapTree.nodes_merge (comp m · · = -1) t (.node .nil p .nil)
  obtain ⟨links, pool, inserted, hangs, top⟩ := skewHeapInsert_spec (comp m · · = -1) kept.hangs
    kept.top kept.distinct fresh (Nat.lt_succ_self (t.size + 1))
  refine ⟨links, pool, ?_, ?_, hangs, top, ?_, ?_⟩
  · intro fuel enough
    simp [heapEnqueue, skewHeapInsert_mono inserted enough]
  · intro fuel m' ran
    obtain ⟨⟨links', pool'⟩, inserted', shape⟩ := bind_eq_some_iff.mp ran
    have first := skewHeapInsert_mono inserted (Nat.le_max_left _ fuel)
    rw [skewHeapInsert_mono inserted' (Nat.le_max_right _ fuel)] at first
    cases first
    exact (some.inj shape).symm
  · rw [nodes.nodup_iff]
    simpa [HeapTree.nodes, nodup_append] using ⟨kept.distinct, fun q member same => fresh (same ▸ member)⟩
  · have counted : (t.merge (comp m · · = -1) (.node .nil p .nil)).size = t.size + 1 := by
      simpa [HeapTree.size, HeapTree.nodes] using nodes.length_eq
    simp [enroll, Machine.setHeap, kept.count, counted]

theorem dequeue (comp : Machine → ℕ → ℕ → ℤ) (kept : HeapQueue m t) (member : p ∈ t.nodes) :
    ∃ links pool, (∀ fuel, t.size < fuel → heapDequeue comp fuel m p =
        some (discharge (m.setHeap links pool))) ∧
      (∀ fuel m', heapDequeue comp fuel m p = some m' →
        m' = discharge (m.setHeap links pool)) ∧
      HeapQueue (discharge (m.setHeap links pool))
        (t.remove (comp m · · = -1) p) := by
  have nodes := HeapTree.nodes_remove (comp m · · = -1) (b := p) kept.distinct
  obtain ⟨links, pool, removed, hangs, top⟩ := skewHeapRemove_spec (comp m · · = -1) kept.hangs
    kept.top kept.distinct member (Nat.lt_succ_self t.size)
  refine ⟨links, pool, ?_, ?_, hangs, top, ?_, ?_⟩
  · intro fuel enough
    simp [heapDequeue, skewHeapRemove_mono removed enough]
  · intro fuel m' ran
    obtain ⟨⟨links', pool'⟩, removed', shape⟩ := bind_eq_some_iff.mp ran
    have first := skewHeapRemove_mono removed (Nat.le_max_left _ fuel)
    rw [skewHeapRemove_mono removed' (Nat.le_max_right _ fuel)] at first
    cases first
    exact (some.inj shape).symm
  · rw [nodes.nodup_iff]
    exact kept.distinct.erase p
  · have counted := HeapTree.size_remove (comp m · · = -1) kept.distinct member
    simp only [discharge, Machine.setHeap, kept.count, ← counted]
    push_cast
    omega

/-- A structure that is not in the heap may be written over. -/
theorem alloc (kept : HeapQueue m t) (fresh : p ∉ t.nodes) : HeapQueue (allocProc m p) t := by
  have initial := skewHeapInit_sameOff m.heapLinks p
  have apart : ∀ q ∈ t.nodes, q ∉ [p] := by
    intro q member same
    rw [mem_singleton.mp same] at member
    exact fresh member
  refine ⟨kept.hangs.sameOff kept.distinct initial apart, ?_, kept.distinct, kept.count⟩
  intro q root
  exact (initial q (apart q (kept.hangs.root_mem root))).2.2.trans (kept.top q root)

end HeapQueue

/-- The comparison function of a class that keeps a heap. -/
def SchedClass.comp : SchedClass → Machine → ℕ → ℕ → ℤ
  | .prior => procPriorCompF
  | _ => procStrideCompF

theorem SchedClass.enqueue_heap (heap : c.usesList = false) : c.enqueue fuel = heapEnqueue c.comp fuel := by
  cases c <;> first | rfl | cases heap

theorem SchedClass.dequeue_heap (heap : c.usesList = false) : c.dequeue fuel = heapDequeue c.comp fuel := by
  cases c <;> first | rfl | cases heap

/-- A pick is the root of the heap, and writes its stride only. -/
theorem heapPickNext_frame (new : Machine → ℕ → BitVec 32) (m : Machine) :
    ∃ stride, (∀ q, m.lab6RunPool ≠ some q → stride q = m.stride q) ∧
      heapPickNext new m = (m.setStride stride, m.lab6RunPool) := by
  obtain pool | ⟨p, pool⟩ := eq_none_or_eq_some m.lab6RunPool
  · have picked : heapPickNext new m = (m, none) := by simp [heapPickNext, pool]
    exact ⟨m.stride, fun _ _ => rfl, picked.trans (Prod.ext rfl pool.symm)⟩
  · have picked : heapPickNext new m = (m.setStride (Function.update m.stride p (new m p)), some p) := by
      rw [heapPickNext, pool]
    refine ⟨Function.update m.stride p (new m p), fun q other => ?_, picked.trans (Prod.ext rfl pool.symm)⟩
    exact Function.update_of_ne (fun same => other (pool.trans (congrArg some same.symm))) _ _

/-- The traversal fills one entry for each node, or runs past the array. -/
theorem inorder_eq {t : HeapTree ℕ} {a : Option ℕ} {q : List StrideEntry} {depth : ℕ}
    (hangs : Hangs m.heapLinks a t) (room : q.length ≤ queueEntries) (deep : queueEntries ≤ depth + q.length) :
    inorder m depth a q =
      if q.length + t.size ≤ queueEntries then some (q ++ t.nodes.map m.entry) else none := by
  induction t generalizing a q depth with
  | nil =>
    obtain rfl : a = none := hangs
    simp [inorder, room, HeapTree.nodes]
  | node l b r left right =>
    obtain ⟨rfl, hangsLeft, hangsRight, -⟩ := hangs
    rw [HeapTree.size_node]
    cases depth with
    | zero =>
      rw [if_neg (by omega)]
      rfl
    | succ depth =>
      rw [inorder]
      by_cases free : q.length < queueEntries
      · have one : (q ++ [m.entry b]).length = q.length + 1 := by simp
        rw [if_pos free, left hangsLeft (by omega) (by omega), one]
        by_cases fits : q.length + 1 + l.size ≤ queueEntries
        · have filled : (q ++ [m.entry b] ++ l.nodes.map m.entry).length = q.length + 1 + l.size := by
            rw [length_append, one, length_map, HeapTree.size]
          rw [if_pos fits, bind_eq_bind, bind_some, right hangsRight (by omega) (by omega), filled]
          simp [HeapTree.nodes, Nat.add_assoc, Nat.add_comm 1]
        · rw [if_neg fits, if_neg (by omega)]
          rfl
      · rw [if_neg free, if_neg (by omega)]

/-- The lines that `do_stride_queue` prints, unless it runs past the array. -/
theorem doStrideQueue_eq {t : HeapTree ℕ} (hangs : Hangs m.heapLinks m.lab6RunPool t) (pid : ℤ) :
    doStrideQueue m pid = if t.size ≤ queueEntries then
      some (((sort t.size (t.nodes.map m.entry)).filter (pid ≠ ·.pid)).map fun e => (e.pid, e.stride)) else none := by
  have filled : inorder m queueEntries m.lab6RunPool [] = _ := inorder_eq hangs (Nat.zero_le _) (Nat.le_refl _)
  rw [length_nil, Nat.zero_add, nil_append] at filled
  rw [doStrideQueue, skewHeapTrav, filled]
  split
  · rw [bind_eq_bind, bind_some, length_map, HeapTree.size]
  · rfl

/-- The copy that `stride_pick_next` makes of the pool stays inside its array. A root with
pid 1 or 2 is picked without a copy. -/
def CopyFits (m : Machine) (t : HeapTree ℕ) : Prop :=
  ∀ p, m.lab6RunPool = some p → m.pid p ≠ 2 ∧ m.pid p ≠ 1 → t.size ≤ queueEntries

theorem stridePickNext_iff {t : HeapTree ℕ} (hangs : Hangs m.heapLinks m.lab6RunPool t)
    (picked : Machine × Option ℕ) : stridePickNext m = some picked ↔
      CopyFits m t ∧ picked = heapPickNext (fun m p => m.stride p + pass (m.priority p)) m := by
  unfold stridePickNext CopyFits
  cases pool : m.lab6RunPool with
  | none => simp [@eq_comm _ picked]
  | some p =>
    simp only [some.injEq, forall_eq']
    by_cases copies : m.pid p ≠ 2 ∧ m.pid p ≠ 1
    · rw [if_pos copies, forall_prop_of_true copies]
      rw [doStrideQueue_eq hangs]
      by_cases fits : t.size ≤ queueEntries <;> simp [fits, @eq_comm _ picked]
    · rw [if_neg copies, and_iff_right (fun copied => absurd copied copies)]
      exact some_inj.trans eq_comm

theorem SchedClass.pickNext_heap {t : HeapTree ℕ} (heap : c.usesList = false)
    (hangs : Hangs m.heapLinks m.lab6RunPool t) :
    ∃ stride, (∀ q, m.lab6RunPool ≠ some q → stride q = m.stride q) ∧
      ∀ picked, c.pickNext m = some picked ↔
        (c = .stride → CopyFits m t) ∧ picked = (m.setStride stride, m.lab6RunPool) := by
  cases c with
  | fcfs | rr => cases heap
  | stride =>
    obtain ⟨stride, others, shape⟩ := heapPickNext_frame (fun m p => m.stride p + pass (m.priority p)) m
    refine ⟨stride, others, fun picked => ?_⟩
    rw [pickNext, stridePickNext_iff hangs, shape]
    simp
  | prior =>
    obtain ⟨stride, others, shape⟩ := heapPickNext_frame (fun m p => m.priority p) m
    refine ⟨stride, others, fun picked => ?_⟩
    rw [pickNext, priorPickNext, shape]
    simp [@eq_comm _ picked]

theorem SchedClass.pickNext_empty (heap : c.usesList = false) (pool : m.lab6RunPool = none) :
    c.pickNext m = some (m, none) := by
  cases c with
  | fcfs | rr => cases heap
  | stride | prior => simp [pickNext, stridePickNext, priorPickNext, heapPickNext, pool]

/-! ## Run queues made by one class -/

/-- Writes that do not touch the run queue. -/
structure SameQueue (m m' : Machine) : Prop where
  runLinks : m'.runLinks = m.runLinks
  heapLinks : m'.heapLinks = m.heapLinks
  pool : m'.lab6RunPool = m.lab6RunPool
  procNum : m'.procNum = m.procNum
  rq : m'.rq = m.rq

/-- The run queues that come from an empty one by calls of `enqueue` for processes
that are not in it and of `dequeue` for those that are. In between new structures
are made and everything else may change, strides and priorities included. -/
inductive Built (c : SchedClass) : Machine → List ℕ → Prop
  | empty {m : Machine} (ring : Ring m.runLinks .runList []) (pool : m.lab6RunPool = none)
      (count : m.procNum = 0) : Built c m []
  | enqueue {m m' : Machine} {queue : List ℕ} {p fuel : ℕ} (built : Built c m queue) (fresh : p ∉ queue)
      (ran : c.enqueue fuel m p = some m') : Built c m' (queue ++ [p])
  | dequeue {m m' : Machine} {queue : List ℕ} {p fuel : ℕ} (built : Built c m queue) (member : p ∈ queue)
      (ran : c.dequeue fuel m p = some m') : Built c m' (queue.erase p)
  | alloc {m : Machine} {queue : List ℕ} {p : ℕ} (built : Built c m queue) (fresh : p ∉ queue) :
      Built c (allocProc m p) queue
  | other {m m' : Machine} {queue : List ℕ} (built : Built c m queue) (same : SameQueue m m') :
      Built c m' queue

theorem Built.list (list : c.usesList) (built : Built c m queue) :
    ListQueue m [] queue ∧ m.lab6RunPool = none := by
  induction built with
  | empty ring pool count => exact ⟨⟨ring, count, by simp, by simp⟩, pool⟩
  | @enqueue m m' queue p fuel _ fresh ran ih =>
    obtain ⟨kept, pool⟩ := ih
    rw [SchedClass.enqueue_list list] at ran
    have empty : m.runLinks.next (.runLink p) = .runLink p := by
      by_contra linked
      simp [listEnqueue, listEmpty, linked] at ran
    obtain ⟨m₁, ran', kept', rfl⟩ := kept.enqueue fresh empty
    rw [ran] at ran'
    cases ran'
    exact ⟨kept', pool⟩
  | @dequeue m m' queue p fuel _ member ran ih =>
    obtain ⟨kept, pool⟩ := ih
    rw [SchedClass.dequeue_list list] at ran
    obtain ⟨xs, ys, -, split, rest⟩ := exists_erase_eq member
    rw [split] at kept
    obtain ⟨m₁, ran', kept', rfl⟩ := kept.dequeue
    rw [ran] at ran'
    cases ran'
    rw [rest]
    exact ⟨kept', pool⟩
  | alloc _ fresh ih => exact ⟨(ih.1.alloc fresh).mono (by simp), ih.2⟩
  | other _ same ih =>
    exact ⟨ih.1.congr same.runLinks same.procNum same.rq, same.pool.trans ih.2⟩

theorem Built.heap (heap : c.usesList = false) (built : Built c m queue) :
    ∃ t, HeapQueue m t ∧ t.nodes.Perm queue ∧ Ring m.runLinks .runList [] := by
  induction built with
  | empty ring pool count =>
    exact ⟨.nil, ⟨pool, by simp [pool], by simp [HeapTree.nodes], count⟩, .rfl, ring⟩
  | @enqueue m m' queue p fuel _ fresh ran ih =>
    obtain ⟨t, kept, nodes, ring⟩ := ih
    rw [SchedClass.enqueue_heap heap] at ran
    obtain ⟨links, pool, -, only, kept'⟩ := kept.enqueue c.comp (mt nodes.mem_iff.mp fresh)
    rw [only fuel m' ran]
    refine ⟨_, kept', ?_, ring⟩
    exact (HeapTree.nodes_merge _ _ _).trans (nodes.append_right [p])
  | @dequeue m m' queue p fuel _ member ran ih =>
    obtain ⟨t, kept, nodes, ring⟩ := ih
    rw [SchedClass.dequeue_heap heap] at ran
    obtain ⟨links, pool, -, only, kept'⟩ := kept.dequeue c.comp (nodes.mem_iff.mpr member)
    rw [only fuel m' ran]
    exact ⟨_, kept', (HeapTree.nodes_remove _ kept.distinct).trans (nodes.erase p), ring⟩
  | @alloc m queue p _ fresh ih =>
    obtain ⟨t, kept, nodes, ring⟩ := ih
    refine ⟨t, kept.alloc (mt nodes.mem_iff.mp fresh), nodes, ?_⟩
    apply ring.congr <;> simp [allocProc, listInit]
  | other _ same ih =>
    obtain ⟨t, kept, nodes, ring⟩ := ih
    refine ⟨t, kept.congr same.heapLinks same.pool same.procNum, nodes, ?_⟩
    rw [same.runLinks]
    exact ring

/-! ## Emptying the queue -/

/-- `pick_next` and `dequeue` until there is nothing to pick. -/
def drain (fuel : ℕ) : ℕ → Machine → Option (List ℕ × Machine)
  | 0, _ => none
  | n + 1, m => do
    let (m, next) ← schedClassPickNext m
    match next with
    | none => some ([], m)
    | some next =>
      let m ← schedClassDequeue fuel m next
      let (rest, m) ← drain fuel n m
      some (next :: rest, m)

/-- The class in use gives out exactly the processes of `queue`, each once, and
`proc_num` ends at 0. -/
def Drains (m : Machine) (queue : List ℕ) : Prop :=
  ∃ fuel n order m', drain fuel n m = some (order, m') ∧ order.Perm queue ∧ m'.procNum = 0

theorem ListQueue.drain_eq {procs : List ℕ} (list : m.schedClass.usesList)
    (kept : ListQueue m procs queue) (fuel : ℕ) :
    ∃ m', drain fuel (queue.length + 1) m = some (queue, m') ∧ m'.procNum = 0 := by
  have picked : schedClassPickNext m = some (m, queue.head?) := by
    rw [schedClassPickNext, SchedClass.pickNext_list list, kept.pickNext]
  induction queue generalizing m with
  | nil => exact ⟨m, by simp [drain, picked], kept.count⟩
  | cons next rest ih =>
    obtain ⟨m₁, ran, left, shape⟩ := ListQueue.dequeue (nil_append (next :: rest) ▸ kept)
    have same : m₁.schedClass = m.schedClass := by rw [shape, discharge]
    have list' : m₁.schedClass.usesList := by rwa [same]
    have taken : schedClassDequeue fuel m next = some m₁ := by
      rw [schedClassDequeue, SchedClass.dequeue_list list]
      exact ran
    obtain ⟨m', drained, zero⟩ := ih list' left (by
      rw [schedClassPickNext, SchedClass.pickNext_list list', left.pickNext]
      rfl)
    refine ⟨m', ?_, zero⟩
    rw [length_cons, drain, picked]
    simp only [head?_cons, taken, drained, bind_eq_bind, bind_some]

/-- Who is taken out of the pool while it is too large for the array has pid 1 or 2. -/
def Spared (m : Machine) (t : HeapTree ℕ) : Prop :=
  ∀ p ∈ t.firstOut (procStrideCompF m · · = -1) (t.size - queueEntries), m.pid p = 2 ∨ m.pid p = 1

/-- The root is spared, and so are those below, whatever becomes of the root's stride. -/
theorem spared_node {l r : HeapTree ℕ} (distinct : (HeapTree.node l p r).nodes.Nodup)
    (root : m.lab6RunPool = some p) (strides : ∀ q, q ≠ p → m'.stride q = m.stride q) (pids : m'.pid = m.pid) :
    Spared m (.node l p r) ↔
      CopyFits m (.node l p r) ∧ Spared m' (l.merge (procStrideCompF m' · · = -1) r) := by
  have size : (l.merge (procStrideCompF m' · · = -1) r).size = l.size + r.size := by
    simpa [HeapTree.size] using (HeapTree.nodes_merge (procStrideCompF m' · · = -1) l r).length_eq
  have fits : CopyFits m (.node l p r) ↔
      (queueEntries < l.size + r.size + 1 → m.pid p = 2 ∨ m.pid p = 1) := by
    simp only [CopyFits, root, some.injEq, forall_eq', HeapTree.size_node]
    grind
  have others : ∀ x ∈ l.nodes ++ r.nodes, x ≠ p := by
    intro x below same
    exact (nodup_cons.mp distinct).1 (same ▸ below)
  have agree : ∀ x ∈ l.nodes ++ r.nodes, ∀ y ∈ l.nodes ++ r.nodes,
      procStrideCompF m x y = -1 ↔ procStrideCompF m' x y = -1 := by
    intro x first y second
    rw [procStrideCompF, procStrideCompF, strides x (others x first), strides y (others y second)]
  rw [fits, Spared, Spared, size, pids, HeapTree.size_node]
  by_cases large : queueEntries < l.size + r.size + 1
  · have count : l.size + r.size + 1 - queueEntries = l.size + r.size - queueEntries + 1 := by omega
    have merged := HeapTree.merge_congr (procStrideCompF m · · = -1) l r fun x left y right =>
      agree x (mem_append_left _ left) y (mem_append_right _ right)
    have inside := fun x => (HeapTree.nodes_merge (procStrideCompF m' · · = -1) l r).subset (a := x)
    rw [count, HeapTree.firstOut, forall_mem_cons, merged,
      HeapTree.firstOut_congr _ _ _ fun x first y second => agree x (inside x first) y (inside y second)]
    simp [large]
  · simp [large, HeapTree.firstOut, show l.size + r.size - queueEntries = 0 by omega,
      show l.size + r.size + 1 - queueEntries = 0 by omega]

/-- One pick and the `dequeue` after it. The pick fails exactly if the copy does not fit. -/
theorem HeapQueue.pick {l r : HeapTree ℕ} (heap : m.schedClass.usesList = false)
    (kept : HeapQueue m (.node l p r)) : ∃ m₁ m₂ rest,
      (∀ picked, schedClassPickNext m = some picked ↔
        (m.schedClass = .stride → CopyFits m (.node l p r)) ∧ picked = (m₁, some p)) ∧
      (∀ fuel, l.size + r.size + 1 < fuel → schedClassDequeue fuel m₁ p = some m₂) ∧
      (∀ fuel m', schedClassDequeue fuel m₁ p = some m' → m' = m₂) ∧
      m₂.schedClass = m.schedClass ∧ HeapQueue m₂ rest ∧ rest.nodes.Perm (l.nodes ++ r.nodes) ∧
      (m.schedClass = .stride → (Spared m (.node l p r) ↔ CopyFits m (.node l p r) ∧ Spared m₂ rest)) := by
  have root : m.lab6RunPool = some p := kept.hangs.1
  obtain ⟨stride, others, picks⟩ := SchedClass.pickNext_heap heap kept.hangs
  rw [root] at picks others
  have kept₁ : HeapQueue (m.setStride stride) (.node l p r) := kept.congr rfl rfl rfl
  obtain ⟨links, pool, succeeds, only, left⟩ :=
    kept₁.dequeue m.schedClass.comp (kept.hangs.root_mem root)
  rw [HeapTree.remove, if_pos rfl] at left
  have takes : ∀ fuel, schedClassDequeue fuel (m.setStride stride) p =
      heapDequeue m.schedClass.comp fuel (m.setStride stride) p := by
    intro fuel
    exact congrFun (congrFun (SchedClass.dequeue_heap heap) _) p
  refine ⟨m.setStride stride, discharge ((m.setStride stride).setHeap links pool), _, picks, ?_, ?_,
    rfl, left, HeapTree.nodes_merge _ l r, ?_⟩
  · intro fuel enough
    rw [takes]
    exact succeeds fuel (by rwa [HeapTree.size_node])
  · intro fuel m' taken
    rw [takes] at taken
    exact only fuel m' taken
  · intro active
    rw [show m.schedClass.comp = procStrideCompF by rw [active]; rfl]
    exact spared_node kept.distinct root (fun q other => others q fun same => other (some.inj same).symm) rfl

theorem HeapQueue.drain_eq {t : HeapTree ℕ} (heap : m.schedClass.usesList = false) (kept : HeapQueue m t)
    (spared : m.schedClass = .stride → Spared m t) (enough : t.size < fuel) : ∃ order m',
      drain fuel (t.size + 1) m = some (order, m') ∧ order.Perm t.nodes ∧ m'.procNum = 0 := by
  obtain ⟨n, size⟩ : ∃ n, n = t.size := ⟨_, rfl⟩
  rw [← size]
  induction n generalizing m t with
  | zero =>
    cases t with
    | nil =>
      have picked := SchedClass.pickNext_empty heap kept.hangs
      exact ⟨[], m, by simp [drain, schedClassPickNext, picked], .rfl, kept.count⟩
    | node l p r => simp at size
  | succ n ih =>
    cases t with
    | nil => cases size
    | node l p r =>
      rw [HeapTree.size_node] at size enough
      obtain ⟨m₁, m₂, rest, picks, takes, -, active, left, nodes, spare⟩ := kept.pick heap
      have picked := (picks _).mpr ⟨fun stride => ((spare stride).mp (spared stride)).1, rfl⟩
      have smaller : rest.size = l.size + r.size := by simpa [HeapTree.size] using nodes.length_eq
      obtain ⟨order, m', drained, same, zero⟩ := ih (active ▸ heap) left
        (fun stride => ((spare (active ▸ stride)).mp (spared (active ▸ stride))).2) (by omega) (by omega)
      refine ⟨p :: order, m', ?_, (same.trans nodes).cons p, zero⟩
      rw [drain, picked]
      simp only [takes fuel enough, drained, bind_eq_bind, bind_some]

/-- A pool that was emptied was spared. -/
theorem HeapQueue.spared_of_drain {t : HeapTree ℕ} {n : ℕ} {order : List ℕ} (active : m.schedClass = .stride)
    (kept : HeapQueue m t) (drained : drain fuel n m = some (order, m')) : Spared m t := by
  induction n generalizing m t order with
  | zero => cases drained
  | succ n ih =>
    cases t with
    | nil => simp [Spared, HeapTree.size, HeapTree.nodes, HeapTree.firstOut]
    | node l p r =>
      obtain ⟨m₁, m₂, rest, picks, -, only, same, left, -, spare⟩ := kept.pick (by rw [active]; rfl)
      obtain ⟨picked, next, drained⟩ := bind_eq_some_iff.mp drained
      obtain ⟨fits, rfl⟩ := (picks picked).mp next
      obtain ⟨m₃, taken, drained⟩ := bind_eq_some_iff.mp drained
      obtain rfl := only fuel m₃ taken
      obtain ⟨⟨order', m''⟩, drained, shape⟩ := bind_eq_some_iff.mp drained
      cases shape
      exact (spare active).mpr ⟨fits active, ih (same.trans active) left drained⟩

theorem drain_of_none (fuel n : ℕ) (picked : schedClassPickNext m = some (m, none)) :
    drain fuel (n + 1) m = some ([], m) := by
  simp [drain, picked]

/-- A class that sees nothing gives out nothing. -/
theorem drains_of_none (picked : schedClassPickNext m = some (m, none)) (count : m.procNum = queue.length) :
    Drains m queue ↔ queue = [] := by
  constructor
  · rintro ⟨fuel, n, order, m', drained, same, -⟩
    cases n with
    | zero => cases drained
    | succ n =>
      rw [drain_of_none fuel n picked] at drained
      cases drained
      exact same.nil_eq.symm
  · rintro rfl
    exact ⟨0, 1, [], m, drain_of_none 0 0 picked, .rfl, count⟩

/-- The pool is such that `stride_pick_next` can empty it: each process it takes out while
more are queued than `skew_heap_trav` has room for has pid 1 or 2. -/
def Copies (m : Machine) : Prop := ∀ t, Hangs m.heapLinks m.lab6RunPool t → Spared m t

/-- After `do_change_sched` the new class gives out what was queued exactly if nothing
was queued, or it keeps the queue where the old one did and, if it is the stride
scheduler, its copies of the pool stay inside their array. -/
theorem switch_loses_none_iff {a b : SchedClass} (built : Built a m queue) :
    Drains (doChangeSched m b.mode) queue ↔
      queue = [] ∨ a.usesList = b.usesList ∧ (b = .stride → Copies m) := by
  rw [doChangeSched_mode]
  cases listed : a.usesList with
  | true =>
    obtain ⟨kept, pool⟩ := built.list listed
    have kept' : ListQueue { m with schedClass := b } [] queue := kept.congr rfl rfl rfl
    cases listed' : b.usesList with
    | true =>
      obtain ⟨m', drained, zero⟩ := kept'.drain_eq listed' 0
      refine iff_of_true ⟨_, _, _, _, drained, .rfl, zero⟩ (.inr ⟨rfl, ?_⟩)
      rintro rfl
      cases listed'
    | false =>
      have picked : schedClassPickNext { m with schedClass := b } = some ({ m with schedClass := b }, none) := by
        exact SchedClass.pickNext_empty listed' pool
      simp [drains_of_none picked kept'.count]
  | false =>
    obtain ⟨t, kept, nodes, ring⟩ := built.heap listed
    have kept' : HeapQueue { m with schedClass := b } t := kept.congr rfl rfl rfl
    cases listed' : b.usesList with
    | true =>
      have picked : schedClassPickNext { m with schedClass := b } = some ({ m with schedClass := b }, none) := by
        rw [schedClassPickNext, SchedClass.pickNext_list listed']
        simp [listPickNext, ring.next_head]
      have count : ({ m with schedClass := b } : Machine).procNum = queue.length := by
        rw [← nodes.length_eq]
        exact kept.count
      simp [drains_of_none picked count]
    | false =>
      constructor
      · rintro ⟨fuel, n, order, m', drained, -⟩
        refine .inr ⟨rfl, ?_⟩
        rintro rfl t' hangs
        rw [hangs.unique kept.hangs]
        have spared := kept'.spared_of_drain rfl drained
        exact spared
      · intro found
        have spared : b = .stride → Spared { m with schedClass := b } t := by
          rcases found with rfl | ⟨-, copies⟩
          · have empty : t.size = 0 := nodes.length_eq
            simp [Spared, empty, HeapTree.firstOut]
          · exact fun stride => copies stride t kept.hangs
        obtain ⟨order, m', drained, same, zero⟩ := kept'.drain_eq listed' spared (Nat.lt_succ_self t.size)
        exact ⟨_, _, _, _, drained, same.trans nodes, zero⟩

/-- The machine after boot with process 1 put into the queue. -/
def oneQueued (c : SchedClass) : Machine :=
  (c.enqueue 8 (boot c unbooted 0).machine 1).getD unbooted

private theorem oneQueued_built (c : SchedClass) : Built c (oneQueued c) [1] := by
  have empty : Built c (boot c unbooted 0).machine [] := by
    cases c <;> exact .empty ⟨⟨rfl, rfl⟩, by simp⟩ rfl rfl
  have ran : c.enqueue 8 (boot c unbooted 0).machine 1 = some (oneQueued c) := by
    cases c <;> rfl
  exact empty.enqueue (by simp) ran

/-- From the stride scheduler to the priority scheduler. -/
theorem switch_loses_none_iff_heaps :
    Built .stride (oneQueued .stride) [1] ∧ Drains (doChangeSched (oneQueued .stride) 4) [1] :=
  ⟨oneQueued_built .stride,
    (switch_loses_none_iff (b := .prior) (oneQueued_built .stride)).mpr (.inr ⟨rfl, fun stride => by cases stride⟩)⟩

/-- A process queued by the RR scheduler, which is the one at boot, is invisible to
the stride scheduler: its `pick_next` returns `NULL` with `proc_num` at 1. -/
theorem switch_loses_queued :
    Built .rr (oneQueued .rr) [1] ∧
      schedClassPickNext (doChangeSched (oneQueued .rr) 1) = some (doChangeSched (oneQueued .rr) 1, none) ∧
      (doChangeSched (oneQueued .rr) 1).procNum = 1 ∧
      ¬ Drains (doChangeSched (oneQueued .rr) 1) [1] := by
  refine ⟨oneQueued_built .rr, rfl, rfl, ?_⟩
  intro drains
  have picked : schedClassPickNext (doChangeSched (oneQueued .rr) 1) =
      some (doChangeSched (oneQueued .rr) 1, none) := rfl
  have empty := (drains_of_none picked (by rfl)).mp drains
  simp at empty

end LiNos.Sched
