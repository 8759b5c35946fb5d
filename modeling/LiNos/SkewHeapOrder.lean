import Mathlib.Data.Int.Notation
import Mathlib.Algebra.Order.Group.Int
import LiNos.SkewHeap

/-!
The skew heap under a comparison function (skew_heap.h).

For every comparison function of a total preorder the operations keep heaps well formed and
ordered: a merge holds the nodes of both heaps, an insertion one node more, a removal one
less, wherever the node was. The root is least, so taking the root away again and again
gives the nodes in order.
-/

namespace LiNos.SkewHeap

open Function List Option

variable {α : Type*} [DecidableEq α]

/-- A comparison function of a total preorder. -/
structure Comparator (comp : α → α → ℤ) : Prop where
  values : ∀ a b, comp a b = -1 ∨ comp a b = 0 ∨ comp a b = 1
  swap : ∀ a b, comp b a = -comp a b
  trans : ∀ a b c, comp a b ≤ 0 → comp b c ≤ 0 → comp a c ≤ 0

/-- A well-formed heap: distinct nodes in heap order, below a root without a parent. -/
structure Heap (comp : α → α → ℤ) (links : HeapLinks α) (root : Option α) (t : HeapTree α) : Prop where
  hangs : Hangs links root t
  top : ∀ x, root = some x → links.parent x = none
  distinct : t.nodes.Nodup
  ordered : t.Ordered (comp · · ≤ 0)

/-- The call returns a well-formed heap of exactly these nodes. -/
def Yields (comp : α → α → ℤ) (call : Option (HeapLinks α × Option α)) (xs : List α) : Prop :=
  ∃ links root t, call = some (links, root) ∧ Heap comp links root t ∧ t.nodes.Perm xs

/-- The root is removed until the heap is empty, `n` times at most. -/
def removeRoots (before : α → α → Prop) [DecidableRel before] (fuel : ℕ) :
    ℕ → HeapLinks α → Option α → Option (List α)
  | _, _, none => some []
  | 0, _, some _ => none
  | n + 1, links, some a => do
    let (links, root) ← skewHeapRemove before fuel links (some a) a
    let rest ← removeRoots before fuel n links root
    some (a :: rest)

section Compared

variable {comp : α → α → ℤ} (comparator : Comparator comp) {links : HeapLinks α} {root root' : Option α}
  {s t : HeapTree α} {fuel n : ℕ} {x y : α}
include comparator

omit [DecidableEq α] in
theorem Comparator.refl (a : α) : comp a a ≤ 0 := by
  have same := comparator.swap a a
  omega

omit [DecidableEq α] in
theorem Comparator.agree (a b : α) : (comp a b = -1 → comp a b ≤ 0) ∧ (comp a b ≠ -1 → comp b a ≤ 0) := by
  have value := comparator.values a b
  have back := comparator.swap a b
  omega

theorem Comparator.merge_ordered (left : s.Ordered (comp · · ≤ 0)) (right : t.Ordered (comp · · ≤ 0)) :
    (s.merge (comp · · = -1) t).Ordered (comp · · ≤ 0) :=
  HeapTree.merge_ordered _ comparator.refl comparator.trans s t (fun x _ y _ => comparator.agree x y) left right

omit [DecidableEq α] in
theorem Heap.root_least (heap : Heap comp links root t) (is : root = some x) (member : y ∈ t.nodes) :
    comp x y ≤ 0 := by
  obtain ⟨l, r, rfl⟩ := heap.hangs.root_node is
  exact heap.ordered.root_le (comparator.refl x) member

theorem Heap.merge (left : Heap comp links root s) (right : Heap comp links root' t)
    (distinct : (s.nodes ++ t.nodes).Nodup) (enough : s.size + t.size < fuel) :
    Yields comp (skewHeapMerge (comp · · = -1) fuel links root root') (s.nodes ++ t.nodes) := by
  obtain ⟨links', top, ran, hangs, -, which, parent⟩ :=
    skewHeapMerge_spec (comp · · = -1) left.hangs right.hangs distinct enough
  have nodes := HeapTree.nodes_merge (comp · · = -1) s t
  refine ⟨links', top, _, ran, ⟨hangs, fun x is => ?_, nodes.nodup_iff.mpr distinct,
    comparator.merge_ordered left.ordered right.ordered⟩, nodes⟩
  rw [parent x is]
  rcases which with rfl | rfl
  · exact left.top x is
  · exact right.top x is

theorem Heap.insert (heap : Heap comp links root t) (fresh : x ∉ t.nodes) (enough : t.size + 1 < fuel) :
    Yields comp (skewHeapInsert (comp · · = -1) fuel links root x) (x :: t.nodes) := by
  obtain ⟨links', root', ran, hangs, top⟩ :=
    skewHeapInsert_spec (comp · · = -1) heap.hangs heap.top heap.distinct fresh enough
  have nodes : (t.merge (comp · · = -1) (.node .nil x .nil)).nodes.Perm (x :: t.nodes) :=
    (HeapTree.nodes_merge _ _ _).trans perm_append_comm
  refine ⟨links', root', _, ran, ⟨hangs, top, ?_, ?_⟩, nodes⟩
  · exact nodes.nodup_iff.mpr (nodup_cons.mpr ⟨fresh, heap.distinct⟩)
  · exact comparator.merge_ordered heap.ordered ⟨by simp [HeapTree.nodes], trivial, trivial⟩

theorem Heap.remove (heap : Heap comp links root t) (member : x ∈ t.nodes) (enough : t.size < fuel) :
    Yields comp (skewHeapRemove (comp · · = -1) fuel links root x) (t.nodes.erase x) := by
  obtain ⟨links', root', ran, hangs, top⟩ :=
    skewHeapRemove_spec (comp · · = -1) heap.hangs heap.top heap.distinct member enough
  have nodes := HeapTree.nodes_remove (comp · · = -1) (b := x) heap.distinct
  refine ⟨links', root', _, ran, ⟨hangs, top, nodes.nodup_iff.mpr (heap.distinct.erase x), ?_⟩, nodes⟩
  exact HeapTree.remove_ordered _ comparator.refl comparator.trans t heap.distinct
    (fun x y _ _ _ _ => comparator.agree x y) heap.ordered

/-- By induction on the number of removals: each root comes before what is left. -/
theorem Heap.removeRoots (heap : Heap comp links root t) (enough : t.size < fuel) (times : t.size ≤ n) :
    ∃ order, SkewHeap.removeRoots (comp · · = -1) fuel n links root = some order ∧ order.Perm t.nodes ∧
      order.Pairwise (comp · · ≤ 0) := by
  induction n generalizing links root t with
  | zero =>
    have none : t.nodes = [] := length_eq_zero_iff.mp (Nat.le_zero.mp times)
    cases root with
    | none => exact ⟨[], rfl, by rw [none], .nil⟩
    | some a =>
      have member := heap.hangs.root_mem rfl
      simp [none] at member
  | succ n ih =>
    cases root with
    | none =>
      rw [heap.hangs.nil_iff.mp rfl]
      exact ⟨[], rfl, .rfl, .nil⟩
    | some a =>
      have member := heap.hangs.root_mem rfl
      obtain ⟨links', root', u, ran, left, nodes⟩ := heap.remove comparator member enough
      have fewer : u.size + 1 = t.size := by
        rw [HeapTree.size, nodes.length_eq, length_erase_of_mem member]
        exact Nat.sub_add_cancel (length_pos_of_mem member)
      obtain ⟨order, drained, perm, sorted⟩ := ih left (by omega) (by omega)
      refine ⟨a :: order, ?_, ?_, pairwise_cons.mpr ⟨fun y later => ?_, sorted⟩⟩
      · simp [SkewHeap.removeRoots, ran, drained]
      · exact ((perm.trans nodes).cons a).trans (perm_cons_erase member).symm
      · exact heap.root_least comparator rfl (mem_of_mem_erase ((perm.trans nodes).subset later))

end Compared

/-- The operations of skew_heap.h on well-formed heaps, under any total preorder. -/
theorem skew_heap_operations {comp : α → α → ℤ} (comparator : Comparator comp) :
    (∀ links a b (s t : HeapTree α) fuel, Heap comp links a s → Heap comp links b t →
      (s.nodes ++ t.nodes).Nodup → s.size + t.size < fuel →
      Yields comp (skewHeapMerge (comp · · = -1) fuel links a b) (s.nodes ++ t.nodes)) ∧
    ∀ links a (t : HeapTree α) fuel, Heap comp links a t → t.size + 1 < fuel →
      (∀ x ∉ t.nodes, Yields comp (skewHeapInsert (comp · · = -1) fuel links a x) (x :: t.nodes)) ∧
      (∀ x ∈ t.nodes, Yields comp (skewHeapRemove (comp · · = -1) fuel links a x) (t.nodes.erase x)) ∧
      (∀ x, a = some x → x ∈ t.nodes ∧ ∀ y ∈ t.nodes, comp x y ≤ 0) ∧
      ∃ order, removeRoots (comp · · = -1) fuel t.size links a = some order ∧ order.Perm t.nodes ∧
        order.Pairwise (comp · · ≤ 0) := by
  refine ⟨fun links a b s t fuel left right => left.merge comparator right, fun links a t fuel heap enough =>
    ⟨fun x fresh => heap.insert comparator fresh enough, fun x member => ?_, fun x is => ?_, ?_⟩⟩
  · exact heap.remove comparator member (Nat.lt_of_succ_lt enough)
  · exact ⟨heap.hangs.root_mem is, fun y => heap.root_least comparator is⟩
  · exact heap.removeRoots comparator (Nat.lt_of_succ_lt enough) le_rfl

/-- The order of numbers. -/
def bySign (a b : ℤ) : ℤ := (a - b).sign

private theorem bySign_comparator : Comparator bySign := by
  refine ⟨fun a b => ?_, fun a b => ?_, fun a b c first second => ?_⟩
  · rcases Int.sign_trichotomy (a - b) with sign | sign | sign <;> simp [bySign, sign]
  · rw [bySign, bySign, ← Int.sign_neg, neg_sub]
  · rw [bySign, Int.sign_nonpos_iff] at *
    omega

/-- The root 1 with the children 3 and 5, and the root 4 alone. -/
def fourNodes : HeapLinks ℤ where
  left := fun x => if x = 1 then some 3 else none
  right := fun x => if x = 1 then some 5 else none
  parent := fun x => if x = 3 ∨ x = 5 then some 1 else none

/-- Below the root 1 the node 3 is removed; with the root 4 the heap is merged; and its nodes come
out in order. -/
theorem skew_heap_operations_four :
    Yields bySign (skewHeapRemove (bySign · · = -1) 5 fourNodes (some 1) 3) [1, 5] ∧
      Yields bySign (skewHeapMerge (bySign · · = -1) 5 fourNodes (some 1) (some 4)) [1, 3, 5, 4] ∧
      ∃ order, removeRoots (bySign · · = -1) 5 3 fourNodes (some 1) = some order ∧
        order.Perm [1, 3, 5] ∧ order.Pairwise (bySign · · ≤ 0) := by
  have three : Heap bySign fourNodes (some 1) (.node (.node .nil 3 .nil) 1 (.node .nil 5 .nil)) := by
    constructor <;> simp [Hangs, HeapTree.nodes, HeapTree.Ordered, fourNodes, bySign]
  have one : Heap bySign fourNodes (some 4) (.node .nil 4 .nil) := by
    constructor <;> simp [Hangs, HeapTree.nodes, HeapTree.Ordered, fourNodes]
  obtain ⟨merge, others⟩ := skew_heap_operations bySign_comparator
  obtain ⟨-, remove, -, order⟩ := others _ _ _ 5 three (by decide)
  exact ⟨remove 3 (by decide), merge _ _ _ _ _ 5 three one (by decide) (by decide), order⟩

end LiNos.SkewHeap
