import Mathlib.Data.List.Nodup
import Mathlib.Data.List.Perm.Basic
import Mathlib.Logic.Function.Basic

/-!
Skew heaps.

`HeapTree` is the shape of a heap whose nodes are addresses, with the two operations
as functions on trees. `HeapLinks` is the heap in memory, three pointers a node,
with the operations of skew_heap.h as they read and write pointers; `Hangs` says
that a tree hangs from a pointer. What an operation does to the pointers is what
the function of the same name does to the tree (`skewHeapMerge_spec`,
`skewHeapRemove_spec`).

The comparison function enters as the relation `before`: `comp(a, b) == -1`.
Nothing is assumed of it but in `HeapTree.merge_ordered`, where it has to agree with
an order on the pairs that are compared.
-/

namespace LiNos.SkewHeap

open Function List Option

inductive HeapTree (α : Type*) where
  | nil
  | node (left : HeapTree α) (a : α) (right : HeapTree α)
deriving DecidableEq, Repr

variable {α : Type*} [DecidableEq α] {le : α → α → Prop} {c up : Option α} {fuel fuel' : ℕ}
  {xs : List α}

/-! ## Trees -/

namespace HeapTree

def nodes : HeapTree α → List α
  | nil => []
  | node l a r => a :: (l.nodes ++ r.nodes)

def size (t : HeapTree α) : ℕ := t.nodes.length

omit [DecidableEq α] in
@[simp] theorem size_nil : (nil : HeapTree α).size = 0 := rfl

omit [DecidableEq α] in
@[simp] theorem size_node {l r : HeapTree α} {a : α} : (node l a r).size = l.size + r.size + 1 := by
  simp [size, nodes]

variable (before : α → α → Prop) [DecidableRel before] {b : α} {t : HeapTree α}

/-- The tree `skew_heap_merge` makes. -/
def merge : HeapTree α → HeapTree α → HeapTree α
  | nil, t => t
  | node l a r, nil => node l a r
  | node l a r, node l' b r' =>
    if before a b then node (merge r (node l' b r')) a l else node (merge (node l a r) r') b l'
termination_by s t => s.size + t.size
decreasing_by all_goals (simp only [size_node]; omega)

theorem nodes_merge (s t : HeapTree α) : (merge before s t).nodes.Perm (s.nodes ++ t.nodes) := by
  fun_induction merge before s t with
  | case1 t => rfl
  | case2 l a r => simp [nodes]
  | case3 l a r l' b r' above ih | case4 l a r l' b r' below ih =>
    rw [perm_iff_count] at ih ⊢
    intro x
    have count := ih x
    simp only [nodes, count_cons, count_append] at count ⊢
    omega

/-- Every node comes before those below it. -/
def Ordered (le : α → α → Prop) : HeapTree α → Prop
  | nil => True
  | node l a r => (∀ x ∈ l.nodes ++ r.nodes, le a x) ∧ l.Ordered le ∧ r.Ordered le

omit [DecidableEq α] in
theorem Ordered.root_le {l r : HeapTree α} {a x : α} (ordered : (node l a r).Ordered le)
    (refl : le a a) (member : x ∈ (node l a r).nodes) : le a x := by
  rcases mem_cons.mp member with rfl | below
  · exact refl
  · exact ordered.1 x below

omit [DecidableEq α] in
theorem Ordered.imp {le' : α → α → Prop} (ordered : t.Ordered le)
    (weaker : ∀ x ∈ t.nodes, ∀ y ∈ t.nodes, le x y → le' x y) : t.Ordered le' := by
  induction t with
  | nil => trivial
  | node l a r left right =>
    exact ⟨fun x below => weaker a (by simp [nodes]) x (mem_cons_of_mem a below) (ordered.1 x below),
      left ordered.2.1 (by grind [nodes]), right ordered.2.2 (by grind [nodes])⟩

/-- Merging keeps the order if comparisons between the two heaps agree with it. -/
theorem merge_ordered (refl : ∀ x, le x x)
    (trans : ∀ x y z, le x y → le y z → le x z) (s t : HeapTree α)
    (agree : ∀ x ∈ s.nodes, ∀ y ∈ t.nodes, (before x y → le x y) ∧ (¬ before x y → le y x))
    (left : s.Ordered le) (right : t.Ordered le) : (merge before s t).Ordered le := by
  fun_induction merge before s t with
  | case1 t => exact right
  | case2 l a r => exact left
  | case3 l a r l' b r' above ih =>
    have smaller := (agree a (by simp [nodes]) b (by simp [nodes])).1 above
    refine ⟨fun x member => ?_, ih (by grind [nodes]) left.2.2 right, left.2.1⟩
    rw [mem_append, (nodes_merge before r (node l' b r')).mem_iff, mem_append] at member
    rcases member with (inRight | inOther) | inLeft
    · exact left.1 x (mem_append_right _ inRight)
    · exact trans a b x smaller (right.root_le (refl b) inOther)
    · exact left.1 x (mem_append_left _ inLeft)
  | case4 l a r l' b r' below ih =>
    have smaller := (agree a (by simp [nodes]) b (by simp [nodes])).2 below
    refine ⟨fun x member => ?_, ih (by grind [nodes]) left right.2.2, right.2.1⟩
    rw [mem_append, (nodes_merge before (node l a r) r').mem_iff, mem_append] at member
    rcases member with (inOther | inRight) | inLeft
    · exact trans b a x smaller (left.root_le (refl a) inOther)
    · exact right.1 x (mem_append_right _ inRight)
    · exact right.1 x (mem_append_left _ inLeft)

omit [DecidableEq α] in
/-- Only comparisons between the two heaps count. -/
theorem merge_congr {before' : α → α → Prop} [DecidableRel before'] (s t : HeapTree α)
    (agree : ∀ x ∈ s.nodes, ∀ y ∈ t.nodes, before x y ↔ before' x y) : merge before s t = merge before' s t := by
  fun_induction merge before s t with
  | case1 t => rw [merge]
  | case2 l a r => rw [merge]
  | case3 l a r l' b r' above ih =>
    have first := (agree a (by simp [nodes]) b (by simp [nodes])).mp above
    rw [merge, if_pos first, ih fun x inside => agree x (by simp [nodes, inside])]
  | case4 l a r l' b r' below ih =>
    have second := mt (agree a (by simp [nodes]) b (by simp [nodes])).mpr below
    rw [merge, if_neg second, ih fun x inside y inside' => agree x inside y (by simp [nodes, inside'])]

/-- The roots when the root is taken out `n` times. -/
def firstOut : ℕ → HeapTree α → List α
  | 0, _ => []
  | _ + 1, nil => []
  | n + 1, node l a r => a :: firstOut n (merge before l r)

theorem firstOut_congr {before' : α → α → Prop} [DecidableRel before'] (n : ℕ) (t : HeapTree α)
    (agree : ∀ x ∈ t.nodes, ∀ y ∈ t.nodes, before x y ↔ before' x y) : t.firstOut before n = t.firstOut before' n := by
  induction n generalizing t with
  | zero => rfl
  | succ n ih =>
    cases t with
    | nil => rfl
    | node l a r =>
      have below : ∀ x ∈ l.nodes ++ r.nodes, x ∈ (node l a r).nodes := fun x inside => mem_cons_of_mem a inside
      have inside := fun x => (nodes_merge before' l r).subset (a := x)
      have same := merge_congr before l r fun x left y right =>
        agree x (below x (mem_append_left _ left)) y (below y (mem_append_right _ right))
      rw [firstOut, firstOut, same, ih]
      exact fun x first y second => agree x (below x (inside x first)) y (below y (inside y second))

/-- The tree `skew_heap_remove` makes. -/
def remove (b : α) : HeapTree α → HeapTree α
  | nil => nil
  | node l a r => if a = b then merge before l r else node (l.remove b) a (r.remove b)

theorem remove_of_notMem (absent : b ∉ t.nodes) : t.remove before b = t := by
  induction t with
  | nil => rfl
  | node l a r ihl ihr =>
    simp only [nodes, mem_cons, mem_append, not_or] at absent
    rw [remove, if_neg (Ne.symm absent.1), ihl absent.2.1, ihr absent.2.2]

theorem nodes_remove (distinct : t.nodes.Nodup) :
    (t.remove before b).nodes.Perm (t.nodes.erase b) := by
  induction t with
  | nil => rfl
  | node l a r ihl ihr =>
    simp only [nodes, nodup_cons, nodup_append] at distinct
    obtain ⟨fresh, left, right, apart⟩ := distinct
    by_cases same : a = b
    · subst same
      rw [remove, if_pos rfl, nodes, erase_cons_head]
      exact nodes_merge before l r
    · rw [remove, if_neg same, nodes, nodes, erase_cons_tail (by simpa using same)]
      refine List.Perm.cons a ?_
      by_cases inLeft : b ∈ l.nodes
      · have notRight : b ∉ r.nodes := fun member => apart b inLeft b member rfl
        rw [remove_of_notMem before notRight, erase_append_left _ inLeft]
        exact (ihl left).append_right _
      · rw [remove_of_notMem before inLeft, erase_append_right _ inLeft]
        exact (ihr right).append_left _

theorem size_remove (distinct : t.nodes.Nodup) (member : b ∈ t.nodes) :
    (t.remove before b).size + 1 = t.size := by
  rw [size, (nodes_remove before distinct).length_eq, length_erase_of_mem member]
  exact Nat.sub_add_cancel (length_pos_of_mem member)

/-- Removing keeps the order if comparisons between the other nodes agree with it. -/
theorem remove_ordered (refl : ∀ x, le x x)
    (trans : ∀ x y z, le x y → le y z → le x z) (t : HeapTree α) (distinct : t.nodes.Nodup)
    (agree : ∀ x y, x ∈ t.nodes → y ∈ t.nodes → x ≠ b → y ≠ b →
      (before x y → le x y) ∧ (¬ before x y → le y x))
    (ordered : t.Ordered le) : (t.remove before b).Ordered le := by
  induction t with
  | nil => trivial
  | node l a r left right =>
    obtain ⟨fresh, both⟩ := nodup_cons.mp distinct
    obtain ⟨distinctLeft, distinctRight, -⟩ := nodup_append.mp both
    have inLeft : ∀ x ∈ l.nodes, x ∈ (node l a r).nodes := fun x member => by simp [nodes, member]
    have inRight : ∀ x ∈ r.nodes, x ∈ (node l a r).nodes := fun x member => by simp [nodes, member]
    rw [remove]
    split_ifs with here
    · subst here
      have other : ∀ x ∈ l.nodes ++ r.nodes, x ≠ a := fun x member same => fresh (same ▸ member)
      refine merge_ordered before refl trans l r (fun x first y second => ?_) ordered.2.1 ordered.2.2
      exact agree x y (inLeft x first) (inRight y second) (other x (mem_append_left _ first))
        (other y (mem_append_right _ second))
    · refine ⟨fun x member => ordered.1 x ?_, left distinctLeft ?_ ordered.2.1, right distinctRight ?_ ordered.2.2⟩
      · rw [mem_append, (nodes_remove before distinctLeft).mem_iff,
          (nodes_remove before distinctRight).mem_iff] at member
        exact mem_append.mpr (member.imp mem_of_mem_erase mem_of_mem_erase)
      · exact fun x y first second => agree x y (inLeft x first) (inLeft y second)
      · exact fun x y first second => agree x y (inRight x first) (inRight y second)

end HeapTree

/-! ## Pointers -/

/-- The three pointers of every `skew_heap_entry`. -/
structure HeapLinks (α : Type*) where
  parent : α → Option α
  left : α → Option α
  right : α → Option α

namespace HeapLinks

/-- `if (l) l->parent = a`. -/
def setParent (links : HeapLinks α) (child parent : Option α) : HeapLinks α :=
  match child with
  | none => links
  | some c => { links with parent := update links.parent c parent }

def setChildren (links : HeapLinks α) (a : α) (l r : Option α) : HeapLinks α :=
  { links with left := update links.left a l, right := update links.right a r }

variable {links : HeapLinks α} {p : Option α}

@[simp] theorem setParent_left :
    (links.setParent c p).left = links.left := by
  cases c <;> rfl

@[simp] theorem setParent_right :
    (links.setParent c p).right = links.right := by
  cases c <;> rfl

theorem setParent_parent_of_ne {x : α} (other : c ≠ some x) :
    (links.setParent c p).parent x = links.parent x := by
  cases c with
  | none => rfl
  | some c => exact update_of_ne (fun same => other (by rw [same])) _ _

@[simp] theorem setParent_parent_self {c : α} :
    (links.setParent (some c) p).parent c = p := by
  simp [setParent]

@[simp] theorem setChildren_parent {a : α} {l r : Option α} :
    (links.setChildren a l r).parent = links.parent := rfl

end HeapLinks

/-- `skew_heap_init`. -/
def skewHeapInit (links : HeapLinks α) (a : α) : HeapLinks α where
  parent := update links.parent a none
  left := update links.left a none
  right := update links.right a none

section Operations

variable (before : α → α → Prop) [DecidableRel before]

/-- `skew_heap_merge`; the bound is on the depth of its recursion. -/
def skewHeapMerge : ℕ → HeapLinks α → Option α → Option α → Option (HeapLinks α × Option α)
  | 0, _, _, _ => none
  | _ + 1, links, none, b => some (links, b)
  | _ + 1, links, some a, none => some (links, some a)
  | fuel + 1, links, some a, some b =>
    if before a b then do
      let r := links.left a
      let (links, l) ← skewHeapMerge fuel links (links.right a) (some b)
      let links := links.setChildren a l r
      some (links.setParent l (some a), some a)
    else do
      let r := links.left b
      let (links, l) ← skewHeapMerge fuel links (some a) (links.right b)
      let links := links.setChildren b l r
      some (links.setParent l (some b), some b)

/-- `skew_heap_insert`. -/
def skewHeapInsert (fuel : ℕ) (links : HeapLinks α) (a : Option α) (b : α) :
    Option (HeapLinks α × Option α) :=
  skewHeapMerge before fuel (skewHeapInit links b) a (some b)

/-- `skew_heap_remove`. -/
def skewHeapRemove (fuel : ℕ) (links : HeapLinks α) (a : Option α) (b : α) :
    Option (HeapLinks α × Option α) := do
  let p := links.parent b
  let (links, rep) ← skewHeapMerge before fuel links (links.left b) (links.right b)
  let links := links.setParent rep p
  match p with
  | none => some (links, rep)
  | some p =>
    if links.left p = some b then
      some ({ links with left := update links.left p rep }, a)
    else some ({ links with right := update links.right p rep }, a)

variable {before} {links : HeapLinks α} {a : Option α} {b : α}

/-- More depth changes nothing once there is enough. -/
theorem skewHeapMerge_mono {b : Option α}
    {merged : HeapLinks α × Option α} (ran : skewHeapMerge before fuel links a b = some merged)
    (more : fuel ≤ fuel') : skewHeapMerge before fuel' links a b = some merged := by
  induction fuel generalizing fuel' links a b merged with
  | zero => cases ran
  | succ fuel ih =>
    obtain ⟨fuel', rfl⟩ := Nat.exists_eq_add_of_le' (Nat.le_of_add_left_le more)
    rcases a with - | a
    · exact ran
    rcases b with - | b
    · exact ran
    unfold skewHeapMerge at ran ⊢
    split_ifs at ran ⊢
    all_goals
      obtain ⟨inner, first, rest⟩ := bind_eq_some_iff.mp ran
      rw [ih first (Nat.le_of_succ_le_succ more)]
      exact rest

theorem skewHeapInsert_mono
    {inserted : HeapLinks α × Option α} (ran : skewHeapInsert before fuel links a b = some inserted)
    (more : fuel ≤ fuel') : skewHeapInsert before fuel' links a b = some inserted :=
  skewHeapMerge_mono ran more

theorem skewHeapRemove_mono
    {removed : HeapLinks α × Option α} (ran : skewHeapRemove before fuel links a b = some removed)
    (more : fuel ≤ fuel') : skewHeapRemove before fuel' links a b = some removed := by
  unfold skewHeapRemove at ran ⊢
  obtain ⟨inner, first, rest⟩ := bind_eq_some_iff.mp ran
  rw [skewHeapMerge_mono first more]
  exact rest

end Operations

/-! ## Trees in memory -/

/-- The tree hangs from the pointer: below the root, children know their parent. -/
def Hangs (links : HeapLinks α) : Option α → HeapTree α → Prop
  | root, .nil => root = none
  | root, .node l a r => root = some a ∧ Hangs links (links.left a) l ∧ Hangs links (links.right a) r ∧
    (∀ c, links.left a = some c → links.parent c = some a) ∧
    ∀ c, links.right a = some c → links.parent c = some a

variable {before : α → α → Prop} [DecidableRel before] {links links' : HeapLinks α} {root : Option α}
  {s t l r : HeapTree α} {a b : α}

section

omit [DecidableEq α]

theorem Hangs.root_node (hangs : Hangs links root t) (is : root = some a) : ∃ l r, t = .node l a r := by
  cases t with
  | nil => rw [show root = none from hangs] at is; cases is
  | node l x r =>
    rw [hangs.1] at is
    cases is
    exact ⟨l, r, rfl⟩

theorem Hangs.root_mem (hangs : Hangs links root t) (is : root = some a) : a ∈ t.nodes := by
  obtain ⟨l, r, rfl⟩ := hangs.root_node is
  exact mem_cons_self

theorem Hangs.nil_iff (hangs : Hangs links root t) : root = none ↔ t = .nil := by
  cases t with
  | nil => exact iff_of_true hangs rfl
  | node l x r =>
    rw [hangs.1]
    simp

/-- A tree sees its own nodes only, and not the parent of its root. -/
theorem Hangs.unique (first : Hangs links root s) (second : Hangs links root t) : s = t := by
  induction s generalizing root t with
  | nil => exact (second.nil_iff.mp first).symm
  | node l a r left right =>
    obtain ⟨l', r', rfl⟩ := second.root_node first.1
    rw [left first.2.1 second.2.1, right first.2.2.1 second.2.2.1]

theorem Hangs.congr (hangs : Hangs links root t) (distinct : t.nodes.Nodup)
    (left : ∀ x ∈ t.nodes, links'.left x = links.left x)
    (right : ∀ x ∈ t.nodes, links'.right x = links.right x)
    (parent : ∀ x ∈ t.nodes, root ≠ some x → links'.parent x = links.parent x) :
    Hangs links' root t := by
  induction t generalizing root with
  | nil => exact hangs
  | node l a r ihl ihr =>
    obtain ⟨rfl, hangsLeft, hangsRight, ownLeft, ownRight⟩ := hangs
    simp only [HeapTree.nodes, nodup_cons, nodup_append, mem_append, not_or] at distinct
    obtain ⟨⟨notLeft, notRight⟩, distinctLeft, distinctRight, -⟩ := distinct
    simp only [HeapTree.nodes, forall_mem_cons, forall_mem_append] at left right parent
    have upLeft : ∀ x ∈ l.nodes, links'.parent x = links.parent x :=
      fun x member => parent.2.1 x member (by grind)
    have upRight : ∀ x ∈ r.nodes, links'.parent x = links.parent x :=
      fun x member => parent.2.2 x member (by grind)
    rw [Hangs, left.1, right.1]
    refine ⟨rfl, ihl hangsLeft distinctLeft left.2.1 right.2.1 fun x member _ => upLeft x member,
      ihr hangsRight distinctRight left.2.2 right.2.2 fun x member _ => upRight x member,
      fun c is => ?_, fun c is => ?_⟩
    · rw [upLeft c (hangsLeft.root_mem is), ownLeft c is]
    · rw [upRight c (hangsRight.root_mem is), ownRight c is]

theorem Hangs.node {left right : Option α} (leftPtr : links.left a = left) (rightPtr : links.right a = right)
    (first : Hangs links left l) (second : Hangs links right r)
    (ownLeft : ∀ c, left = some c → links.parent c = some a)
    (ownRight : ∀ c, right = some c → links.parent c = some a) : Hangs links (some a) (.node l a r) := by
  subst leftPtr rightPtr
  exact ⟨rfl, first, second, ownLeft, ownRight⟩

end

/-- Only the pointers of `xs` may differ. -/
def SameOff (xs : List α) (links links' : HeapLinks α) : Prop :=
  ∀ x, x ∉ xs → links'.left x = links.left x ∧ links'.right x = links.right x ∧
    links'.parent x = links.parent x

theorem skewHeapInit_sameOff (links : HeapLinks α) (b : α) : SameOff [b] links (skewHeapInit links b) := by
  intro x outside
  have other : x ≠ b := by simpa using outside
  exact ⟨update_of_ne other _ _, update_of_ne other _ _,
    update_of_ne other _ _⟩

omit [DecidableEq α] in
/-- A tree apart from what was written. -/
theorem Hangs.sameOff (hangs : Hangs links root t) (distinct : t.nodes.Nodup)
    (same : SameOff xs links links') (apart : ∀ x ∈ t.nodes, x ∉ xs) : Hangs links' root t :=
  hangs.congr distinct (fun x member => (same x (apart x member)).1)
    (fun x member => (same x (apart x member)).2.1)
    (fun x member _ => (same x (apart x member)).2.2)

/-- The end of a step of `skew_heap_merge`: `a` gets its two subtrees. -/
theorem Hangs.graft {left right : Option α} (first : Hangs links left l) (second : Hangs links right r)
    (distinct : (a :: (l.nodes ++ r.nodes)).Nodup)
    (own : ∀ c, right = some c → links.parent c = some a) :
    Hangs ((links.setChildren a left right).setParent left (some a)) (some a) (.node l a r) := by
  simp only [nodup_cons, nodup_append, mem_append, not_or] at distinct
  obtain ⟨⟨notLeft, notRight⟩, distinctLeft, distinctRight, apart⟩ := distinct
  have offLeft : ∀ x ∈ r.nodes, left ≠ some x :=
    fun x member is => apart x (first.root_mem is) x member rfl
  have children : ∀ t : HeapTree α, a ∉ t.nodes → ∀ x ∈ t.nodes,
      ((links.setChildren a left right).setParent left (some a)).left x = links.left x ∧
      ((links.setChildren a left right).setParent left (some a)).right x = links.right x := by
    intro t out x member
    simp [HeapLinks.setChildren, ne_of_mem_of_not_mem member out]
  have pointers : ((links.setChildren a left right).setParent left (some a)).left a = left ∧
      ((links.setChildren a left right).setParent left (some a)).right a = right := by
    simp [HeapLinks.setChildren]
  refine .node pointers.1 pointers.2 ?_ ?_ ?_ fun c is => ?_
  · exact first.congr distinctLeft (fun x member => (children l notLeft x member).1)
      (fun x member => (children l notLeft x member).2)
      fun x _ other => HeapLinks.setParent_parent_of_ne other
  · exact second.congr distinctRight (fun x member => (children r notRight x member).1)
      (fun x member => (children r notRight x member).2)
      fun x member _ => HeapLinks.setParent_parent_of_ne (offLeft x member)
  · rintro c rfl
    exact HeapLinks.setParent_parent_self
  · rw [HeapLinks.setParent_parent_of_ne (offLeft c (second.root_mem is)), HeapLinks.setChildren_parent]
    exact own c is

/-- A step of `skew_heap_merge` once its recursive call has made `m` out of the nodes
`xs`. -/
theorem merge_step {ys : List α} {m : HeapTree α} {top : Option α} {call : Option (HeapLinks α × Option α)}
    (ran : call = some (links', top)) (kept : Hangs links (links.left a) l)
    (own : ∀ c, links.left a = some c → links.parent c = some a) (merged : Hangs links' top m)
    (same : SameOff xs links links') (perm : m.nodes.Perm xs) (distinct : ys.Nodup)
    (split : (a :: (xs ++ l.nodes)).Perm ys) :
    ∃ links₂, (call.bind fun (links', top) =>
      some ((links'.setChildren a top (links.left a)).setParent top (some a), some a)) = some (links₂, some a) ∧
      Hangs links₂ (some a) (.node m a l) ∧ SameOff ys links links₂ ∧
      ∀ x, some a = some x → links₂.parent x = links.parent x := by
  have shuffled : (a :: (m.nodes ++ l.nodes)).Nodup :=
    (((perm.append_right l.nodes).cons a).trans split).nodup_iff.mpr distinct
  rw [← split.nodup_iff] at distinct
  simp only [nodup_cons, nodup_append, mem_append, not_or] at distinct
  obtain ⟨⟨notHere, -⟩, -, distinctLeft, apart⟩ := distinct
  have offLeft : ∀ x ∈ l.nodes, x ∉ xs := fun x member inside => apart x inside x member rfl
  have inside : ∀ x, top = some x → x ∈ xs := fun x is => perm.subset (merged.root_mem is)
  have parent : ∀ x, x ∉ xs →
      ((links'.setChildren a top (links.left a)).setParent top (some a)).parent x = links.parent x := by
    intro x off
    rw [HeapLinks.setParent_parent_of_ne fun is => off (inside x is), HeapLinks.setChildren_parent,
      (same x off).2.2]
  refine ⟨_, by rw [ran, bind_some], merged.graft (kept.sameOff distinctLeft same offLeft) shuffled ?_, ?_, ?_⟩
  · intro c is
    rw [(same c (offLeft c (kept.root_mem is))).2.2]
    exact own c is
  · intro x outside
    simp only [← split.mem_iff, mem_cons, mem_append, not_or] at outside
    obtain ⟨sameLeft, sameRight, -⟩ := same x outside.2.1
    refine ⟨?_, ?_, parent x outside.2.1⟩
    · simpa [HeapLinks.setChildren, outside.1] using sameLeft
    · simpa [HeapLinks.setChildren, outside.1] using sameRight
  · rintro x ⟨⟩
    exact parent a notHere

variable (before) in
/-- `skew_heap_merge` merges the trees. Nothing else is written, and the parent of
the new root is left as it was. -/
theorem skewHeapMerge_spec {root root' : Option α} (left : Hangs links root s)
    (right : Hangs links root' t) (distinct : (s.nodes ++ t.nodes).Nodup)
    (enough : s.size + t.size < fuel) :
    ∃ links' top, skewHeapMerge before fuel links root root' = some (links', top) ∧
      Hangs links' top (s.merge before t) ∧ SameOff (s.nodes ++ t.nodes) links links' ∧
      (top = root ∨ top = root') ∧ ∀ x, top = some x → links'.parent x = links.parent x := by
  induction fuel generalizing links root root' s t with
  | zero => omega
  | succ fuel ih =>
    have untouched : SameOff (s.nodes ++ t.nodes) links links := fun _ _ => ⟨rfl, rfl, rfl⟩
    cases s with
    | nil =>
      obtain rfl : root = none := left
      exact ⟨links, root', rfl, by simpa [HeapTree.merge] using right, untouched, .inr rfl,
        fun _ _ => rfl⟩
    | node l a r =>
      obtain ⟨rfl, hangsLeft, hangsRight, ownLeft, ownRight⟩ := left
      cases t with
      | nil =>
        obtain rfl : root' = none := right
        refine ⟨links, some a, rfl, ?_, untouched, .inl rfl, fun _ _ => rfl⟩
        rw [HeapTree.merge]
        exact ⟨rfl, hangsLeft, hangsRight, ownLeft, ownRight⟩
      | node l' b r' =>
        obtain ⟨rfl, hangsLeft', hangsRight', ownLeft', ownRight'⟩ := right
        by_cases above : before a b
        · obtain ⟨links₁, top, ran, merged, same, -⟩ := ih (t := .node l' b r') hangsRight
            ⟨rfl, hangsLeft', hangsRight', ownLeft', ownRight'⟩ (by grind [HeapTree.nodes])
            (by simp only [HeapTree.size_node] at enough ⊢; omega)
          obtain ⟨links₂, done, hangs, off, parent⟩ := merge_step ran hangsLeft ownLeft merged same
            (HeapTree.nodes_merge before r _) distinct (by grind [HeapTree.nodes])
          rw [skewHeapMerge, if_pos above, HeapTree.merge, if_pos above]
          exact ⟨links₂, some a, done, hangs, off, .inl rfl, parent⟩
        · obtain ⟨links₁, top, ran, merged, same, -⟩ := ih (s := .node l a r)
            ⟨rfl, hangsLeft, hangsRight, ownLeft, ownRight⟩ hangsRight' (by grind [HeapTree.nodes])
            (by simp only [HeapTree.size_node] at enough ⊢; omega)
          obtain ⟨links₂, done, hangs, off, parent⟩ := merge_step ran hangsLeft' ownLeft' merged same
            (HeapTree.nodes_merge before _ r') distinct (by grind [HeapTree.nodes])
          rw [skewHeapMerge, if_neg above, HeapTree.merge, if_neg above]
          exact ⟨links₂, some b, done, hangs, off, .inr rfl, parent⟩

variable (before) in
/-- `skew_heap_insert` of a new node. -/
theorem skewHeapInsert_spec (hangs : Hangs links root t)
    (top : ∀ x, root = some x → links.parent x = none) (distinct : t.nodes.Nodup) (fresh : b ∉ t.nodes)
    (enough : t.size + 1 < fuel) :
    ∃ links' root', skewHeapInsert before fuel links root b = some (links', root') ∧
      Hangs links' root' (t.merge before (.node .nil b .nil)) ∧
      ∀ x, root' = some x → links'.parent x = none := by
  have initial := skewHeapInit_sameOff links b
  have apart : ∀ x ∈ t.nodes, x ∉ [b] := by grind
  have single : Hangs (skewHeapInit links b) (some b) (.node .nil b .nil) := by
    simp [Hangs, skewHeapInit]
  have nodup : (t.nodes ++ (HeapTree.node .nil b .nil).nodes).Nodup := by grind [HeapTree.nodes]
  obtain ⟨links', root', ran, merged, -, old, parent⟩ := skewHeapMerge_spec before
    (hangs.sameOff distinct initial apart) single nodup (by simpa using enough)
  refine ⟨links', root', ran, merged, fun x is => ?_⟩
  rw [parent x is]
  rcases old with old | old
  · have was : root = some x := old.symm.trans is
    rw [(initial x (apart x (hangs.root_mem was))).2.2, top x was]
  · cases old.symm.trans is
    simp [skewHeapInit]

/-! ### Removal -/

/-- The end of `skew_heap_remove` when `b` has the parent `p`: `rep` takes the place of
`b`. -/
def unhook (links : HeapLinks α) (p b : α) (rep : Option α) : HeapLinks α :=
  if links.left p = some b then
    { links.setParent rep (some p) with left := update links.left p rep }
  else { links.setParent rep (some p) with right := update links.right p rep }

section Unhook

variable {rep : Option α} {p x : α}

theorem unhook_off (b : α) (rep : Option α) (links : HeapLinks α) (other : x ≠ p) :
    (unhook links p b rep).left x = links.left x ∧ (unhook links p b rep).right x = links.right x := by
  unfold unhook
  split <;> simp [other]

theorem unhook_parent (other : rep ≠ some x) : (unhook links p b rep).parent x = links.parent x := by
  unfold unhook
  split <;> exact HeapLinks.setParent_parent_of_ne other

theorem unhook_child : (unhook links p b (some x)).parent x = some p := by
  unfold unhook
  split <;> exact HeapLinks.setParent_parent_self

theorem unhook_left (rep : Option α) (is : links.left p = some b) :
    (unhook links p b rep).left p = rep ∧ (unhook links p b rep).right p = links.right p := by
  simp [unhook, is]

theorem unhook_right (rep : Option α) (isNot : links.left p ≠ some b) :
    (unhook links p b rep).left p = links.left p ∧ (unhook links p b rep).right p = rep := by
  simp [unhook, isNot]

/-- A tree that `p` is not in. -/
theorem Hangs.unhook (hangs : Hangs links root t) (distinct : t.nodes.Nodup) (apart : p ∉ t.nodes)
    (child : ∀ x ∈ t.nodes, root ≠ some x → rep ≠ some x) :
    Hangs (SkewHeap.unhook links p b rep) root t := by
  refine hangs.congr distinct ?_ ?_ ?_
  · exact fun x member => (unhook_off b rep links (ne_of_mem_of_not_mem member apart)).1
  · exact fun x member => (unhook_off b rep links (ne_of_mem_of_not_mem member apart)).2
  · exact fun x member inner => unhook_parent (child x member inner)

end Unhook

/-- Nothing changes in a tree that has neither `p` nor a node below `b`. -/
theorem Hangs.other_side {side rep : Option α} {p : α} (hangs : Hangs links side t)
    (own : ∀ c, side = some c → links.parent c = up) (distinct : t.nodes.Nodup)
    (merged : Hangs links' rep (l.merge before r)) (same : SameOff (l.nodes ++ r.nodes) links links')
    (outside : p ∉ t.nodes) (apart : ∀ x ∈ t.nodes, x ∉ l.nodes ++ r.nodes) :
    Hangs (SkewHeap.unhook links' p b rep) side t ∧
      ∀ c, side = some c → (SkewHeap.unhook links' p b rep).parent c = up := by
  have notRep : ∀ x ∈ t.nodes, rep ≠ some x := fun x member is =>
    apart x member ((HeapTree.nodes_merge before l r).subset (merged.root_mem is))
  constructor
  · exact (hangs.sameOff distinct same apart).unhook distinct outside fun x member _ => notRep x member
  · intro c is
    have member := hangs.root_mem is
    rw [unhook_parent (notRep c member), (same c (apart c member)).2.2]
    exact own c is

/-- Where `b` hangs in a tree below `up`, and what becomes of the tree when the two trees
below `b`, merged, take its place. -/
structure Spot (before : α → α → Prop) [DecidableRel before] (links : HeapLinks α) (root up : Option α)
    (t : HeapTree α) (b p : α) (l r : HeapTree α) : Prop where
  parent : links.parent b = some p
  below : Hangs links (some b) (.node l b r)
  inside : (HeapTree.node l b r).nodes ⊆ t.nodes
  distinct : (HeapTree.node l b r).nodes.Nodup
  place : if root = some b then up = some p else p ∈ t.nodes
  root_out : ∀ x, root = some x → x ∉ l.nodes ++ r.nodes
  replaced : ∀ links' rep, Hangs links' rep (l.merge before r) → SameOff (l.nodes ++ r.nodes) links links' →
    Hangs (unhook links' p b rep) (if root = some b then rep else root) (t.remove before b) ∧
      ∀ c, (if root = some b then rep else root) = some c → (unhook links' p b rep).parent c = up

/-- The tree `a` is the root of, once `b` has been found on one of its sides. -/
theorem Spot.above {side up : Option α} {p : α} {tl tr : HeapTree α}
    (spot : Spot before links side (some a) s b p l r) (sub : s.nodes ⊆ tl.nodes ++ tr.nodes)
    (off : a ∉ s.nodes) (other : a ≠ b) (own : links.parent a = up)
    (replaced : ∀ links' rep, Hangs links' rep (l.merge before r) → SameOff (l.nodes ++ r.nodes) links links' →
      Hangs (unhook links' p b rep) (some a) ((HeapTree.node tl a tr).remove before b)) :
    Spot before links (some a) up (.node tl a tr) b p l r := by
  have notRoot : some a ≠ some b := by simpa using other
  have low : ∀ x ∈ l.nodes ++ r.nodes, x ∈ s.nodes := fun x inside =>
    spot.inside (mem_cons_of_mem _ inside)
  have place := spot.place
  refine ⟨spot.parent, spot.below, fun x inside => ?_, spot.distinct, ?_, ?_, fun links' rep merged same => ?_⟩
  · exact mem_cons_of_mem _ (sub (spot.inside inside))
  · rw [if_neg notRoot]
    split_ifs at place with first
    · cases place
      exact mem_cons_self
    · exact mem_cons_of_mem _ (sub place)
  · rintro x ⟨⟩ inside
    exact off (low a inside)
  · rw [if_neg notRoot]
    refine ⟨replaced links' rep merged same, ?_⟩
    rintro c ⟨⟩
    have notRep : rep ≠ some a := fun is =>
      off (low a ((HeapTree.nodes_merge before l r).subset (merged.root_mem is)))
    rw [unhook_parent notRep, (same a fun inside => off (low a inside)).2.2, own]

theorem Hangs.spot (before : α → α → Prop) [DecidableRel before] (hangs : Hangs links root t)
    (own : ∀ c, root = some c → links.parent c = up) (out : ∀ c, up = some c → c ∉ t.nodes)
    (distinct : t.nodes.Nodup) (member : b ∈ t.nodes) (below : root = some b → up.isSome) :
    ∃ p l r, Spot before links root up t b p l r := by
  induction t generalizing root up with
  | nil => cases member
  | node tl a tr ihl ihr =>
    obtain ⟨rfl, hangsLeft, hangsRight, ownLeft, ownRight⟩ := hangs
    have whole := distinct
    simp only [HeapTree.nodes, nodup_cons, nodup_append, mem_append, not_or] at distinct
    obtain ⟨⟨notLeft, notRight⟩, distinctLeft, distinctRight, apart⟩ := distinct
    by_cases here : a = b
    · -- `b` is the root: the merged tree hangs from `p` itself
      subst here
      obtain ⟨p, rfl⟩ := isSome_iff_exists.mp (below rfl)
      have off : p ∉ (HeapTree.node tl a tr).nodes := out p rfl
      have perm := HeapTree.nodes_merge before tl tr
      refine ⟨p, tl, tr, own a rfl, ⟨rfl, hangsLeft, hangsRight, ownLeft, ownRight⟩, Subset.refl _, whole,
        by simp, by grind, fun links' rep merged same => ?_⟩
      rw [if_pos rfl, HeapTree.remove, if_pos rfl]
      refine ⟨merged.unhook (by grind [perm.nodup_iff]) ?_ fun x _ inner => inner, ?_⟩
      · exact fun inside => off (mem_cons_of_mem _ (perm.subset inside))
      · rintro c rfl
        exact unhook_child
    · by_cases left : b ∈ tl.nodes
      · obtain ⟨p, l, r, spot⟩ := ihl hangsLeft ownLeft (by grind) distinctLeft left (by simp)
        have place := spot.place
        refine ⟨p, l, r, spot.above (by simp) notLeft here (own a rfl) fun links' rep merged same => ?_⟩
        obtain ⟨newTree, newOwn⟩ := spot.replaced links' rep merged same
        obtain ⟨oldTree, oldOwn⟩ := hangsRight.other_side (p := p) ownRight distinctRight merged same
          (by grind) (by grind [spot.inside, HeapTree.nodes])
        have kept := same a (by grind [spot.inside, HeapTree.nodes])
        rw [HeapTree.remove, if_neg here, HeapTree.remove_of_notMem (t := tr) before (by grind)]
        have leftPtr : (SkewHeap.unhook links' p b rep).left a =
            if links.left a = some b then rep else links.left a := by
          grind [unhook_off, unhook_left]
        exact .node leftPtr (by grind [unhook_off, unhook_left]) newTree oldTree newOwn oldOwn
      · have right : b ∈ tr.nodes := by grind [HeapTree.nodes]
        obtain ⟨p, l, r, spot⟩ := ihr hangsRight ownRight (by grind) distinctRight right (by simp)
        have place := spot.place
        refine ⟨p, l, r, spot.above (by simp) notRight here (own a rfl) fun links' rep merged same => ?_⟩
        obtain ⟨newTree, newOwn⟩ := spot.replaced links' rep merged same
        obtain ⟨oldTree, oldOwn⟩ := hangsLeft.other_side (p := p) ownLeft distinctLeft merged same
          (by grind) (by grind [spot.inside, HeapTree.nodes])
        have kept := same a (by grind [spot.inside, HeapTree.nodes])
        have notFirst : links.left a ≠ some b := fun is => left (hangsLeft.root_mem is)
        rw [HeapTree.remove, if_neg here, HeapTree.remove_of_notMem before left]
        have leftPtr : (SkewHeap.unhook links' p b rep).left a = links.left a := by
          grind [unhook_off, unhook_right]
        exact .node leftPtr (by grind [unhook_off, unhook_right]) oldTree newTree oldOwn newOwn

variable (before) in
/-- `skew_heap_remove` of a node of the heap. -/
theorem skewHeapRemove_spec (hangs : Hangs links root t)
    (top : ∀ x, root = some x → links.parent x = none) (distinct : t.nodes.Nodup) (member : b ∈ t.nodes)
    (enough : t.size < fuel) :
    ∃ links' root', skewHeapRemove before fuel links root b = some (links', root') ∧
      Hangs links' root' (t.remove before b) ∧ ∀ x, root' = some x → links'.parent x = none := by
  by_cases isRoot : root = some b
  · cases t with
    | nil => cases member
    | node l b' r =>
      obtain ⟨is, hangsLeft, hangsRight, -⟩ := hangs
      cases is.symm.trans isRoot
      simp only [HeapTree.nodes, nodup_cons] at distinct
      have room : l.size + r.size < fuel := by
        simp only [HeapTree.size_node] at enough
        omega
      obtain ⟨links₁, rep, ran, merged, -⟩ := skewHeapMerge_spec before hangsLeft hangsRight
        distinct.2 room
      have perm := HeapTree.nodes_merge before l r
      refine ⟨links₁.setParent rep none, rep, ?_, ?_, ?_⟩
      · simp only [skewHeapRemove, top b isRoot, ran, bind_eq_bind, bind_some]
      · rw [HeapTree.remove, if_pos rfl]
        exact merged.congr (perm.nodup_iff.mpr distinct.2) (fun _ _ => by simp) (fun _ _ => by simp)
          fun x _ inner => HeapLinks.setParent_parent_of_ne inner
      · rintro x rfl
        exact HeapLinks.setParent_parent_self
  · obtain ⟨p, l, r, spot⟩ := hangs.spot before top (by simp) distinct member fun is => absurd is isRoot
    obtain ⟨-, hangsLeft, hangsRight, -⟩ := spot.below
    obtain ⟨-, apart⟩ := nodup_cons.mp spot.distinct
    have within : ∀ x ∈ l.nodes ++ r.nodes, x ∈ t.nodes := fun x low => spot.inside (mem_cons_of_mem _ low)
    have fewer : (l.nodes ++ r.nodes).length ≤ t.nodes.length :=
      (subperm_of_subset apart within).length_le
    rw [length_append] at fewer
    have room : l.size + r.size < fuel := by
      unfold HeapTree.size at *
      omega
    obtain ⟨links₁, rep, ran, merged, same, -, -⟩ := skewHeapMerge_spec before hangsLeft hangsRight apart
      room
    have done := spot.replaced links₁ rep merged same
    rw [if_neg isRoot] at done
    refine ⟨unhook links₁ p b rep, root, ?_, done⟩
    simp only [skewHeapRemove, spot.parent, ran, bind_eq_bind, bind_some,
      HeapLinks.setParent_left, HeapLinks.setParent_right, unhook]
    split <;> rfl

end LiNos.SkewHeap
