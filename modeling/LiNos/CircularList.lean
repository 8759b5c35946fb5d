import Mathlib.Data.List.Nodup
import Mathlib.Logic.Function.Basic

/-!
Circular doubly linked lists threaded through memory.

A link node is an address; `Links` holds the two pointer fields of every node
at once, so that several lists (and nodes on no list at all) share one store
and a stray pointer write is visible. The operations are the five writes of an
intrusive list header: nothing here knows what structure a node sits in.

`Ring links head nodes` is the only fact clients need: walking `next` from
`head` visits exactly `nodes` and comes back, `prev` is its inverse, and no
node occurs twice. Every operation has one lemma that says which ring it
leaves, and `Ring.congr` is the frame rule for writes elsewhere.
-/

namespace LiNos.CircularList

open Function List

/-- The `prev` and `next` fields of every link node in memory. -/
structure Links (α : Type*) where
  prev : α → α
  next : α → α

section Operations

variable {α : Type*} [DecidableEq α]

/-- `list_init`: a node linked to itself. -/
def listInit (links : Links α) (elm : α) : Links α where
  prev := update links.prev elm elm
  next := update links.next elm elm

/-- `__list_add`: `prev->next = next->prev = elm`, then the two fields of
`elm` itself. The order of the writes matters when the three coincide. -/
def listAddBetween (links : Links α) (elm prev next : α) : Links α where
  prev := update (update links.prev next elm) elm prev
  next := update (update links.next prev elm) elm next

/-- `list_add_before`. -/
def listAddBefore (links : Links α) (listelm elm : α) : Links α :=
  listAddBetween links elm (links.prev listelm) listelm

/-- `list_add_after`. -/
def listAddAfter (links : Links α) (listelm elm : α) : Links α :=
  listAddBetween links elm listelm (links.next listelm)

/-- `list_add`. -/
def listAdd (links : Links α) (listelm elm : α) : Links α :=
  listAddAfter links listelm elm

/-- `list_del`: the neighbours of the node are joined; the node keeps its own
two fields. -/
def listDel (links : Links α) (listelm : α) : Links α where
  prev := update links.prev (links.next listelm) (links.prev listelm)
  next := update links.next (links.prev listelm) (links.next listelm)

/-- `list_del_init`. -/
def listDelInit (links : Links α) (listelm : α) : Links α :=
  listInit (listDel links listelm) listelm

/-- `list_empty`. -/
def listEmpty (links : Links α) (list : α) : Bool :=
  decide (links.next list = list)

end Operations

/-! ## Segments -/

section Ends

variable {α : Type*} {a x z : α} {xs : List α}

/-- The node before a cut: the last of `xs`, or the start `a` of the walk. -/
def lastOf (a : α) : List α → α
  | [] => a
  | x :: xs => lastOf x xs

/-- The node after a cut: the first of the list, or the end `z` of the walk. -/
def firstOf : List α → α → α
  | [], z => z
  | y :: _, _ => y

@[simp] theorem lastOf_nil : lastOf a [] = a := rfl
@[simp] theorem lastOf_cons : lastOf a (x :: xs) = lastOf x xs := rfl
@[simp] theorem firstOf_nil : firstOf [] z = z := rfl
@[simp] theorem firstOf_cons : firstOf (x :: xs) z = x := rfl

@[simp] theorem lastOf_concat : lastOf a (xs ++ [x]) = x := by
  induction xs generalizing a with
  | nil => rfl
  | cons y xs ih => exact ih

end Ends

section Segments

variable {α : Type*} {links links' : Links α} {a e y z : α} {xs ys : List α}

/-- From `a`, `next` visits `xs` in order and then reaches `z`; every step is
undone by `prev`. -/
def Linked (links : Links α) : α → List α → α → Prop
  | a, [], z => links.next a = z ∧ links.prev z = a
  | a, x :: xs, z => links.next a = x ∧ links.prev x = a ∧ Linked links x xs z

/-- Only the `next` fields of the nodes left and the `prev` fields of the nodes
entered are read. -/
theorem linked_congr (linked : Linked links a xs z)
    (next : ∀ x ∈ a :: xs, links'.next x = links.next x)
    (prev : ∀ x ∈ xs ++ [z], links'.prev x = links.prev x) : Linked links' a xs z := by
  induction xs generalizing a with
  | nil => exact ⟨(next a (by simp)).trans linked.1, (prev z (by simp)).trans linked.2⟩
  | cons x xs ih =>
    obtain ⟨forward, backward, rest⟩ := linked
    exact ⟨(next a (by simp)).trans forward, (prev x (by simp)).trans backward,
      ih rest (forall_mem_cons.mp next).2 (forall_mem_cons.mp prev).2⟩

theorem linked_append : Linked links a (xs ++ y :: ys) z ↔
    Linked links a xs y ∧ Linked links y ys z := by
  induction xs generalizing a with
  | nil => simp [Linked, and_assoc]
  | cons x xs ih => simp [Linked, ih, and_assoc]

/-- The two nodes on either side of a cut point at each other. -/
theorem linked_cut (xs ys : List α) (linked : Linked links a (xs ++ ys) z) :
    links.next (lastOf a xs) = firstOf ys z ∧ links.prev (firstOf ys z) = lastOf a xs := by
  induction xs generalizing a with
  | nil => cases ys with
    | nil => exact linked
    | cons y ys => exact ⟨linked.1, linked.2.1⟩
  | cons x xs ih => simpa using ih linked.2.2

theorem linked_unique (first : Linked links a xs z) (second : Linked links a ys z)
    (outside : z ∉ xs) (outside' : z ∉ ys) : xs = ys := by
  induction xs generalizing a ys with
  | nil => cases ys with
    | nil => rfl
    | cons y ys =>
      have same : y = z := second.1.symm.trans first.1
      simp [same] at outside'
  | cons x xs ih => cases ys with
    | nil =>
      have same : x = z := first.1.symm.trans second.1
      simp [same] at outside
    | cons y ys =>
      have same : x = y := first.1.symm.trans second.1
      subst same
      rw [ih first.2.2 second.2.2 (by simp_all) (by simp_all)]

theorem lastOf_mem : lastOf a xs ∈ a :: xs := by
  induction xs generalizing a with
  | nil => simp
  | cons x xs ih => exact mem_cons_of_mem a ih

theorem firstOf_mem : firstOf ys z ∈ ys ++ [z] := by
  cases ys <;> simp

variable [DecidableEq α]

/-- A fresh node behind the start of a walk. -/
theorem linked_insert_start (linked : Linked links a ys z) (distinct : (a :: ys).Nodup)
    (outside : z ∉ ys) (fresh : e ∉ a :: ys) (freshEnd : e ≠ z) :
    Linked (listAddBetween links e a (firstOf ys z)) a (e :: ys) z := by
  have apart : a ≠ e := (ne_of_not_mem_cons fresh).symm
  cases ys with
  | nil => refine ⟨?_, ?_, ?_, ?_⟩ <;> simp [listAddBetween, apart, freshEnd.symm]
  | cons y ys =>
    obtain ⟨-, -, rest⟩ := linked
    have yFresh : y ≠ e := fun same => fresh (by simp [same])
    refine ⟨by simp [listAddBetween, apart], by simp [listAddBetween], by simp [listAddBetween],
      by simp [listAddBetween, yFresh], linked_congr rest (fun w member => ?_) fun w member => ?_⟩
    · have other : w ≠ e ∧ w ≠ a := by grind
      simp [listAddBetween, other]
    · have other : w ≠ e ∧ w ≠ y := by grind
      simp [listAddBetween, other]

/-- Writing a fresh node between the two sides of a cut splices it in there.
The far end `z` may be the start `a` itself, as it is in a ring. -/
theorem linked_insert (linked : Linked links a (xs ++ ys) z)
    (distinct : (a :: (xs ++ ys)).Nodup) (outside : z ∉ xs ++ ys)
    (fresh : e ∉ a :: (xs ++ ys)) (freshEnd : e ≠ z) :
    Linked (listAddBetween links e (lastOf a xs) (firstOf ys z)) a (xs ++ e :: ys) z := by
  rcases eq_nil_or_concat xs with rfl | ⟨xs, p, rfl⟩
  · exact linked_insert_start linked distinct outside fresh freshEnd
  · simp only [append_assoc, singleton_append, concat_eq_append, lastOf_concat] at *
    obtain ⟨before, after⟩ := linked_append.mp linked
    have first : firstOf ys z ∈ ys ++ [z] := firstOf_mem
    refine linked_append.mpr ⟨linked_congr before (fun w member => ?_) fun w member => ?_, ?_⟩
    · have other : w ≠ e ∧ w ≠ p := by grind
      simp [listAddBetween, other]
    · have other : w ≠ e ∧ w ≠ firstOf ys z := by grind
      simp [listAddBetween, other]
    · exact linked_insert_start after (by grind) (by grind) (by grind) freshEnd

/-- The node behind the start of a walk is taken out. -/
theorem linked_del_start (linked : Linked links a (e :: ys) z) (distinct : (a :: e :: ys).Nodup)
    (outside : z ∉ e :: ys) : Linked (listDel links e) a ys z := by
  obtain ⟨-, back, rest⟩ := linked
  cases ys with
  | nil => exact ⟨by simp [listDel, back, rest.1], by simp [listDel, back, rest.1]⟩
  | cons y ys =>
    obtain ⟨next, -, rest⟩ := rest
    refine ⟨by simp [listDel, back, next], by simp [listDel, back, next],
      linked_congr rest (fun w member => ?_) fun w member => ?_⟩
    · have other : w ≠ a := by grind
      simp [listDel, back, other]
    · have other : w ≠ y := by grind
      simp [listDel, next, other]

/-- Joining the neighbours of a node takes exactly that node out. -/
theorem linked_del (linked : Linked links a (xs ++ e :: ys) z)
    (distinct : (a :: (xs ++ e :: ys)).Nodup) (outside : z ∉ xs ++ e :: ys) :
    Linked (listDel links e) a (xs ++ ys) z := by
  rcases eq_nil_or_concat xs with rfl | ⟨xs, p, rfl⟩
  · exact linked_del_start linked distinct outside
  · simp only [append_assoc, singleton_append, concat_eq_append] at *
    obtain ⟨before, after⟩ := linked_append.mp linked
    have next : links.next e = firstOf ys z := (linked_cut [] ys after.2.2).1
    have first : firstOf ys z ∈ ys ++ [z] := firstOf_mem
    refine linked_append.mpr ⟨linked_congr before (fun w member => ?_) fun w member => ?_, ?_⟩
    · have other : w ≠ p := by grind
      simp [listDel, after.2.1, other]
    · have other : w ≠ firstOf ys z := by grind
      simp [listDel, next, other]
    · exact linked_del_start after (by grind) (by grind)

end Segments

/-! ## Rings -/

section Rings

variable {α : Type*} {links links' : Links α} {head e x w : α} {xs ys nodes : List α}

/-- The list hanging off `head` is well formed and holds exactly `nodes`, in
this order and each once. -/
structure Ring (links : Links α) (head : α) (nodes : List α) : Prop where
  linked : Linked links head nodes head
  distinct : (head :: nodes).Nodup

/-- Writes that leave the fields of the ring's own nodes alone leave the ring. -/
theorem Ring.congr (ring : Ring links head nodes)
    (next : ∀ x ∈ head :: nodes, links'.next x = links.next x)
    (prev : ∀ x ∈ head :: nodes, links'.prev x = links.prev x) : Ring links' head nodes :=
  ⟨linked_congr ring.linked next (fun x member => prev x (by simp_all [or_comm])), ring.distinct⟩

theorem Ring.head_notMem (ring : Ring links head nodes) : head ∉ nodes :=
  (nodup_cons.mp ring.distinct).1

theorem Ring.nodup (ring : Ring links head nodes) : nodes.Nodup :=
  (nodup_cons.mp ring.distinct).2

/-- A header has one list hanging off it. -/
theorem Ring.unique (first : Ring links head xs) (second : Ring links head ys) : xs = ys :=
  linked_unique first.linked second.linked first.head_notMem second.head_notMem

/-- `list_next` of the header is the first node, or the header again. -/
theorem Ring.next_head (ring : Ring links head nodes) : links.next head = firstOf nodes head :=
  (linked_cut [] nodes ring.linked).1

/-- `list_prev` of the header is the last node, or the header again. -/
theorem Ring.prev_head (ring : Ring links head nodes) : links.prev head = lastOf head nodes := by
  have whole : Linked links head (nodes ++ []) head := by simpa using ring.linked
  exact (linked_cut nodes [] whole).2

/-- `list_next` of a node is the one after it, or the header. -/
theorem Ring.next_node (ring : Ring links head (xs ++ x :: ys)) :
    links.next x = firstOf ys head :=
  (linked_cut [] ys (linked_append.mp ring.linked).2).1

/-- `list_prev` of a node is the one before it, or the header. -/
theorem Ring.prev_node (ring : Ring links head (xs ++ x :: ys)) :
    links.prev x = lastOf head xs := by
  simpa using (linked_cut xs (x :: ys) ring.linked).2

/-- A ring can be read from any of its nodes. -/
theorem Ring.rotate (ring : Ring links head (xs ++ x :: ys)) : Ring links x (ys ++ head :: xs) := by
  obtain ⟨before, after⟩ := linked_append.mp ring.linked
  have moved : ((x :: ys) ++ (head :: xs)).Perm ((head :: xs) ++ (x :: ys)) := perm_append_comm
  exact ⟨linked_append.mpr ⟨after, before⟩, moved.nodup_iff.mpr ring.distinct⟩

/-- The ring is closed under `prev`. -/
theorem Ring.prev_mem (ring : Ring links head nodes) (member : x ∈ head :: nodes) :
    links.prev x ∈ head :: nodes := by
  rcases mem_cons.mp member with rfl | inside
  · rw [ring.prev_head]
    exact lastOf_mem
  · obtain ⟨xs, ys, rfl⟩ := append_of_mem inside
    rw [ring.prev_node]
    have last : lastOf head xs ∈ head :: xs := lastOf_mem
    grind

/-- On a ring `next` and `prev` are inverse to each other. -/
theorem Ring.inverse (ring : Ring links head nodes) (member : x ∈ head :: nodes) :
    links.next (links.prev x) = x ∧ links.prev (links.next x) = x := by
  rcases mem_cons.mp member with rfl | member
  · have cutEnd := linked_cut nodes [] (by rw [append_nil]; exact ring.linked)
    have cutStart := linked_cut [] nodes ring.linked
    exact ⟨cutEnd.2 ▸ cutEnd.1, cutStart.1 ▸ cutStart.2⟩
  · obtain ⟨left, right, rfl⟩ := append_of_mem member
    have cutBefore := linked_cut left (x :: right) ring.linked
    have cutAfter := linked_cut [] right (linked_append.mp ring.linked).2
    exact ⟨cutBefore.2 ▸ cutBefore.1, cutAfter.1 ▸ cutAfter.2⟩

/-- A node of the ring is not `list_empty`. -/
theorem Ring.not_empty (ring : Ring links head nodes) (member : x ∈ nodes) : links.next x ≠ x := by
  obtain ⟨before, after, rfl⟩ := append_of_mem member
  have distinct := ring.distinct
  have followed : firstOf after head ∈ after ++ [head] := firstOf_mem
  rw [ring.next_node]
  grind

variable [DecidableEq α]

theorem ring_init (links : Links α) (head : α) : Ring (listInit links head) head [] :=
  ⟨⟨by simp [listInit], by simp [listInit]⟩, by simp⟩

/-- The general insertion: a fresh node written across a cut of the ring. -/
theorem ring_insert (xs ys : List α) (ring : Ring links head (xs ++ ys)) (fresh : e ∉ head :: (xs ++ ys)) :
    Ring (listAddBetween links e (lastOf head xs) (firstOf ys head)) head (xs ++ e :: ys) := by
  have distinct := ring.distinct
  exact ⟨linked_insert ring.linked distinct ring.head_notMem fresh (ne_of_not_mem_cons fresh), by grind⟩

/-- `list_add_after` at a node of the ring or at its header. -/
theorem ring_listAddAfter (ring : Ring links head (xs ++ ys)) (fresh : e ∉ head :: (xs ++ ys)) :
    Ring (listAddAfter links (lastOf head xs) e) head (xs ++ e :: ys) := by
  have inserted := ring_insert xs ys ring fresh
  have after : links.next (lastOf head xs) = firstOf ys head := (linked_cut xs ys ring.linked).1
  rwa [← after] at inserted

theorem ring_listAdd (ring : Ring links head nodes) (fresh : e ∉ head :: nodes) :
    Ring (listAdd links head e) head (e :: nodes) := by
  have whole : Ring links head ([] ++ nodes) := ring
  exact ring_listAddAfter whole fresh

theorem ring_listAddBefore_head (ring : Ring links head nodes) (fresh : e ∉ head :: nodes) :
    Ring (listAddBefore links head e) head (nodes ++ [e]) := by
  have cut : Ring links head (nodes ++ []) := by simpa using ring
  have inserted := ring_insert nodes [] cut (by simpa using fresh)
  rwa [firstOf_nil, ← ring.prev_head] at inserted

/-- `list_add_before` at a cursor that is a node of the ring or, at the end of
a walk, its header. -/
theorem ring_listAddBefore (ring : Ring links head (xs ++ ys)) (fresh : e ∉ head :: (xs ++ ys)) :
    Ring (listAddBefore links (firstOf ys head) e) head (xs ++ e :: ys) := by
  have inserted := ring_insert xs ys ring fresh
  have before : links.prev (firstOf ys head) = lastOf head xs := (linked_cut xs ys ring.linked).2
  rwa [← before] at inserted

theorem ring_listDel (ring : Ring links head (xs ++ e :: ys)) :
    Ring (listDel links e) head (xs ++ ys) := by
  have distinct := ring.distinct
  exact ⟨linked_del ring.linked distinct ring.head_notMem, by grind⟩

theorem ring_listDelInit (ring : Ring links head (xs ++ e :: ys)) :
    Ring (listDelInit links e) head (xs ++ ys) := by
  have distinct := ring.distinct
  have other : ∀ x ∈ head :: (xs ++ ys), x ≠ e := by grind
  apply (ring_listDel ring).congr <;>
    exact fun x member => by simp [listDelInit, listInit, other x member]

/-! ### Frames

A write to one ring reaches only the nodes of that ring and the node moved. -/

theorem listAddBetween_frame {p n : α} (notElm : w ≠ e) (notPrev : w ≠ p) (notNext : w ≠ n) :
    (listAddBetween links e p n).next w = links.next w ∧
      (listAddBetween links e p n).prev w = links.prev w := by
  simp [listAddBetween, notElm, notPrev, notNext]

theorem ring_listAdd_frame (ring : Ring links head nodes) (outside : w ∉ head :: nodes)
    (notElm : w ≠ e) :
    (listAdd links head e).next w = links.next w ∧ (listAdd links head e).prev w = links.prev w := by
  have member : firstOf nodes head ∈ nodes ++ [head] := firstOf_mem
  have next := ring.next_head
  exact listAddBetween_frame notElm (by grind) (by grind)

theorem ring_listAddBefore_frame (ring : Ring links head nodes) (outside : w ∉ head :: nodes)
    (notElm : w ≠ e) :
    (listAddBefore links head e).next w = links.next w ∧
      (listAddBefore links head e).prev w = links.prev w := by
  have member := ring.prev_mem mem_cons_self
  exact listAddBetween_frame notElm (by grind) (by grind)

theorem ring_listDel_frame (ring : Ring links head (xs ++ e :: ys))
    (outside : w ∉ head :: (xs ++ e :: ys)) :
    (listDel links e).next w = links.next w ∧ (listDel links e).prev w = links.prev w := by
  have before := ring.prev_node
  have after := ring.next_node
  have last : lastOf head xs ∈ head :: xs := lastOf_mem
  have first : firstOf ys head ∈ ys ++ [head] := firstOf_mem
  have other : w ≠ links.prev e ∧ w ≠ links.next e := by grind
  simp [listDel, other]

theorem ring_listDelInit_frame (ring : Ring links head (xs ++ e :: ys))
    (outside : w ∉ head :: (xs ++ e :: ys)) :
    (listDelInit links e).next w = links.next w ∧ (listDelInit links e).prev w = links.prev w := by
  have other : w ≠ e := fun same => outside (by simp [same])
  simpa [listDelInit, listInit, other] using ring_listDel_frame ring outside

end Rings

end LiNos.CircularList
