import Mathlib.Logic.Function.Basic
import Mathlib.Data.List.Basic
import Mathlib.Data.Set.Insert

/-!
Chains linked both ways and ended by null pointers.

The nodes of a chain know the node after them (`older`) and the node before them
(`younger`); whoever owns the chain knows its first node. A chain is followed
from any of its nodes on, so `Chain` carries the node before the part it
describes.

A `Forest` hangs such a chain off each of several owners: the chain of an owner
holds exactly the members that name it as their parent. Putting a node in front
of a chain and taking one out of the middle of a chain keep a forest, and writes
elsewhere do not matter to it.
-/

namespace LiNos.SiblingChain

open Function List Option

variable {α : Type*} {older younger older' younger' : α → Option α} {before first : Option α}
  {k x : α} {ks xs ys : List α}

/-- From `first` on the nodes are `ks`, and the node before them is `before`. -/
def Chain (older younger : α → Option α) : Option α → Option α → List α → Prop
  | _, first, [] => first = none
  | before, first, k :: ks =>
    first = some k ∧ younger k = before ∧ Chain older younger (some k) (older k) ks

/-- Writes to other nodes leave a chain. -/
theorem Chain.congr (chain : Chain older younger before first ks)
    (sameOlder : ∀ k ∈ ks, older' k = older k) (sameYounger : ∀ k ∈ ks, younger' k = younger k) :
    Chain older' younger' before first ks := by
  induction ks generalizing before first with
  | nil => exact chain
  | cons k ks ih =>
    obtain ⟨here, back, rest⟩ := chain
    refine ⟨here, (sameYounger k (by simp)).trans back, ?_⟩
    rw [sameOlder k (by simp)]
    exact ih rest (fun x member => sameOlder x (by simp [member]))
      (fun x member => sameYounger x (by simp [member]))

theorem Chain.head_mem (chain : Chain older younger before first ks) (head : first = some k) :
    k ∈ ks := by
  cases ks with
  | nil => rw [show first = none from chain] at head; cases head
  | cons f ks =>
    rw [chain.1] at head
    cases head
    exact mem_cons_self

/-- The neighbours of a node are those of the list. -/
theorem Chain.at (chain : Chain older younger before first (xs ++ k :: ys)) :
    younger k = (xs.getLast?).or before ∧ older k = ys.head? ∧
      first = (xs ++ [k]).head? := by
  induction xs generalizing before first with
  | nil =>
    obtain ⟨here, back, rest⟩ := chain
    refine ⟨by simpa using back, ?_, by simpa using here⟩
    cases ys with
    | nil => exact rest
    | cons y ys => exact rest.1
  | cons x xs ih =>
    obtain ⟨here, back, rest⟩ := chain
    obtain ⟨younger, older, -⟩ := ih rest
    refine ⟨?_, older, here⟩
    rw [younger, getLast?_cons]
    cases xs.getLast? <;> rfl

/-- Along a chain the two pointers undo each other. -/
theorem Chain.inverse {a b : α} (chain : Chain older younger none first ks) (left : a ∈ ks)
    (right : b ∈ ks) : older a = some b ↔ younger b = some a := by
  constructor
  · intro after
    obtain ⟨xs, ys, rfl⟩ := append_of_mem left
    rw [chain.at.2.1] at after
    obtain ⟨zs, rfl⟩ := head?_eq_some_iff.mp after
    have split : xs ++ a :: b :: zs = (xs ++ [a]) ++ b :: zs := by simp
    rw [split] at chain
    rw [chain.at.1]
    simp
  · intro ahead
    obtain ⟨xs, ys, rfl⟩ := append_of_mem right
    rw [chain.at.1, or_none] at ahead
    obtain ⟨zs, rfl⟩ := getLast?_eq_some_iff.mp ahead
    have split : zs ++ [a] ++ b :: ys = zs ++ a :: b :: ys := by simp
    rw [split] at chain
    rw [chain.at.2.1]
    simp

variable [DecidableEq α]

/-- The younger pointers once `k` stands in front of a chain: its own is
cleared, and that of the old first node, if there is one, leads to `k`. -/
def youngerPush (younger : α → Option α) (first : Option α) (k : α) : α → Option α :=
  match first with
  | none => update younger k none
  | some f => update (update younger k none) f (some k)

theorem youngerPush_frame (notNew : x ≠ k) (notFirst : first ≠ some x) :
    youngerPush younger first k x = younger x := by
  cases first with
  | none => simp [youngerPush, notNew]
  | some f =>
    have other : x ≠ f := fun same => notFirst (by rw [same])
    simp [youngerPush, notNew, other]

/-- A fresh node in front of a chain. The chain's old first node may have pointed
back anywhere. -/
theorem Chain.push (chain : Chain older younger before first ks) (distinct : (k :: ks).Nodup) :
    Chain (update older k first) (youngerPush younger first k) none (some k) (k :: ks) := by
  obtain ⟨fresh, rest⟩ := nodup_cons.mp distinct
  refine ⟨rfl, ?_, ?_⟩
  · cases ks with
    | nil =>
      rw [show first = none from chain]
      simp [youngerPush]
    | cons f ks =>
      have notNew : k ≠ f := fun same => fresh (by simp [same])
      rw [chain.1]
      simp [youngerPush, notNew]
  · rw [update_self]
    cases ks with
    | nil => exact chain
    | cons f ks =>
      obtain ⟨here, -, tail⟩ := chain
      have notNew : f ≠ k := fun same => fresh (by simp [same])
      have ahead := (nodup_cons.mp rest).1
      refine ⟨here, by simp [here, youngerPush], ?_⟩
      rw [update_of_ne notNew]
      refine tail.congr ?_ ?_
      · intro x member
        exact update_of_ne (fun same => fresh (by simp [← same, member])) _ _
      · intro x member
        refine youngerPush_frame (fun same => fresh (by simp [← same, member])) ?_
        rw [here]
        rintro same
        cases same
        exact ahead member

/-- The older pointers once `k` is out of its chain: the node before it, if
there is one, leads to the node after it. -/
def olderRemove (older younger : α → Option α) (k : α) : α → Option α :=
  match younger k with
  | none => older
  | some y => update older y (older k)

/-- The younger pointers once `k` is out of its chain: the node after it, if
there is one, leads to the node before it. -/
def youngerRemove (older younger : α → Option α) (k : α) : α → Option α :=
  match older k with
  | none => younger
  | some o => update younger o (younger k)

theorem olderRemove_frame (notBefore : younger k ≠ some x) :
    olderRemove older younger k x = older x := by
  unfold olderRemove
  cases back : younger k with
  | none => rfl
  | some y =>
    refine update_of_ne ?_ _ _
    rintro rfl
    exact notBefore back

theorem youngerRemove_frame (notAfter : older k ≠ some x) :
    youngerRemove older younger k x = younger x := by
  unfold youngerRemove
  cases next : older k with
  | none => rfl
  | some o =>
    refine update_of_ne ?_ _ _
    rintro rfl
    exact notAfter next

/-- Joining the two neighbours takes exactly the node out of its chain. Only the
first node of a chain is known to its owner. -/
theorem Chain.remove (chain : Chain older younger before first (xs ++ k :: ys))
    (distinct : (xs ++ k :: ys).Nodup) (outside : ∀ b ∈ xs ++ k :: ys, before ≠ some b) :
    Chain (olderRemove older younger k) (youngerRemove older younger k) before
      (if xs = [] then older k else first) (xs ++ ys) := by
  induction xs generalizing before first with
  | nil =>
    obtain ⟨-, back, rest⟩ := chain
    cases ys with
    | nil => exact rest
    | cons o ys =>
      obtain ⟨next, -, tail⟩ := rest
      obtain ⟨-, distinct⟩ := nodup_cons.mp distinct
      have notFirst := (nodup_cons.mp distinct).1
      have kept : ∀ x ∈ o :: ys, olderRemove older younger k x = older x := by
        intro x member
        refine olderRemove_frame ?_
        rw [back]
        exact outside x (mem_cons_of_mem _ member)
      refine ⟨next, by simp [youngerRemove, next, back], ?_⟩
      rw [kept o (by simp)]
      refine tail.congr (fun x member => kept x (mem_cons_of_mem _ member)) ?_
      intro x member
      refine youngerRemove_frame ?_
      rw [next]
      rintro same
      cases same
      exact notFirst member
  | cons x xs ih =>
    have neighbours := chain.at
    obtain ⟨here, back, rest⟩ := chain
    obtain ⟨fresh, distinct⟩ := nodup_cons.mp distinct
    have inner := ih rest distinct (fun b member same => fresh (by cases same; exact member))
    have notNext : older k ≠ some x := by
      rw [neighbours.2.1]
      intro same
      exact fresh (mem_append_right _ (mem_cons_of_mem _ (mem_of_head? same)))
    refine ⟨by simpa using here, (youngerRemove_frame notNext).trans back, ?_⟩
    cases xs with
    | nil =>
      have behind : younger k = some x := by simpa using neighbours.1
      simpa [olderRemove, behind] using inner
    | cons z zs =>
      have apart : younger k ≠ some x := by
        rw [rest.at.1, getLast?_eq_some_getLast (cons_ne_nil z zs)]
        intro same
        have last := getLast_mem (cons_ne_nil z zs)
        rw [some_or, some.injEq] at same
        exact fresh (same ▸ mem_append_left _ last)
      rw [olderRemove_frame apart]
      exact inner

/-! ## Forests -/

/-- The first kid of every owner once `k` is out of the chain of `p`: a node with
nobody before it was the first. -/
def firstRemove (older younger first : α → Option α) (p k : α) : α → Option α :=
  match younger k with
  | none => update first p (older k)
  | some _ => first

/-- The chain of every owner holds exactly the members with that parent. -/
def Forest (older younger first parent : α → Option α) (owners members : Set α) : Prop :=
  ∀ p ∈ owners, ∃ ks, Chain older younger none (first p) ks ∧ ks.Nodup ∧
    ∀ c, c ∈ ks ↔ c ∈ members ∧ parent c = some p

section Forests

variable {first first' parent parent' : α → Option α} {owners owners' members : Set α} {p : α}

omit [DecidableEq α] in
theorem Forest.mono (forest : Forest older younger first parent owners members)
    (fewer : owners' ⊆ owners) : Forest older younger first parent owners' members :=
  fun p owner => forest p (fewer owner)

omit [DecidableEq α] in
/-- Only the links of members and the first kids of owners are read. -/
theorem Forest.congr (forest : Forest older younger first parent owners members)
    (sameOlder : ∀ c ∈ members, older' c = older c)
    (sameYounger : ∀ c ∈ members, younger' c = younger c)
    (sameFirst : ∀ p ∈ owners, first' p = first p)
    (sameParent : ∀ c ∈ members, parent' c = parent c) :
    Forest older' younger' first' parent' owners members := by
  intro p owner
  obtain ⟨ks, chain, distinct, exact⟩ := forest p owner
  refine ⟨ks, ?_, distinct, ?_⟩
  · rw [sameFirst p owner]
    exact chain.congr (fun c member => sameOlder c ((exact c).mp member).1)
      (fun c member => sameYounger c ((exact c).mp member).1)
  · intro c
    rw [exact c]
    exact and_congr_right fun member => by rw [sameParent c member]

section

variable (forest : Forest older younger first parent owners members)

include forest

omit [DecidableEq α] in
/-- A node nobody names as parent may become an owner with an empty chain. -/
theorem Forest.own
    (none : first p = none) (nobody : ∀ c ∈ members, parent c ≠ some p) :
    Forest older younger first parent (insert p owners) members := by
  intro q owner
  rcases owner with rfl | owner
  · refine ⟨[], none, nodup_nil, ?_⟩
    intro c
    simpa using nobody c
  · exact forest q owner

/-- A node on none of the chains goes in front of the chain of `p`. -/
theorem Forest.adopt
    (owner : p ∈ owners) (outside : k ∈ members → ∀ q ∈ owners, parent k ≠ some q) :
    Forest (update older k (first p)) (youngerPush younger (first p) k)
      (update first p (some k)) (update parent k (some p)) owners
      (insert k members) := by
  have absent : ∀ q ∈ owners, ∀ ks : List α,
      (∀ c, c ∈ ks ↔ c ∈ members ∧ parent c = some q) → k ∉ ks := by
    intro q known ks exact member
    obtain ⟨inside, named⟩ := (exact k).mp member
    exact outside inside q known named
  intro q known
  by_cases same : q = p
  · subst same
    obtain ⟨ks, chain, distinct, exact⟩ := forest q known
    have fresh := absent q known ks exact
    refine ⟨k :: ks, ?_, nodup_cons.mpr ⟨fresh, distinct⟩, ?_⟩
    · rw [update_self]
      exact chain.push (nodup_cons.mpr ⟨fresh, distinct⟩)
    · intro c
      by_cases new : c = k
      · simp [new]
      · simp [new, exact c]
  · obtain ⟨ks, chain, distinct, exact⟩ := forest q known
    obtain ⟨ls, other, -, exact'⟩ := forest p owner
    refine ⟨ks, ?_, distinct, ?_⟩
    · rw [update_of_ne same]
      refine chain.congr ?_ ?_
      · intro c member
        exact update_of_ne (ne_of_mem_of_not_mem member (absent q known ks exact)) _ _
      · intro c member
        refine youngerPush_frame (ne_of_mem_of_not_mem member (absent q known ks exact)) ?_
        intro head
        -- the first kid of `p` names `p` as its parent, the kids of `q` name `q`
        have mine : c ∈ ls := other.head_mem head
        have named := ((exact' c).mp mine).2
        rw [((exact c).mp member).2] at named
        exact same (some.inj named)
    · intro c
      by_cases new : c = k
      · have gone := absent q known ks exact
        have apart : p ≠ q := Ne.symm same
        simp [new, gone, apart]
      · simp [new, exact c]

/-- A member leaves the chain it is on. -/
theorem Forest.remove
    (owner : p ∈ owners) (member : k ∈ members) (named : parent k = some p) :
    Forest (olderRemove older younger k) (youngerRemove older younger k)
      (firstRemove older younger first p k) parent owners (members \ {k}) := by
  obtain ⟨ls, chain, distinct, exact⟩ := forest p owner
  obtain ⟨xs, ys, rfl⟩ := append_of_mem ((exact k).mpr ⟨member, named⟩)
  obtain ⟨back, next, head⟩ := chain.at
  intro q known
  by_cases same : q = p
  · subst same
    refine ⟨xs ++ ys, ?_, ?_, ?_⟩
    · have removed := chain.remove distinct (fun _ _ impossible => by cases impossible)
      have starts : firstRemove older younger first q k q = if xs = [] then older k else first q := by
        cases xs with
        | nil => simp [firstRemove, back]
        | cons x xs => simp [firstRemove, back, getLast?_cons]
      rw [starts]
      exact removed
    · exact distinct.sublist (List.Sublist.append_left (sublist_cons_self k ys) xs)
    · intro c
      have fresh := (nodup_cons.mp (perm_middle.nodup_iff.mp distinct)).1
      have whole := exact c
      rw [perm_middle.mem_iff, mem_cons] at whole
      by_cases gone : c = k
      · simpa [gone] using fresh
      · simpa [gone] using whole
  · obtain ⟨ks, other, distinct', exact'⟩ := forest q known
    have apart : ∀ c ∈ ks, c ∉ xs ++ k :: ys := by
      intro c mine theirs
      have both := ((exact c).mp theirs).2
      rw [((exact' c).mp mine).2] at both
      exact same (some.inj both)
    refine ⟨ks, ?_, distinct', ?_⟩
    · have starts : firstRemove older younger first p k q = first q := by
        cases young : younger k with
        | none => simp [firstRemove, young, same]
        | some y => simp [firstRemove, young]
      rw [starts]
      refine other.congr ?_ ?_
      · intro c mine
        refine olderRemove_frame ?_
        rw [back, or_none]
        intro last
        exact apart c mine (mem_append_left _ (mem_of_getLast? last))
      · intro c mine
        refine youngerRemove_frame ?_
        rw [next]
        intro head
        exact apart c mine
          (mem_append_right _ (mem_cons_of_mem _ (mem_of_head? head)))
    · intro c
      by_cases gone : c = k
      · subst gone
        have notMine : c ∉ ks := fun mine => apart c mine (by simp)
        simp [notMine]
      · simp [gone, exact' c]

end

end Forests

end LiNos.SiblingChain
