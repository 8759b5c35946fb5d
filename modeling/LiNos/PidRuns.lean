import Mathlib.Data.Finset.Card
import Mathlib.Order.Interval.Finset.Basic
import Mathlib.Data.Int.Interval
import LiNos.ProcRuns

/-!
Every pid is new.

`get_pid` keeps two statics and may return without looking at the list. That is
sound because of what the last walk over the list left behind: no live pid is
strictly between `last_pid` and `next_safe`, and creations and removals keep it so.
A walk ends because some pid is free: `last_pid` only moves towards the next free
pid, around the end of the range if need be, and between two moves the walk goes
through the list once at most.
-/

namespace LiNos.Proc

open CircularList List

variable {s s' t : Machine} {p : ℕ} {alive us vs : List ℕ} {fuel : ℕ} {pid : ℤ}

/-! ## The walk ends -/

/-- Fewer processes than pids leave a pid free. -/
theorem exists_free_pid (s : Machine) (few : (alive.length : ℤ) ≤ maxProcess) :
    ∃ free, 0 < free ∧ free < maxPid ∧ ∀ p ∈ alive, s.pid p ≠ free := by
  have taken : (alive.map s.pid).toFinset.card < (Finset.Ico 1 maxPid).card := by
    have most := toFinset_card_le (alive.map s.pid)
    rw [length_map] at most
    rw [Int.card_Ico]
    unfold maxPid maxProcess at *
    omega
  obtain ⟨free, inside, outside⟩ := Finset.exists_mem_notMem_of_card_lt_card taken
  rw [Finset.mem_Ico] at inside
  refine ⟨free, by omega, inside.2, ?_⟩
  intro p member same
  apply outside
  rw [mem_toFinset, ← same]
  exact mem_map_of_mem member

/-- `gap` more steps take `last_pid` to the pid `free`, round the end of the range
if it is behind. -/
def Ahead (last free : ℤ) (gap : ℕ) : Prop :=
  last + gap = free ∨ last + gap = free + (maxPid - 1)

/-- Each time `last_pid` moves the gap closes by one, so a walk over `n` processes
takes at most `n + 1` steps for each unit of the gap. -/
private theorem getPidLoop_returns (done rest : List ℕ) {last next free : ℤ} {gap : ℕ}
    (ring : Ring s.listLinks .procList ((done ++ rest).map .listLink))
    (positive : 0 < free) (valid : free < maxPid) (unused : ∀ p ∈ done ++ rest, s.pid p ≠ free)
    (inside : last < maxPid) (bound : next ≤ maxPid) (ahead : Ahead last free gap)
    (enough : gap * ((done ++ rest).length + 1) + rest.length < fuel) :
    ∃ r, getPidLoop s fuel (lastOf .procList (done.map .listLink)) last next = some r := by
  induction fuel generalizing done rest last next gap with
  | zero => omega
  | succ fuel ih =>
    have linked := ring.linked
    rw [map_append] at linked
    have step := (linked_cut _ _ linked).1
    cases rest with
    | nil => exact ⟨(last, next), by simp [getPidLoop, step]⟩
    | cons q rest =>
      have moved : done ++ q :: rest = (done ++ [q]) ++ rest := by simp
      have behind : ListEntry.listLink q = lastOf .procList ((done ++ [q]).map .listLink) := by
        simp
      have other : s.pid q ≠ free := unused q (by simp)
      simp only [getPidLoop, step, map_cons, firstOf_cons]
      by_cases same : s.pid q = last
      · -- the gap is not closed yet: its end is a pid that is free
        have unclosed : 0 < gap := by
          unfold Ahead at ahead
          omega
        obtain ⟨gap, rfl⟩ : ∃ less, gap = less + 1 := ⟨gap - 1, by omega⟩
        rw [Nat.succ_mul] at enough
        rw [if_pos same]
        by_cases used : next ≤ last + 1
        · rw [if_pos used]
          refine @ih [] (done ++ q :: rest) _ _ gap ring unused ?_ le_rfl ?_ ?_
          · split <;> omega
          · unfold Ahead maxPid maxProcess at *
            split <;> omega
          · simp only [nil_append, length_append, length_cons] at enough ⊢
            omega
        · rw [if_neg used, behind]
          rw [moved] at ring unused enough
          refine @ih _ _ _ _ gap ring unused (by omega) bound ?_ ?_
          · unfold Ahead at *
            omega
          · simp only [length_append, length_cons, length_nil] at enough ⊢
            omega
      · rw [if_neg same]
        rw [moved] at ring unused enough
        have shorter : gap * ((done ++ [q] ++ rest).length + 1) + rest.length < fuel := by
          simp only [length_cons] at enough
          omega
        split
        · rw [behind]
          exact ih _ _ ring unused inside (by omega) ahead shorter
        · rw [behind]
          exact ih _ _ ring unused inside bound ahead shorter

/-- Steps that are enough for any walk over `n` processes. -/
def walkBound (n : ℕ) : ℕ := 2 * maxPid.toNat * (n + 1)

section

variable (ring : Ring s.listLinks .procList (alive.map .listLink)) (few : (alive.length : ℤ) ≤ maxProcess)
  (enough : walkBound alive.length ≤ fuel)
include ring few enough

/-- A whole walk, from any pid. -/
theorem getPidLoop_ends {start : ℤ} (positive : 0 < start) (inside : start < maxPid) :
    ∃ r, getPidLoop s fuel .procList start maxPid = some r := by
  obtain ⟨free, above, below, unused⟩ := exists_free_pid s few
  obtain ⟨gap, ahead, short⟩ : ∃ gap : ℕ, Ahead start free gap ∧ gap + 1 ≤ 2 * maxPid.toNat := by
    unfold Ahead maxPid maxProcess at *
    by_cases before : start ≤ free
    · exact ⟨(free - start).toNat, by omega, by omega⟩
    · exact ⟨(free + 8191 - start).toNat, by omega, by omega⟩
  refine getPidLoop_returns [] alive ring above below unused inside le_rfl ahead ?_
  calc gap * (alive.length + 1) + alive.length
      < (gap + 1) * (alive.length + 1) := by rw [Nat.succ_mul]; omega
    _ ≤ walkBound alive.length := Nat.mul_le_mul_right _ short
    _ ≤ fuel := enough

theorem getPid_ends (last : 0 < s.lastPid) : ∃ s' pid, getPid fuel s = some (s', pid) := by
  unfold getPid
  split
  · obtain ⟨r, ended⟩ := @getPidLoop_ends s alive fuel ring few enough 1 (by decide) (by decide)
    exact ⟨_, _, by simp only [ended]; rfl⟩
  · split
    · obtain ⟨r, ended⟩ :=
        @getPidLoop_ends s alive fuel ring few enough (s.lastPid + 1) (by omega) (by omega)
      exact ⟨_, _, by simp only [ended]; rfl⟩
    · exact ⟨_, _, rfl⟩

end

/-! ## Runs -/

/-- Creations and removals of processes, with `alive` the processes that are there,
newest first. Other code may run in between; it leaves `proc_list`, the pids of the
processes on it and the statics of `get_pid` alone. -/
inductive PidRun : Machine → List ℕ → Prop
  | init {s : Machine} (empty : Ring s.listLinks .procList []) (last : s.lastPid = maxPid)
      (next : s.nextSafe = maxPid) : PidRun s []
  | create {s s' t : Machine} {alive : List ℕ} {p fuel : ℕ} {pid : ℤ} (run : PidRun s alive)
      (fresh : p ∉ alive) (room : (alive.length : ℤ) < maxProcess)
      (chosen : getPid fuel s = some (s', pid))
      (linked : setLinks { s' with pid := Function.update s'.pid p pid } p = some t) :
      PidRun t (p :: alive)
  | remove {s t : Machine} {us vs : List ℕ} {p : ℕ} (run : PidRun s (us ++ p :: vs))
      (unlinked : removeLinks s p = some t) : PidRun t (us ++ vs)
  | other {s t : Machine} {alive : List ℕ} (run : PidRun s alive)
      (links : t.listLinks = s.listLinks) (pids : ∀ p ∈ alive, t.pid p = s.pid p)
      (last : t.lastPid = s.lastPid) (next : t.nextSafe = s.nextSafe) : PidRun t alive

/-- What the creations and removals keep. -/
structure Tracked (s : Machine) (alive : List ℕ) : Prop where
  ring : Ring s.listLinks .procList (alive.map .listLink)
  numbered : Numbered s alive
  few : (alive.length : ℤ) ≤ maxProcess

/-- What `Numbered` is about. -/
theorem Numbered.congr (numbered : Numbered s alive) (pids : ∀ p ∈ alive, t.pid p = s.pid p)
    (last : t.lastPid = s.lastPid) (next : t.nextSafe = s.nextSafe) : Numbered t alive where
  range p member := by
    rw [pids p member]
    exact numbered.range p member
  distinct p member q member' same := by
    rw [pids p member, pids q member'] at same
    exact numbered.distinct p member q member' same
  safe p member := by
    rw [pids p member, last, next]
    exact numbered.safe p member
  last := by
    rw [last]
    exact numbered.last
  next := by
    rw [next]
    exact numbered.next

/-- What `set_links` does to the list, and what it leaves alone. -/
theorem setLinks_list (linked : setLinks s p = some t) :
    t.listLinks = listAdd s.listLinks .procList (.listLink p) ∧ t.pid = s.pid ∧
      t.lastPid = s.lastPid ∧ t.nextSafe = s.nextSafe := by
  obtain ⟨parent, -, made⟩ := Option.bind_eq_some_iff.mp linked
  cases made
  exact ⟨rfl, rfl, rfl, rfl⟩

/-- What `remove_links` does to the list, and what it leaves alone. -/
theorem removeLinks_list (unlinked : removeLinks s p = some t) :
    t.listLinks = listDel s.listLinks (.listLink p) ∧ t.pid = s.pid ∧
      t.lastPid = s.lastPid ∧ t.nextSafe = s.nextSafe := by
  unfold removeLinks at unlinked
  split at unlinked
  · obtain ⟨parent, -, made⟩ := Option.bind_eq_some_iff.mp unlinked
    cases made
    exact ⟨rfl, rfl, rfl, rfl⟩
  · cases unlinked
    exact ⟨rfl, rfl, rfl, rfl⟩

theorem Tracked.create (tracked : Tracked s alive) (fresh : p ∉ alive)
    (room : (alive.length : ℤ) < maxProcess) (chosen : getPid fuel s = some (s', pid))
    (linked : setLinks { s' with pid := Function.update s'.pid p pid } p = some t) :
    Tracked t (p :: alive) := by
  obtain ⟨next, rfl, positive, inside, bound, clear⟩ :=
    getPid_sound tracked.ring tracked.numbered chosen
  obtain ⟨links, pids, last, safe⟩ := setLinks_list linked
  refine ⟨?_, ?_, ?_⟩
  · rw [links]
    exact ring_listAdd tracked.ring (by simpa using fresh)
  · exact (tracked.numbered.enter fresh positive inside bound clear).congr
      (fun q _ => congrFun pids q) last safe
  · rw [length_cons]
    push_cast
    omega

theorem Tracked.remove (tracked : Tracked s (us ++ p :: vs)) (unlinked : removeLinks s p = some t) :
    Tracked t (us ++ vs) := by
  obtain ⟨links, pids, last, safe⟩ := removeLinks_list unlinked
  have ring := tracked.ring
  have few := tracked.few
  rw [map_append, map_cons] at ring
  refine ⟨?_, ?_, ?_⟩
  · rw [links, map_append]
    exact ring_listDel ring
  · have fewer : us ++ vs ⊆ us ++ p :: vs := by
      intro q member
      simp only [mem_append, mem_cons] at member ⊢
      tauto
    exact (tracked.numbered.mono fewer).congr (fun q _ => congrFun pids q) last safe
  · simp only [length_append, length_cons] at few ⊢
    push_cast at few ⊢
    omega

theorem PidRun.tracked (run : PidRun s alive) : Tracked s alive := by
  induction run with
  | init empty last next =>
    refine ⟨empty, ⟨by simp, by simp, by simp, ?_, le_of_eq next⟩, by decide⟩
    rw [last]
    decide
  | create _ fresh room chosen linked ih => exact ih.create fresh room chosen linked
  | remove _ unlinked ih => exact ih.remove unlinked
  | other _ links pids last next ih =>
    refine ⟨?_, ih.numbered.congr pids last next, ih.few⟩
    rw [links]
    exact ih.ring

/-- `proc_list` holds exactly the processes that are there, `get_pid` comes back, and
what it comes back with is a valid pid that no process on the list has: on every
path, fast or slow, and after any number of wrap-arounds. -/
theorem getPid_fresh (run : PidRun s alive) :
    Ring s.listLinks .procList (alive.map .listLink) ∧
      (∀ fuel, walkBound alive.length ≤ fuel → ∃ s' pid, getPid fuel s = some (s', pid)) ∧
      ∀ fuel s' pid, getPid fuel s = some (s', pid) →
        1 ≤ pid ∧ pid < maxPid ∧ ∀ p ∈ alive, s.pid p ≠ pid := by
  obtain ⟨ring, numbered, few⟩ := run.tracked
  refine ⟨ring, fun fuel enough => getPid_ends ring few enough numbered.last, ?_⟩
  intro fuel s' pid chosen
  obtain ⟨next, -, positive, inside, bound, clear⟩ := getPid_sound ring numbered chosen
  refine ⟨by omega, by omega, ?_⟩
  intro p member same
  exact clear p member (by omega)

/-- A process is created, its child follows, the child is removed again, and the next
pid is neither the one in use nor the one just given back. -/
theorem getPid_fresh_after_removal :
    ∃ s, PidRun s [1] ∧ (∃ s', getPid 9 s = some (s', 3)) ∧ s.pid 1 ≠ 3 := by
  have start : PidRun { fresh with parent := fun _ => some 0 } [] :=
    .init ⟨⟨rfl, rfl⟩, by simp⟩ rfl rfl
  have one := @PidRun.create _ _ _ _ 1 9 _ start (by simp) (by decide) rfl rfl
  have two := @PidRun.create _ _ _ _ 2 9 _ one (by simp) (by decide) rfl rfl
  have gone := @PidRun.remove _ _ [] [1] 2 two rfl
  refine ⟨_, gone, ⟨_, rfl⟩, ?_⟩
  exact ((getPid_fresh gone).2.2 9 _ 3 rfl).2.2 1 (by simp)

end LiNos.Proc
