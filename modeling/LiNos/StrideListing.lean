import Mathlib.Data.List.Pairwise
import LiNos.StrideRuns

/-!
The listing of the stride queue.

`do_stride_queue` copies the pool into an array of 100 entries, sorts the copy and prints it
without the process that was picked. Nothing keeps the pool below 100 processes, and the
entries hold the strides as `int`s: `sort` puts those from `2 ^ 31` on in front, while they
are printed as the unsigned numbers they are.
-/

namespace LiNos.Sched

open SkewHeap Function List

variable {m m' : Machine} {queue : List ℕ} {w : World} {n : ℕ} {pid : ℤ} {t : HeapTree ℕ}
  {x : StrideEntry} {q : List StrideEntry}

/-- `do_stride_queue` stays in its array and prints each process but `pid` once, in the order
of the strides. -/
def Lists (m : Machine) (pid : ℤ) (queue : List ℕ) : Prop :=
  ∃ lines, doStrideQueue m pid = some lines ∧
    lines.Perm ((queue.filter (pid ≠ m.pid ·)).map fun p => (m.pid p, m.stride p)) ∧
    lines.Pairwise (·.2 ≤ ·.2)

/-! ## The sort -/

theorem sortRound_perm (x : StrideEntry) (q : List StrideEntry) :
    ((sortRound x q).1 :: (sortRound x q).2).Perm (x :: q) := by
  induction q generalizing x with
  | nil => rfl
  | cons y q ih =>
    rw [sortRound]
    split
    · exact (Perm.swap ..).trans ((ih y).cons x)
    · exact (Perm.swap ..).trans (((ih x).cons y).trans (Perm.swap ..))

theorem sortRound_least (x : StrideEntry) (q : List StrideEntry) :
    ∀ y ∈ x :: q, (sortRound x q).1.stride.toInt ≤ y.stride.toInt := by
  induction q generalizing x with
  | nil => simp [sortRound]
  | cons y q ih =>
    rw [sortRound]
    split_ifs with smaller
    · rw [BitVec.slt_iff_toInt_lt] at smaller
      refine forall_mem_cons.mpr ⟨?_, ih y⟩
      exact (ih y y mem_cons_self).trans smaller.le
    · rw [BitVec.slt_iff_toInt_lt, not_lt] at smaller
      obtain ⟨first, rest⟩ := forall_mem_cons.mp (ih x)
      exact forall_mem_cons.mpr ⟨first, forall_mem_cons.mpr ⟨first.trans smaller, rest⟩⟩

theorem sort_perm (n : ℕ) (q : List StrideEntry) : (sort n q).Perm q := by
  fun_induction sort n q with
  | case1 n x q least rest round ih =>
    have perm := sortRound_perm x q
    rw [round] at perm
    exact (ih.cons least).trans perm
  | case2 => rfl

/-- By induction on the rounds: each puts the least of what is left in front. -/
theorem sort_sorted (enough : q.length ≤ n) :
    (sort n q).Pairwise (·.stride.toInt ≤ ·.stride.toInt) := by
  fun_induction sort n q with
  | case1 n x q least rest round ih =>
    have perm := sortRound_perm x q
    have below := sortRound_least x q
    rw [round] at perm below
    have length := perm.length_eq
    simp only [length_cons] at length enough
    refine pairwise_cons.mpr ⟨fun y member => below y ?_, ih (by omega)⟩
    exact perm.subset (mem_cons_of_mem _ ((sort_perm _ _).subset member))
  | case2 n q other =>
    cases q with
    | nil => exact .nil
    | cons x q =>
      cases n with
      | zero => cases enough
      | succ n => exact absurd rfl (other n x q rfl)

/-- Numbers in the order of `int` are in unsigned order if they have the same top bit. -/
theorem le_iff_msb {a b : BitVec 32} (le : a.toInt ≤ b.toInt) : a ≤ b ↔ a.msb = b.msb := by
  have signedA := a.toInt_eq_msb_cond
  have signedB := b.toInt_eq_msb_cond
  have boundA := a.isLt
  have boundB := b.isLt
  have topA := a.msb_eq_decide
  have topB := b.msb_eq_decide
  rw [BitVec.le_def]
  grind

/-! ## The lines -/

theorem pairwise_le_iff (sorted : q.Pairwise (·.stride.toInt ≤ ·.stride.toInt)) :
    q.Pairwise (·.stride ≤ ·.stride) ↔ ∀ x ∈ q, ∀ y ∈ q, x.stride.msb = y.stride.msb := by
  constructor
  · intro le
    have same : q.Pairwise (·.stride.msb = ·.stride.msb) :=
      (sorted.and le).imp fun both => (le_iff_msb both.1).mp both.2
    have symm : Std.Symm fun x y : StrideEntry => x.stride.msb = y.stride.msb := ⟨fun _ _ => Eq.symm⟩
    intro x inside y inside'
    by_cases equal : x = y
    · rw [equal]
    · exact same.forall inside inside' equal
  · intro same
    exact sorted.imp_of_mem fun inside inside' signed => (le_iff_msb signed).mpr (same _ inside _ inside')

theorem entries_perm (nodes : t.nodes.Perm queue) (pid : ℤ) :
    ((sort t.size (t.nodes.map m.entry)).filter (pid ≠ ·.pid)).Perm
      ((queue.filter (pid ≠ m.pid ·)).map m.entry) := by
  have copied := (sort_perm t.size (t.nodes.map m.entry)).trans (nodes.map m.entry)
  have printed := copied.filter (pid ≠ ·.pid)
  rwa [filter_map] at printed

theorem mem_entries (perm : q.Perm ((queue.filter (pid ≠ m.pid ·)).map m.entry)) :
    x ∈ q ↔ ∃ p, (p ∈ queue ∧ pid ≠ m.pid p) ∧ m.entry p = x := by
  simp [perm.mem_iff]

theorem HeapQueue.lists_iff (kept : HeapQueue m t) (nodes : t.nodes.Perm queue) :
    Lists m pid queue ↔ queue.length ≤ queueEntries ∧ ∀ p ∈ queue, ∀ q ∈ queue,
      pid ≠ m.pid p → pid ≠ m.pid q → (m.stride p).msb = (m.stride q).msb := by
  have size : t.size = queue.length := nodes.length_eq
  have perm := entries_perm (m := m) nodes pid
  have sorted := (sort_sorted (n := t.size) (q := t.nodes.map m.entry) (by simp [HeapTree.size])).filter
    (pid ≠ ·.pid)
  rw [Lists, doStrideQueue_eq kept.hangs]
  generalize (sort t.size (t.nodes.map m.entry)).filter (pid ≠ ·.pid) = entries at perm sorted ⊢
  rw [size]
  by_cases fits : queue.length ≤ queueEntries
  · have lines : (entries.map fun e => (e.pid, e.stride)).Perm
        ((queue.filter (pid ≠ m.pid ·)).map fun p => (m.pid p, m.stride p)) := by
      have mapped := perm.map fun e => (e.pid, e.stride)
      rwa [map_map] at mapped
    rw [if_pos fits, and_iff_right fits]
    simp only [Option.some.injEq, exists_eq_left', and_iff_right lines]
    rw [pairwise_map, pairwise_le_iff sorted]
    constructor
    · intro same p inside q inside' other other'
      exact same (m.entry p) ((mem_entries perm).mpr ⟨p, ⟨inside, other⟩, rfl⟩) (m.entry q)
        ((mem_entries perm).mpr ⟨q, ⟨inside', other'⟩, rfl⟩)
    · intro same x inside y inside'
      obtain ⟨p, ⟨queued, other⟩, rfl⟩ := (mem_entries perm).mp inside
      obtain ⟨q, ⟨queued', other'⟩, rfl⟩ := (mem_entries perm).mp inside'
      exact same p queued q queued' other other'
  · simp [fits]

/-- The listing is right if no more than 100 processes are in the pool and the strides it prints
are all below `2 ^ 31` or all from there on, and only then. -/
theorem stride_queue_listed_iff (built : Built .stride m queue) :
    Lists m pid queue ↔ queue.length ≤ queueEntries ∧ ∀ p ∈ queue, ∀ q ∈ queue,
      pid ≠ m.pid p → pid ≠ m.pid q → (m.stride p).msb = (m.stride q).msb := by
  obtain ⟨t, kept, nodes, -⟩ := built.heap rfl
  exact kept.lists_iff nodes

/-- Three processes with the pids 3, 4 and 5. -/
def threeStrides (a b c : BitVec 32) : Machine :=
  { (boot .stride unbooted 0).machine with
    pid := fun p => p + 2
    stride := fun p => if p = 1 then a else if p = 2 then b else c }

/-- Process 4 is picked with the strides 7, 2 and 5 in the pool. -/
theorem stride_queue_listed_three : ∃ m, Built .stride m [1, 2, 3] ∧
    doStrideQueue m 4 = some [(5, 5), (3, 7)] ∧ Lists m 4 [1, 2, 3] := by
  have empty : Built .stride (threeStrides 7 2 5) [] := .empty ⟨⟨rfl, rfl⟩, by simp⟩ rfl rfl
  have first := @Built.enqueue .stride _ _ _ 1 8 empty (by simp) rfl
  have second := @Built.enqueue .stride _ _ _ 2 8 first (by simp) rfl
  have third := @Built.enqueue .stride _ _ _ 3 8 second (by simp) rfl
  exact ⟨_, third, rfl, (stride_queue_listed_iff third).mpr ⟨by decide, by decide⟩⟩

/-- A fork between processes that have not run yet. -/
theorem StrideRun.fork {p : ℕ} (run : StrideRun InStep w fun _ => 0) (fresh : p ∉ w.known)
    (notIdle : p ≠ w.machine.idleproc) (notCurrent : p ≠ w.machine.current) (pid : ℤ) :
    ∃ links root, StrideRun InStep
      ⟨enroll ((setRunnable (forkProc w.machine p pid) p).setHeap links root) p, p :: w.known⟩ fun _ => 0 := by
  obtain ⟨pool, strided⟩ := run.strided
  have outside : p ∉ pool.nodes := fun queued => fresh ((strided.roster.exact p).mp queued).1
  have kept : HeapQueue (setRunnable (forkProc w.machine p pid) p) pool :=
    (strided.kept.alloc outside).congr rfl rfl rfl
  obtain ⟨links, root, ran, -⟩ := kept.enqueue procStrideCompF outside
  have made : (forkProc w.machine p pid).state p = .uninit := by simp [forkProc, allocProc]
  have apart : ¬ (p = (forkProc w.machine p pid).current ∨ p = (forkProc w.machine p pid).idleproc) :=
    not_or.mpr ⟨notCurrent, notIdle⟩
  have active : (forkProc w.machine p pid).schedClass = .stride := strided.active
  have woken : wakeupProc (pool.size + 2) (forkProc w.machine p pid) p =
      some (enroll ((setRunnable (forkProc w.machine p pid) p).setHeap links root) p) := by
    rw [wakeupProc_eq _ (by simp [made]), if_neg (by simp [made]), if_neg apart, active]
    exact ran _ (Nat.lt_succ_self _)
  have forked : perform (pool.size + 2) w (.fork p pid) =
      some ⟨enroll ((setRunnable (forkProc w.machine p pid) p).setHeap links root) p, p :: w.known⟩ := by
    rw [perform, woken]
    rfl
  have allowed : Allowed w (.fork p pid) := ⟨fresh, notIdle⟩
  have next := run.step allowed (fun q _ _ => .refl 0) forked
  rw [trueStrides, update_eq_self_iff.mpr rfl] at next
  exact ⟨links, root, next⟩

/-- After `n` forks in a row the new processes are all in the pool. -/
theorem StrideRun.forks (n : ℕ) : ∃ w, StrideRun InStep w (fun _ => 0) ∧ w.known = (range' 1 n).reverse ∧
    (∀ p ∈ w.known, w.machine.state p = .runnable) ∧ w.machine.current = 0 ∧ w.machine.idleproc = 0 := by
  induction n with
  | zero =>
    exact ⟨Sched.boot .stride unbooted 0, .boot unbooted 0 _, rfl, fun p known => (by cases known), rfl, rfl⟩
  | succ n ih =>
    obtain ⟨w, run, known, ready, current, idle⟩ := ih
    have fresh : 1 + n ∉ w.known := by simp [known]
    obtain ⟨links, root, next⟩ := run.fork fresh (by omega) (by omega) (1 + n)
    refine ⟨_, next, ?_, forall_mem_cons.mpr ⟨?_, fun p member => ?_⟩, current, idle⟩
    · rw [known, range'_1_concat, reverse_concat]
    · exact update_self _ _ _
    · have other : p ≠ 1 + n := fun same => fresh (same ▸ member)
      have before := ready p member
      simpa [enroll, setRunnable, forkProc, allocProc, Machine.setHeap, other] using before

/-- `n` processes that have been forked and wait for the CPU. -/
theorem StrideRun.pool_of_forks (n : ℕ) : ∃ w pool, StrideRun InStep w (fun _ => 0) ∧
    HeapQueue w.machine pool ∧ pool.nodes.Perm w.known ∧ w.known.length = n := by
  obtain ⟨w, run, known, ready, current, idle⟩ := forks n
  obtain ⟨pool, strided⟩ := run.strided
  have distinct : w.known.Nodup := by
    rw [known, nodup_reverse]
    exact nodup_range' _
  refine ⟨w, pool, run, strided.kept, (perm_ext_iff_of_nodup strided.kept.distinct distinct).mpr fun p => ?_, ?_⟩
  · rw [strided.roster.exact, current]
    refine ⟨And.left, fun member => ⟨member, ready p member, ?_⟩⟩
    exact fun zero => strided.roster.idle (idle ▸ zero ▸ member)
  · rw [known, length_reverse, length_range']

/-- With 101 processes waiting the copy of the pool does not fit, whatever `pid` is. And when three
processes have taken turns, the stride `0xFFFFFFFE` is listed before `0x7FFFFFFF`. -/
theorem stride_queue_not_listed :
    (∃ w t, StrideRun InStep w t ∧ w.known.length = 101 ∧ ∀ pid, doStrideQueue w.machine pid = none ∧
      ¬ Lists w.machine pid w.known) ∧
    ∃ w t m, StrideRun InStep w t ∧ requeueCurrent 8 w.machine = some m ∧
      m.lab6RunPool = some 3 ∧ doStrideQueue m (m.pid 3) = some [(3, 0xFFFFFFFE), (4, 0x7FFFFFFF)] ∧
      ¬ Lists m (m.pid 3) w.known := by
  constructor
  · obtain ⟨w, pool, run, kept, nodes, length⟩ := StrideRun.pool_of_forks 101
    refine ⟨w, _, run, length, fun pid => ?_⟩
    have size : pool.size = 101 := nodes.length_eq.trans length
    have full : doStrideQueue w.machine pid = none := by
      rw [doStrideQueue_eq kept.hangs, size, if_neg (by decide)]
    refine ⟨full, ?_⟩
    rintro ⟨lines, printed, -⟩
    cases full.symm.trans printed
  · have start : StrideRun InStep (boot .stride unbooted 0) fun _ => 0 := .boot unbooted 0 _
    refine ⟨_, _, _, start.play 8 [.fork 1 3, .fork 2 4, .fork 3 5, .schedule, .schedule, .schedule, .schedule] rfl,
      rfl, rfl, rfl, ?_⟩
    rintro ⟨lines, printed, -, sorted⟩
    cases printed
    exact absurd sorted (by decide)

end LiNos.Sched
