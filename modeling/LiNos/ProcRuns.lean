import LiNos.ProcTable

/-!
Runs of the process system calls.

Each of `do_fork`, `do_exit`, `do_wait` and `do_kill` keeps the table
(`doFork_table`, `doExit_settled`, `doWait_settled`, `doKill_settled`), the last
one under a condition: its loop compares only the first process of `proc_list`
and then writes one `next` pointer, so it must not name that process. In every
run that meets the condition the table is consistent in every state
(`process_table_consistent`); a run that does not breaks the list.
-/

namespace LiNos.Proc

open CircularList SiblingChain Function Option

variable {s s' : Machine} {idle init p : ℕ} {alive us vs kids : List ℕ} {fuel : ℕ} {pid ret : ℤ}
  {r : ForkResources} {flags waitState : ℕ → ℕ} {state : ℕ → ProcState} {outcome : WaitOutcome}
  {codeStore : CodeStore}

attribute [simp] newProc allocProc

/-! ## Writes the table does not see -/

/-- Waking, sleeping and flagging: the table reads states only to tell zombies. -/
theorem Table.restate {exitCode : ℕ → ℤ}
    (table : Table s idle alive) (same : ∀ q, state q = .zombie → s.state q = .zombie) :
    Table { s with state := state, waitState := waitState, flags := flags, exitCode := exitCode }
      idle alive := by
  refine ⟨{ table.listed with }, { table.numbered with }, { table.related with childless := ?_ }⟩
  intro c member p named dead
  exact table.related.childless c member p named (same p dead)

/-- `wakeup_proc` changes states and wait states, and neither makes nor unmakes
a zombie. -/
theorem wakeupProc_eq (ran : wakeupProc s p = some s') :
    ∃ state waitState, s' = { s with state := state, waitState := waitState } ∧
      ∀ q, state q = .zombie ↔ s.state q = .zombie := by
  unfold wakeupProc at ran
  split_ifs at ran with awake
  · cases ran
    exact ⟨s.state, s.waitState, rfl, fun q => Iff.rfl⟩
  · cases ran
    refine ⟨_, _, rfl, ?_⟩
    grind [update_apply]

/-- A process that goes to sleep is no zombie. -/
theorem sleeping_quieter (s : Machine) (q : ℕ)
    (dead : update s.state s.current .sleeping q = .zombie) : s.state q = .zombie := by
  grind [update_apply]

/-- A structure that is not in the table may hold anything. -/
theorem Table.scratch (table : Table s idle alive) (fresh : p ∉ idle :: alive) :
    Table (newProc s p) idle alive := by
  have other : ∀ q ∈ idle :: alive, q ≠ p := fun q member => ne_of_mem_of_not_mem member fresh
  obtain ⟨-, inside⟩ := List.forall_mem_cons.mp other
  have pids : ∀ q ∈ alive, (newProc s p).pid q = s.pid q := fun q member => by
    simp [inside q member]
  obtain ⟨⟨ring, buckets, count⟩, ⟨range, distinct, safe, last, next⟩,
    ⟨forest, parents, childless, outside, current⟩⟩ := table
  refine ⟨⟨ring, ?_, count⟩, ⟨?_, ?_, ?_, last, next⟩, ⟨?_, ?_, ?_, outside, current⟩⟩
  · intro i bound
    have same : (alive.filter fun q => pidHashfn ((newProc s p).pid q) = i) =
        alive.filter fun q => pidHashfn (s.pid q) = i :=
      List.filter_congr fun q member => by rw [pids q member]
    rw [same]
    exact buckets i bound
  · exact fun q member => pids q member ▸ range q member
  · exact fun q member q' member' same =>
      distinct q member q' member' ((pids q member).symm.trans (same.trans (pids q' member')))
  · exact fun q member => pids q member ▸ safe q member
  · refine forest.congr ?_ ?_ ?_ ?_ <;> intro q member
    · simp [inside q member]
    · simp [inside q member]
    · simp [other q member]
    · simp [inside q member]
  · intro c member
    simpa [inside c member] using parents c member
  · intro c member q named
    have old : s.parent c = some q := by simpa [inside c member] using named
    obtain ⟨q', known, named'⟩ := parents c member
    cases old.symm.trans named'
    simpa [other q known] using childless c member q old

/-! ## do_fork -/

section

variable (fresh : p ∉ idle :: alive) (named : s.parent p = some s.current) (nobody : s.cptr p = none)
  (awake : s.state s.current ≠ .zombie)
include fresh named nobody awake

/-- A new process joins the children of the one that is running. -/
theorem Related.enter (related : Related s idle alive) :
    Related { s with
      yptr := youngerPush s.yptr (s.cptr s.current) p
      optr := update s.optr p (s.cptr s.current)
      cptr := update s.cptr s.current (some p) } idle (p :: alive) := by
  have absent : p ∉ alive := fun member => fresh (List.mem_cons_of_mem _ member)
  have notCurrent : p ≠ s.current := fun same => fresh (same ▸ related.current)
  have grows : idle :: alive ⊆ idle :: p :: alive :=
    List.cons_subset_cons idle (List.subset_cons_self p alive)
  refine ⟨?_, List.forall_mem_cons.mpr ⟨⟨s.current, grows related.current, named⟩, ?_⟩,
    List.forall_mem_cons.mpr ⟨?_, related.childless⟩, ?_, grows related.current⟩
  · have adopted := related.forest.adopt related.current (fun member => absurd member absent)
    rw [← named, update_eq_self] at adopted
    have owned := adopted.own (p := p) (by simpa [notCurrent] using nobody) (by
      rintro c (rfl | member)
      · rw [named]
        simpa using Ne.symm notCurrent
      · obtain ⟨q, known, parent⟩ := related.parents c member
        rw [parent]
        simpa using ne_of_mem_of_not_mem known fresh)
    have members : {q | q ∈ p :: alive} = insert p {q | q ∈ alive} := by
      ext q
      simp
    have owners : {q | q ∈ idle :: p :: alive} = insert p {q | q ∈ idle :: alive} := by
      ext q
      simp [or_left_comm]
    rw [members, owners]
    exact owned
  · intro c member
    obtain ⟨q, known, parent⟩ := related.parents c member
    exact ⟨q, grows known, parent⟩
  · intro q parent
    cases named.symm.trans parent
    exact awake
  · have outside := related.idle_notMem
    grind

/-- The end of `do_fork`. -/
theorem enterProc_table (table : Table s idle alive) (ran : enterProc fuel s p = some (s', ret)) :
    0 < ret ∧ s'.pid p = ret ∧ Table s' idle (p :: alive) ∧ s'.idleproc = s.idleproc ∧
      s'.initproc = s.initproc ∧
      ∀ q, s'.state q = .zombie ↔ s.state q = .zombie := by
  have absent : p ∉ alive := fun member => fresh (List.mem_cons_of_mem _ member)
  obtain ⟨⟨s₁, pid⟩, chosen, ran⟩ := bind_eq_some_iff.mp ran
  obtain ⟨next, rfl, positive, inside, bound, clear⟩ :=
    getPid_sound table.listed.ring table.numbered chosen
  simp only [setLinks, hashProc, named, update_self] at ran
  obtain ⟨s₂, linked, ran⟩ := bind_eq_some_iff.mp ran
  obtain ⟨s₃, woken, ran⟩ := bind_eq_some_iff.mp ran
  cases linked
  obtain ⟨state, waitState, rfl, zombies⟩ := wakeupProc_eq woken
  obtain ⟨rfl, rfl⟩ := ran
  have listed := table.listed.enter absent pid
  have numbered := table.numbered.enter absent positive inside bound clear
  have related := table.related.enter fresh named nobody awake
  refine ⟨by simpa using positive, rfl, ?_, rfl, rfl, zombies⟩
  refine ⟨{ listed with },
    { numbered with },
    { related with childless := ?_ }⟩
  intro c member q parent dead
  exact related.childless c member q parent ((zombies q).mp dead)

end

/-- `do_fork` either refuses and changes nothing in the table or puts one new
process, with the pid it returns, in front of the others. -/
theorem doFork_table (table : Table s idle alive) (awake : s.state s.current ≠ .zombie)
    (fresh : ∀ p, r.proc = some p → p ∉ idle :: alive)
    (ran : doFork fuel s r = some (s', ret)) :
    (ret < 0 ∧ Table s' idle alive ∨
        ∃ p, r.proc = some p ∧ 0 < ret ∧ s'.pid p = ret ∧ s'.state p ≠ .zombie ∧
          Table s' idle (p :: alive)) ∧
      s'.idleproc = s.idleproc ∧ s'.initproc = s.initproc ∧
      ∀ q ∈ idle :: alive, s'.state q = .zombie ↔ s.state q = .zombie := by
  unfold doFork at ran
  split at ran
  · cases ran
    exact ⟨.inl ⟨by decide, table⟩, rfl, rfl, fun q _ => Iff.rfl⟩
  · cases got : r.proc with
    | none =>
      simp only [got] at ran
      cases ran
      exact ⟨.inl ⟨by decide, table⟩, rfl, rfl, fun q _ => Iff.rfl⟩
    | some p =>
      have new := fresh p got
      have clean := table.scratch new
      have states : ∀ q ∈ idle :: alive, (newProc s p).state q = s.state q := fun q member =>
        update_of_ne (ne_of_mem_of_not_mem member new) _ _
      have awake' : (newProc s p).state s.current ≠ .zombie := by
        rwa [states _ table.related.current]
      simp only [got] at ran
      split_ifs at ran
      · obtain ⟨positive, numbered, entered, idleproc, initproc, zombies⟩ :=
          enterProc_table new (by simp) (by simp) awake' clean ran
        refine ⟨.inr ⟨p, rfl, positive, numbered, ?_, entered⟩, idleproc, initproc, ?_⟩
        · rw [ne_eq, zombies p]
          simp
        · intro q member
          rw [zombies q, states q member]
      · cases ran
        exact ⟨.inl ⟨by decide, clean⟩, rfl, rfl, fun q member => by rw [states q member]⟩

/-! ## do_exit -/

/-- The invariant of the process table once `initproc` is known. -/
structure Settled (s : Machine) (idle init : ℕ) (alive : List ℕ) : Prop where
  table : Table s idle alive
  idleproc : s.idleproc = some idle
  initproc : s.initproc = some init
  init_mem : init ∈ alive
  init_awake : s.state init ≠ .zombie
  idle_awake : s.state idle ≠ .zombie

theorem Settled.restate
    (settled : Settled s idle init alive) (same : ∀ q, state q = .zombie → s.state q = .zombie) :
    Settled { s with state := state, waitState := waitState, flags := flags } idle init alive :=
  { settled with
    table := settled.table.restate same
    init_awake := fun dead => settled.init_awake (same init dead)
    idle_awake := fun dead => settled.idle_awake (same idle dead) }

theorem Settled.wakeup (settled : Settled s idle init alive) (ran : wakeupProc s p = some s') :
    Settled s' idle init alive := by
  obtain ⟨state, waitState, rfl, zombies⟩ := wakeupProc_eq ran
  exact settled.restate fun q => (zombies q).mp

/-- The table while `do_exit` gives the children of `current` away: `current` is
a zombie with children, and the first of them still points back to the one given
away before it. -/
structure Leaving (s : Machine) (idle init : ℕ) (alive kids : List ℕ) : Prop where
  listed : Listed s alive
  numbered : Numbered s alive
  forest : Forest s.optr s.yptr s.cptr s.parent {p | p ∈ idle :: alive ∧ p ≠ s.current}
    {p | p ∈ alive}
  chain : ∃ before, Chain s.optr s.yptr before (s.cptr s.current) kids
  distinct : kids.Nodup
  exact : ∀ c, c ∈ kids ↔ c ∈ alive ∧ s.parent c = some s.current
  parents : ∀ c ∈ alive, ∃ p ∈ idle :: alive, s.parent c = some p
  childless : ∀ c ∈ alive, ∀ p, s.parent c = some p → p ≠ s.current → s.state p ≠ .zombie
  idle_notMem : idle ∉ alive
  current : s.current ∈ alive
  idleproc : s.idleproc = some idle
  initproc : s.initproc = some init
  init_mem : init ∈ alive
  init_other : init ≠ s.current
  init_awake : s.state init ≠ .zombie
  idle_awake : s.state idle ≠ .zombie

theorem Leaving.restate (leaving : Leaving s idle init alive kids)
    (same : ∀ q, state q = .zombie ↔ s.state q = .zombie) :
    Leaving { s with state := state, waitState := waitState } idle init alive kids := by
  refine { leaving with
    listed := { leaving.listed with }, numbered := { leaving.numbered with }, childless := ?_
    init_awake := fun dead => leaving.init_awake ((same init).mp dead)
    idle_awake := fun dead => leaving.idle_awake ((same idle).mp dead) }
  intro c known p named apart dead
  exact leaving.childless c known p named apart ((same p).mp dead)

/-- One child goes to `initproc`. -/
theorem Leaving.reparent {kid : ℕ} {kids : List ℕ}
    (leaving : Leaving s idle init alive (kid :: kids)) :
    Leaving (Proc.reparent s kid init) idle init alive kids := by
  obtain ⟨before, -, -, rest⟩ := leaving.chain
  obtain ⟨kidAlive, kidNamed⟩ := (leaving.exact kid).mp (by simp)
  obtain ⟨gone, distinct⟩ := List.nodup_cons.mp leaving.distinct
  have other := leaving.init_other
  have initOwner : init ∈ {p | p ∈ idle :: alive ∧ p ≠ s.current} :=
    ⟨List.mem_cons_of_mem _ leaving.init_mem, other⟩
  have cut : update s.cptr s.current (s.optr kid) init = s.cptr init :=
    update_of_ne other _ _
  have renamed : ∀ c, (Proc.reparent s kid init).parent c = if c = kid then some init else s.parent c :=
    fun c => update_apply ..
  refine { leaving with
    listed := { leaving.listed with }, numbered := { leaving.numbered with }, forest := ?_
    chain := ⟨some kid, ?_⟩, distinct := distinct, exact := ?_, parents := ?_, childless := ?_ }
  · have popped : Forest s.optr s.yptr (update s.cptr s.current (s.optr kid)) s.parent
        {p | p ∈ idle :: alive ∧ p ≠ s.current} {p | p ∈ alive} :=
      leaving.forest.congr (fun _ _ => rfl) (fun _ _ => rfl)
        (fun q owner => update_of_ne owner.2 _ _) (fun _ _ => rfl)
    have adopted := popped.adopt initOwner fun _ q owner named =>
      owner.2 (some.inj (named.symm.trans kidNamed))
    rwa [Set.insert_eq_of_mem (show kid ∈ {p | p ∈ alive} from kidAlive)] at adopted
  · obtain ⟨ls, initChain, -, initExact⟩ := leaving.forest init initOwner
    have start : (Proc.reparent s kid init).cptr s.current = s.optr kid := by
      simp [Proc.reparent, Ne.symm other]
    rw [show (Proc.reparent s kid init).current = s.current from rfl, start]
    refine rest.congr ?_ ?_
    · intro c member
      exact update_of_ne (ne_of_mem_of_not_mem member gone) _ _
    · intro c member
      refine youngerPush_frame (ne_of_mem_of_not_mem member gone) fun head => other ?_
      have named := ((initExact c).mp (initChain.head_mem (cut.symm.trans head))).2
      exact some.inj (named.symm.trans ((leaving.exact c).mp (List.mem_cons_of_mem _ member)).2)
  · intro c
    have whole := leaving.exact c
    rw [renamed, show (Proc.reparent s kid init).current = s.current from rfl]
    grind
  · intro c member
    have named := leaving.parents c member
    rw [renamed]
    grind
  · intro c member q named _
    have old := leaving.childless c member q
    have awake := leaving.init_awake
    rw [renamed] at named
    change q ≠ s.current at ‹q ≠ _›
    change s.state q ≠ _
    grind

/-- Once the last child is gone the table is settled again. -/
theorem Leaving.settled (leaving : Leaving s idle init alive []) : Settled s idle init alive := by
  obtain ⟨before, ended⟩ := leaving.chain
  have nobody : ∀ c ∈ alive, s.parent c ≠ some s.current :=
    fun c member named => List.not_mem_nil ((leaving.exact c).mpr ⟨member, named⟩)
  have owners : {p | p ∈ idle :: alive} =
      insert s.current {p | p ∈ idle :: alive ∧ p ≠ s.current} := by
    ext q
    have known := leaving.current
    grind
  refine { leaving with table :=
    ⟨leaving.listed, leaving.numbered, ?_, leaving.parents, ?_, leaving.idle_notMem,
    List.mem_cons_of_mem _ leaving.current⟩ }
  · rw [owners]
    exact leaving.forest.own ended nobody
  · intro c member q named
    refine leaving.childless c member q named ?_
    rintro rfl
    exact nobody c member named

/-- The loop of `do_exit` gives all children away. -/
theorem exitLoop_settled (leaving : Leaving s idle init alive kids)
    (ran : exitLoop fuel s = some s') : Settled s' idle init alive := by
  induction fuel generalizing s kids with
  | zero => cases ran
  | succ fuel ih =>
    obtain ⟨before, chain⟩ := leaving.chain
    cases kids with
    | nil =>
      rw [exitLoop, show s.cptr s.current = none from chain] at ran
      cases ran
      exact leaving.settled
    | cons kid kids =>
      simp only [exitLoop, chain.1, leaving.initproc, bind_eq_bind, bind_some] at ran
      split_ifs at ran
      · obtain ⟨s₁, woken, ran⟩ := bind_eq_some_iff.mp ran
        obtain ⟨state, waitState, rfl, zombies⟩ := wakeupProc_eq woken
        exact ih (leaving.reparent.restate zombies) ran
      · exact ih leaving.reparent ran

/-- `do_exit` leaves a settled table, with the same processes in it. -/
theorem doExit_settled {errorCode : ℤ} (settled : Settled s idle init alive)
    (ran : doExit fuel s errorCode = some s') : Settled s' idle init alive := by
  obtain ⟨table, idleproc, initproc, member, awake, awake'⟩ := settled
  unfold doExit at ran
  split_ifs at ran with ordinary
  have notIdle : s.current ≠ idle := fun same => ordinary (.inl (by rw [idleproc, same]))
  have notInit : init ≠ s.current := fun same => ordinary (.inr (by rw [initproc, same]))
  have inside : s.current ∈ alive := (List.mem_cons.mp table.related.current).resolve_left notIdle
  obtain ⟨kids, chain, distinct, exact⟩ := table.related.forest _ table.related.current
  have dying : Leaving { s with
      state := update s.state s.current .zombie
      exitCode := update s.exitCode s.current errorCode } idle init alive kids := by
    refine { table.related with
      listed := { table.listed with }
      numbered := { table.numbered with }
      forest := table.related.forest.mono fun q owner => owner.1
      chain := ⟨none, chain⟩, distinct := distinct, exact := exact, childless := ?_
      current := inside, idleproc := idleproc, initproc := initproc, init_mem := member
      init_other := notInit, init_awake := ?_, idle_awake := ?_ }
    · intro c known q named other
      simpa [show q ≠ s.current from other] using table.related.childless c known q named
    · simpa [notInit] using awake
    · simpa [Ne.symm notIdle] using awake'
  obtain ⟨parent, -, ran⟩ := bind_eq_some_iff.mp ran
  split_ifs at ran
  · obtain ⟨s₁, woken, ran⟩ := bind_eq_some_iff.mp ran
    obtain ⟨state, waitState, rfl, zombies⟩ := wakeupProc_eq woken
    exact exitLoop_settled (dying.restate zombies) ran
  · exact exitLoop_settled dying ran

/-! ## do_wait -/

/-- The child is one that `do_wait(pid)` waits for. -/
def Matches (s : Machine) (pid : ℤ) (c : ℕ) : Prop := pid = 0 ∨ s.pid c = pid

section Search

variable {found : Option ℕ} {haskid : Bool}

/-- The walk over the children stops at the first zombie. -/
private theorem findZombie_spec {before first : Option ℕ} {seen : Bool}
    (chain : Chain s.optr s.yptr before first kids)
    (ran : findZombie s fuel first seen = some (found, haskid)) :
    found = kids.find? (fun c => s.state c = .zombie) ∧ (haskid = false → kids = [] ∧ seen = false) := by
  induction fuel generalizing before first kids seen with
  | zero => cases ran
  | succ fuel ih =>
    cases kids with
    | nil =>
      rw [show first = none from chain] at ran
      cases ran
      exact ⟨rfl, fun none => ⟨rfl, none⟩⟩
    | cons kid kids =>
      obtain ⟨rfl, -, rest⟩ := chain
      simp only [findZombie] at ran
      split_ifs at ran with dead
      · cases ran
        simp [dead]
      · obtain ⟨same, seen'⟩ := ih rest ran
        refine ⟨?_, fun none => absurd (seen' none).2 (by simp)⟩
        rw [List.find?_cons_of_neg (by simpa using dead), same]

/-- `do_wait` looks for a zombie among the children that match. -/
theorem waitSearch_spec (table : Table s idle alive)
    (ran : waitSearch fuel s pid = some (found, haskid)) :
    ∃ kids : List ℕ, (∀ c, c ∈ kids ↔ c ∈ alive ∧ s.parent c = some s.current ∧ Matches s pid c) ∧
      found = kids.find? (fun c => s.state c = .zombie) ∧ (haskid = false → kids = []) := by
  unfold waitSearch at ran
  split at ran
  · rename_i named
    obtain ⟨at_pid, looked, ran⟩ := bind_eq_some_iff.mp ran
    have is := (findProc_spec table.listed table.numbered).2 _ looked
    have foundOnly := fun q (same : at_pid = some q) =>
      findProc_some table.listed table.numbered (same ▸ looked)
    -- only the process that was found can match
    have only : ∀ c ∈ alive, Matches s pid c → at_pid = some c := by
      intro c member matching
      have same := matching.resolve_left named
      cases at_pid with
      | none => exact absurd (List.find?_eq_none.mp is.symm c member) (by simp [same])
      | some q =>
        obtain ⟨inside, same'⟩ := foundOnly q rfl
        rw [table.numbered.distinct q inside c member (same'.trans same.symm)]
    cases at_pid with
    | none =>
      cases ran
      refine ⟨[], ?_, rfl, fun _ => rfl⟩
      grind
    | some q =>
      simp only at ran
      split at ran
      · cases ran
        refine ⟨[q], ?_, by by_cases dead : s.state q = .zombie <;> simp [dead], by simp⟩
        grind [Matches]
      · cases ran
        refine ⟨[], ?_, rfl, fun _ => rfl⟩
        grind
  · rename_i any
    obtain ⟨kids, chain, -, exact⟩ := table.related.forest _ table.related.current
    obtain ⟨same, none⟩ := findZombie_spec chain ran
    refine ⟨kids, fun c => ?_, same, fun unseen => (none unseen).1⟩
    rw [exact c, Matches, not_not.mp any]
    simp

end Search

/-- A zombie child leaves the family. -/
theorem Related.leave (related : Related s idle (us ++ p :: vs)) (distinct : (us ++ p :: vs).Nodup)
    (child : s.parent p = some s.current) (dead : s.state p = .zombie)
    (awake : s.state s.current ≠ .zombie) :
    Related { s with
      yptr := youngerRemove s.optr s.yptr p
      optr := olderRemove s.optr s.yptr p
      cptr := firstRemove s.optr s.yptr s.cptr s.current p } idle (us ++ vs) := by
  have without : ∀ q, q ∈ us ++ vs ↔ q ∈ us ++ p :: vs ∧ q ≠ p := by grind
  have stays : ∀ q ∈ idle :: (us ++ p :: vs), s.state q ≠ .zombie → q ∈ idle :: (us ++ vs) := by
    grind
  refine ⟨?_, ?_, ?_, ?_, stays _ related.current awake⟩
  · have removed := related.forest.remove related.current (by simp) child
    have members : {q | q ∈ us ++ vs} = {q | q ∈ us ++ p :: vs} \ {p} := by
      ext q
      simpa using without q
    rw [members]
    refine removed.mono fun q owner => ?_
    exact List.cons_subset_cons _ (fun x inside => ((without x).mp inside).1) owner
  · intro c member
    have known := ((without c).mp member).1
    obtain ⟨q, owner, named⟩ := related.parents c known
    exact ⟨q, stays q owner (related.childless c known q named), named⟩
  · exact fun c member => related.childless c ((without c).mp member).1
  · exact fun member => related.idle_notMem ((without idle).mp member).1

/-- `remove_links` of a process with a parent. -/
theorem removeLinks_eq {q : ℕ} (child : s.parent p = some q) :
    removeLinks s p = some { s with
      listLinks := listDel s.listLinks (.listLink p)
      yptr := youngerRemove s.optr s.yptr p
      optr := olderRemove s.optr s.yptr p
      cptr := firstRemove s.optr s.yptr s.cptr q p
      nrProcess := s.nrProcess - 1 } := by
  unfold removeLinks
  cases young : s.yptr p with
  | none => simp [child]
  | some y => simp [firstRemove, young]

/-- The machine without the process `p`, a child of `current`. -/
def unlinked (s : Machine) (p : ℕ) : Machine :=
  { s with
    hashLinks := listDel s.hashLinks (.hashLink p)
    listLinks := listDel s.listLinks (.listLink p)
    yptr := youngerRemove s.optr s.yptr p
    optr := olderRemove s.optr s.yptr p
    cptr := firstRemove s.optr s.yptr s.cptr s.current p
    nrProcess := s.nrProcess - 1 }

/-- What a pass through `do_wait` does. -/
theorem doWait_cases (table : Table s idle alive)
    (ran : doWait fuel s pid codeStore = some (s', outcome)) :
    (outcome = .failed (-eInval) ∧ s' = s) ∨
      (outcome = .failed (-eBadProc) ∧ s' = s ∧
        ∀ c ∈ alive, s.parent c = some s.current → ¬ Matches s pid c) ∨
      (outcome = .blocked ∧ s' = { s with
          state := update s.state s.current .sleeping
          waitState := update s.waitState s.current wtChild } ∧
        ∀ c ∈ alive, s.parent c = some s.current → Matches s pid c → s.state c ≠ .zombie) ∨
      ∃ c, outcome = .reaped c (if codeStore = .null then none else some (s.exitCode c)) ∧
        c ∈ alive ∧ s.parent c = some s.current ∧ s.state c = .zombie ∧ Matches s pid c ∧
        s.initproc ≠ some c ∧ s' = unlinked s c := by
  unfold doWait at ran
  split at ran
  · cases ran
    exact .inl ⟨rfl, rfl⟩
  · obtain ⟨⟨found, haskid⟩, searched, ran⟩ := bind_eq_some_iff.mp ran
    obtain ⟨kids, exact, same, none⟩ := waitSearch_spec table searched
    cases found with
    | none =>
      cases haskid with
      | false =>
        cases ran
        refine .inr (.inl ⟨rfl, rfl, fun c member child matching => ?_⟩)
        cases none rfl ▸ (exact c).mpr ⟨member, child, matching⟩
      | true =>
        cases ran
        refine .inr (.inr (.inl ⟨rfl, rfl, fun c member child matching => ?_⟩))
        simpa using List.find?_eq_none.mp same.symm c ((exact c).mpr ⟨member, child, matching⟩)
    | some c =>
      obtain ⟨member, child, matching⟩ := (exact c).mp (List.mem_of_find?_eq_some same.symm)
      have dead : s.state c = .zombie := by simpa using List.find?_some same.symm
      simp only at ran
      split at ran
      · cases ran
      · rename_i ordinary
        rw [removeLinks_eq (s := unhashProc s c) child] at ran
        cases ran
        exact .inr (.inr (.inr ⟨c, rfl, member, child, dead, matching, fun is => ordinary (.inr is), rfl⟩))

/-- What `do_wait` does to the processes in the table. -/
def afterWait (outcome : WaitOutcome) (alive : List ℕ) : List ℕ :=
  match outcome with
  | .reaped p _ => alive.erase p
  | _ => alive

/-- `do_wait` leaves a settled table; a process it reaped is no longer there. -/
theorem doWait_settled (settled : Settled s idle init alive) (awake : s.state s.current ≠ .zombie)
    (ran : doWait fuel s pid codeStore = some (s', outcome)) :
    Settled s' idle init (afterWait outcome alive) := by
  rcases doWait_cases settled.table ran with ⟨rfl, rfl⟩ | ⟨rfl, rfl, -⟩ | ⟨rfl, rfl, -⟩ |
    ⟨q, rfl, member, child, dead, -, ordinary, rfl⟩
  · exact settled
  · exact settled
  · exact settled.restate (sleeping_quieter s)
  · have table := settled.table
    have distinct := table.listed.nodup
    obtain ⟨us, vs, rfl⟩ := List.append_of_mem member
    have notBefore : q ∉ us := fun before =>
      (List.nodup_append.mp distinct).2.2 q before q (by simp) rfl
    have erased : ∀ stored, afterWait (.reaped q stored) (us ++ q :: vs) = us ++ vs := by
      intro stored
      simp [afterWait, List.erase_append_right _ notBefore]
    rw [erased]
    have listed := table.listed.leave
    have numbered := table.numbered.mono
      (List.Sublist.append_left (List.sublist_cons_self q vs) us).subset
    have related := table.related.leave distinct child dead awake
    refine { settled with
      table := ⟨{ listed with }, { numbered with }, { related with }⟩, init_mem := ?_ }
    have notInit : init ≠ q := fun same => ordinary (by rw [settled.initproc, same])
    simpa [notInit] using settled.init_mem

/-! ## do_kill -/

/-- The calls of `do_kill` that leave `proc_list` alone: the first process on the
list, the one created last of those that are there, is not the one to be
killed. -/
def SparesFirst (s : Machine) (pid : ℤ) : Prop :=
  ∀ p, s.listLinks.next .procList = .listLink p → s.pid p ≠ pid

theorem unlinkFirst_eq (spares : SparesFirst s pid) : unlinkFirst s pid = s := by
  unfold unlinkFirst
  split
  · rfl
  · rename_i first
    simp [spares _ first]

theorem doKill_settled (settled : Settled s idle init alive) (spares : SparesFirst s pid)
    (ran : doKill fuel s pid = some (s', ret)) : Settled s' idle init alive := by
  simp only [doKill, unlinkFirst_eq spares] at ran
  obtain ⟨found, -, ran⟩ := bind_eq_some_iff.mp ran
  cases found with
  | none =>
    cases ran
    exact settled
  | some q =>
    simp only at ran
    split_ifs at ran
    · obtain ⟨s₁, woken, ⟨⟩⟩ := bind_eq_some_iff.mp ran
      exact (settled.restate fun _ => id).wakeup woken
    · cases ran
      exact settled.restate fun _ => id
    · cases ran
      exact settled

/-! ## proc_init -/

/-- Every bucket is an empty list once the loop of `proc_init` has passed it. -/
private theorem initHashList_next (is : List ℕ) (links : Links HashEntry) :
    ∀ i, i ∈ is ∨ (links.next (.hashList i) = .hashList i ∧ links.prev (.hashList i) = .hashList i) →
      (is.foldl (fun links i => listInit links (.hashList i)) links).next (.hashList i) =
          .hashList i ∧
        (is.foldl (fun links i => listInit links (.hashList i)) links).prev (.hashList i) =
          .hashList i := by
  induction is generalizing links with
  | nil =>
    intro i passed
    simpa using passed
  | cons j is ih =>
    refine fun i passed => ih _ i ?_
    simp only [listInit]
    grind [update_apply]

theorem initHashList_ring {i : ℕ} (bound : i < hashListSize) (links : Links HashEntry) :
    Ring (initHashList links) (.hashList i) [] := by
  have own := initHashList_next (List.range hashListSize) links i
    (.inl (List.mem_range.mpr bound))
  refine ⟨?_, by simp⟩
  simp only [Linked, initHashList]
  exact own

theorem initIdle_hashLinks : (initIdle s idle).hashLinks = initHashList s.hashLinks := by
  simp only [initIdle, allocProc]

/-- The table before the first `do_fork`: no process but `idleproc`, which runs. -/
theorem initIdle_table (empty : s.nrProcess = 0) (lastPid : s.lastPid = maxPid)
    (nextSafe : s.nextSafe = maxPid) : Table (initIdle s idle) idle [] := by
  refine ⟨⟨ring_init _ _, ?_, ?_⟩, ⟨by simp, by simp, by simp, ?_, nextSafe.le⟩,
    ⟨?_, by simp, by simp, by simp, by simp [initIdle]⟩⟩
  · intro i bound
    rw [List.filter_nil, List.map_nil, initIdle_hashLinks]
    exact initHashList_ring bound s.hashLinks
  · simp [initIdle, allocProc, empty]
  · simp only [initIdle, allocProc, lastPid]
    decide
  · intro p owner
    obtain rfl := List.mem_singleton.mp owner
    exact ⟨[], by simp [Chain, initIdle, allocProc], List.nodup_nil, by simp⟩

/-- `proc_init` leaves a settled table with `initproc` as its only process. -/
theorem procInit_settled {idlePage : Option ℕ} (empty : s.nrProcess = 0)
    (lastPid : s.lastPid = maxPid) (nextSafe : s.nextSafe = maxPid)
    (fresh : ∀ p, r.proc = some p → idlePage ≠ some p)
    (ran : procInit fuel s idlePage r = some s') :
    ∃ idle init, idlePage = some idle ∧ r.proc = some init ∧ Settled s' idle init [init] := by
  obtain ⟨idle, rfl, ran⟩ := bind_eq_some_iff.mp ran
  obtain ⟨⟨s₁, pid⟩, forked, ran⟩ := bind_eq_some_iff.mp ran
  have awake : (initIdle s idle).state idle ≠ .zombie := by simp [initIdle]
  obtain ⟨outcome, idleproc, -, zombies⟩ := doFork_table
    (initIdle_table empty lastPid nextSafe) awake
    (fun p got member => fresh p got (by rw [List.mem_singleton.mp member])) forked
  simp only at ran
  split_ifs at ran with positive
  rcases outcome with ⟨negative, -⟩ | ⟨p, got, -, numbered, alive, table⟩
  · exact absurd negative.le positive
  · obtain ⟨found, looked, ran⟩ := bind_eq_some_iff.mp ran
    obtain ⟨init, rfl, checked⟩ := bind_eq_some_iff.mp ran
    obtain rfl := List.mem_singleton.mp (findProc_some table.listed table.numbered looked).1
    split_ifs at checked
    cases checked
    exact ⟨idle, init, rfl, got, ⟨⟨{ table.listed with }, { table.numbered with },
      { table.related with }⟩, idleproc, rfl, by simp, alive,
      fun dead => awake ((zombies idle (by simp)).mp dead)⟩⟩

/-! ## Runs -/

/-- What `do_fork` does to the processes in the table. -/
def afterFork (r : ForkResources) (ret : ℤ) (alive : List ℕ) : List ℕ :=
  if 0 < ret then r.proc.toList ++ alive else alive

/-- The states of a run, with the processes that have been created and not yet
reaped, newest first. A system call is made by the process that is running;
`mayKill` says which calls of `do_kill` the run makes. The scheduler may pick any
process that is not a zombie, a process may go to sleep in any wait state, and
anything may wake it. -/
inductive Reachable (mayKill : Machine → ℤ → Prop) : Machine → List ℕ → Prop where
  | boot {s s' : Machine} {fuel : ℕ} {idle : Option ℕ} {r : ForkResources}
      (empty : s.nrProcess = 0) (lastPid : s.lastPid = maxPid) (nextSafe : s.nextSafe = maxPid)
      (fresh : ∀ p, r.proc = some p → idle ≠ some p)
      (ran : procInit fuel s idle r = some s') : Reachable mayKill s' r.proc.toList
  | fork {s s' : Machine} {alive : List ℕ} {fuel : ℕ} {r : ForkResources} {ret : ℤ}
      (before : Reachable mayKill s alive) (running : s.state s.current ≠ .zombie)
      (fresh : ∀ p, r.proc = some p → p ∉ alive ∧ s.idleproc ≠ some p)
      (ran : doFork fuel s r = some (s', ret)) : Reachable mayKill s' (afterFork r ret alive)
  | exit {s s' : Machine} {alive : List ℕ} {fuel : ℕ} {errorCode : ℤ}
      (before : Reachable mayKill s alive) (running : s.state s.current ≠ .zombie)
      (ran : doExit fuel s errorCode = some s') : Reachable mayKill s' alive
  | wait {s s' : Machine} {alive : List ℕ} {fuel : ℕ} {pid : ℤ} {codeStore : CodeStore}
      {outcome : WaitOutcome}
      (before : Reachable mayKill s alive) (running : s.state s.current ≠ .zombie)
      (ran : doWait fuel s pid codeStore = some (s', outcome)) :
      Reachable mayKill s' (afterWait outcome alive)
  | kill {s s' : Machine} {alive : List ℕ} {fuel : ℕ} {pid ret : ℤ}
      (before : Reachable mayKill s alive) (running : s.state s.current ≠ .zombie)
      (allowed : mayKill s pid)
      (ran : doKill fuel s pid = some (s', ret)) : Reachable mayKill s' alive
  | schedule {s : Machine} {alive : List ℕ} (next : ℕ)
      (before : Reachable mayKill s alive) (known : s.idleproc = some next ∨ next ∈ alive)
      (ready : s.state next = .runnable) : Reachable mayKill { s with current := next } alive
  | sleep {s : Machine} {alive : List ℕ} (waitState : ℕ)
      (before : Reachable mayKill s alive) (running : s.state s.current ≠ .zombie) :
      Reachable mayKill { s with
        state := update s.state s.current .sleeping
        waitState := update s.waitState s.current waitState } alive
  | wakeup {s s' : Machine} {alive : List ℕ} {p : ℕ}
      (before : Reachable mayKill s alive) (known : p ∈ alive)
      (ran : wakeupProc s p = some s') : Reachable mayKill s' alive

theorem Reachable.mono {mayKill mayKill' : Machine → ℤ → Prop} (reached : Reachable mayKill s alive)
    (weaker : ∀ s pid, mayKill s pid → mayKill' s pid) : Reachable mayKill' s alive := by
  induction reached with
  | boot empty lastPid nextSafe fresh ran => exact .boot empty lastPid nextSafe fresh ran
  | fork before running fresh ran ih => exact .fork ih running fresh ran
  | exit before running ran ih => exact .exit ih running ran
  | wait before running ran ih => exact .wait ih running ran
  | kill before running allowed ran ih => exact .kill ih running (weaker _ _ allowed) ran
  | schedule next before known ready ih => exact .schedule next ih known ready
  | sleep waitState before running ih => exact .sleep waitState ih running
  | wakeup before known ran ih => exact .wakeup ih known ran

/-! ### Steps -/

theorem doFork_settled (settled : Settled s idle init alive) (awake : s.state s.current ≠ .zombie)
    (fresh : ∀ p, r.proc = some p → p ∉ alive ∧ s.idleproc ≠ some p)
    (ran : doFork fuel s r = some (s', ret)) : Settled s' idle init (afterFork r ret alive) := by
  obtain ⟨outcome, idleproc, initproc, zombies⟩ := doFork_table settled.table awake
    (fun p got member => by
      obtain ⟨notAlive, notIdle⟩ := fresh p got
      rcases List.mem_cons.mp member with rfl | member
      · exact notIdle settled.idleproc
      · exact notAlive member) ran
  have initAwake := fun dead => settled.init_awake
    ((zombies init (List.mem_cons_of_mem _ settled.init_mem)).mp dead)
  have idleAwake := fun dead => settled.idle_awake ((zombies idle (by simp)).mp dead)
  rcases outcome with ⟨negative, table⟩ | ⟨p, got, positive, -, -, table⟩
  · simp only [afterFork, negative.not_gt, if_false]
    exact ⟨table, idleproc.trans settled.idleproc, initproc.trans settled.initproc,
      settled.init_mem, initAwake, idleAwake⟩
  · simp only [afterFork, positive, if_true, got, toList_some, List.singleton_append]
    exact ⟨table, idleproc.trans settled.idleproc, initproc.trans settled.initproc,
      List.mem_cons_of_mem _ settled.init_mem, initAwake, idleAwake⟩

theorem Settled.schedule {next : ℕ} (settled : Settled s idle init alive)
    (known : s.idleproc = some next ∨ next ∈ alive) :
    Settled { s with current := next } idle init alive := by
  obtain ⟨listed, numbered, related⟩ := settled.table
  refine { settled with
    table := ⟨{ listed with }, { numbered with }, { related with current := ?_ }⟩ }
  rcases known with same | known
  · cases settled.idleproc.symm.trans same
    exact List.mem_cons_self
  · exact List.mem_cons_of_mem _ known

/-- In a run whose calls of `do_kill` all spare the first process of the list
every state is settled. -/
theorem Reachable.settled (reached : Reachable SparesFirst s alive) :
    ∃ idle init, Settled s idle init alive := by
  induction reached with
  | boot empty lastPid nextSafe fresh ran =>
    obtain ⟨idle, init, -, got, settled⟩ := procInit_settled empty lastPid nextSafe fresh ran
    exact ⟨idle, init, by simpa [got] using settled⟩
  | fork before running fresh ran ih =>
    obtain ⟨idle, init, settled⟩ := ih
    exact ⟨idle, init, doFork_settled settled running fresh ran⟩
  | exit before running ran ih =>
    obtain ⟨idle, init, settled⟩ := ih
    exact ⟨idle, init, doExit_settled settled ran⟩
  | wait before running ran ih =>
    obtain ⟨idle, init, settled⟩ := ih
    exact ⟨idle, init, doWait_settled settled running ran⟩
  | kill before running allowed ran ih =>
    obtain ⟨idle, init, settled⟩ := ih
    exact ⟨idle, init, doKill_settled settled allowed ran⟩
  | schedule next before known ready ih =>
    obtain ⟨idle, init, settled⟩ := ih
    exact ⟨idle, init, settled.schedule known⟩
  | sleep waitState before running ih =>
    obtain ⟨idle, init, settled⟩ := ih
    exact ⟨idle, init, settled.restate (sleeping_quieter _)⟩
  | wakeup before known ran ih =>
    obtain ⟨idle, init, settled⟩ := ih
    exact ⟨idle, init, settled.wakeup ran⟩

/-- What callers of the table rely on: `proc_list` is a ring of exactly the
processes in the table, walked back by `prev` as it is walked by `next`;
`find_proc` comes back and finds exactly those processes; and `nr_process`
counts them and `idleproc`, which is on no list. -/
structure Consistent (s : Machine) (alive : List ℕ) : Prop where
  ring : Ring s.listLinks .procList (alive.map .listLink)
  inverse : ∀ e ∈ ListEntry.procList :: alive.map .listLink,
    s.listLinks.next (s.listLinks.prev e) = e ∧ s.listLinks.prev (s.listLinks.next e) = e
  idle : ∃ idle, s.idleproc = some idle ∧ idle ∉ alive
  returns : ∀ pid fuel, alive.length < fuel → ∃ found, findProc fuel s pid = some found
  finds : ∀ p ∈ alive, ∀ fuel, alive.length < fuel → findProc fuel s (s.pid p) = some (some p)
  only : ∀ pid fuel p, findProc fuel s pid = some (some p) → p ∈ alive ∧ s.pid p = pid
  count : s.nrProcess = alive.length + 1

/-- For every run of `do_fork`, `do_exit`, `do_wait` and `do_kill` in which no
call of `do_kill` names the first process of `proc_list`, the process table is
consistent in every state. -/
theorem process_table_consistent (reached : Reachable SparesFirst s alive) :
    Consistent s alive := by
  obtain ⟨idle, init, ⟨listed, numbered, related⟩, idleproc, -⟩ := reached.settled
  refine ⟨listed.ring, fun e member => listed.ring.inverse member,
    ⟨idle, idleproc, related.idle_notMem⟩, ?_, ?_, ?_, listed.count⟩
  · intro pid fuel enough
    exact ⟨_, (findProc_spec listed numbered).1 enough⟩
  · intro p member fuel enough
    rw [(findProc_spec listed numbered).1 enough]
    congr 1
    cases found : alive.find? fun q => s.pid q = s.pid p with
    | none => exact absurd (List.find?_eq_none.mp found p member) (by simp)
    | some q =>
      have same : s.pid q = s.pid p := by simpa using List.find?_some found
      rw [numbered.distinct q (List.mem_of_find?_eq_some found) p member same]
  · intro pid fuel p found
    exact findProc_some listed numbered found

/-- Memory before `proc_init`. -/
def fresh : Machine where
  state _ := .uninit
  pid _ := 0
  parent _ := none
  flags _ := 0
  exitCode _ := 0
  waitState _ := 0
  cptr _ := none
  yptr _ := none
  optr _ := none
  listLinks := ⟨fun _ => .procList, fun _ => .procList⟩
  hashLinks := ⟨fun _ => .hashList 0, fun _ => .hashList 0⟩
  nrProcess := 0
  idleproc := none
  initproc := none
  current := 0
  lastPid := maxPid
  nextSafe := maxPid

/-- The structure at `p` and everything else a child needs. -/
def plenty (p : ℕ) : ForkResources := ⟨some p, true, true, true⟩

/-- `initproc` runs and has forked the process 3. -/
def oneChild : Option Machine := do
  let s ← procInit 9 fresh (some 1) (plenty 2)
  let (s, _) ← doFork 9 { s with current := 2 } (plenty 3)
  some s

set_option maxRecDepth 20000 in
theorem reachable_oneChild (mayKill : Machine → ℤ → Prop) (is : oneChild = some s) :
    Reachable mayKill s [3, 2] := by
  have booted := @Reachable.boot mayKill fresh _ 9 (some 1) (plenty 2) rfl rfl rfl
    (by rintro p ⟨⟩; decide) rfl
  have running := booted.schedule 2 (.inr (by decide)) rfl
  obtain rfl := Option.some.inj is
  exact @Reachable.fork _ _ _ _ 9 (plenty 3) _ running (by decide)
    (by rintro p ⟨⟩; exact ⟨by decide, by decide⟩) rfl

set_option maxRecDepth 20000 in
/-- `initproc` forks a child, is named in a `do_kill`, and reaps the child. -/
theorem process_table_consistent_reap :
    ∃ s, Reachable SparesFirst s [2] ∧ Consistent s [2] := by
  have forked := reachable_oneChild SparesFirst rfl
  have killed := @Reachable.kill _ _ _ _ 9 1 _ forked (by decide) (by rintro p ⟨⟩; decide) rfl
  have switched := killed.schedule 3 (.inr (by decide)) rfl
  have exited := @Reachable.exit _ _ _ _ 9 0 switched (by decide) rfl
  have back := exited.schedule 2 (.inr (by decide)) rfl
  have reaped := @Reachable.wait _ _ _ _ 9 0 .null _ back (by decide) rfl
  exact ⟨_, reaped, process_table_consistent reaped⟩

set_option maxRecDepth 20000 in
/-- A process forks a child and kills it at once. The child is now the first
process of `proc_list`, `do_kill` takes it out of the list in one direction, and
it is still there for `find_proc`: the list no longer has it, and from the head
`prev` does not undo `next`. -/
theorem kill_of_newest_breaks_list :
    ∃ s, Reachable (fun _ _ => True) s [4, 3, 2] ∧ ¬ Consistent s [4, 3, 2] ∧
      findProc 9 s 3 = some (some 4) ∧
      s.listLinks.next .procList = .listLink 3 ∧ s.listLinks.prev (.listLink 3) = .listLink 4 := by
  have forked := reachable_oneChild (fun _ _ => True) rfl
  have switched := forked.schedule 3 (.inr (by decide)) rfl
  have again := @Reachable.fork _ _ _ _ 9 (plenty 4) _ switched (by decide)
    (by rintro p ⟨⟩; exact ⟨by decide, by decide⟩) rfl
  have killed := @Reachable.kill _ _ _ _ 9 3 _ again (by decide) trivial rfl
  refine ⟨_, killed, ?_, rfl, rfl, rfl⟩
  intro consistent
  have undone := (consistent.inverse .procList List.mem_cons_self).2
  exact absurd undone (by decide)

end LiNos.Proc
