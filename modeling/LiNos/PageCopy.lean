import LiNos.PageWork

/-!
Copying pages from one directory to another (`copy_range`).

`Copied` is work for the target directory (`Worked`) with the exact result: each
mapped page of the source is mapped in the target to a frame of its own, with the
same user bits and the same content. The loop goes page by page and steps over
the slots for which the source has no table.
-/

namespace LiNos.Paging

open Option

variable {s s' s₁ s₂ : Kernel} {slots dirs : Finset ℕ} {role role' role₁ role₂ : ℕ → Role}
  {area area' : Set ℕ} {f la n perm toDir fromDir fuel start stop : ℕ} {policy : Policy}
  {enough : Bool} {ret : ℤ}

/-- The pages `area` of directory `fromDir` are copied to `toDir`: a mapped page to
a frame of its own, with the same user bits and the same content. -/
structure Copied (slots dirs : Finset ℕ) (toDir fromDir : ℕ) (area : Set ℕ) (s : Kernel)
    (role : ℕ → Role) (s' : Kernel) (role' : ℕ → Role) : Prop where
  worked : Worked slots dirs toDir area s role ∅ s' role' ∅
  copies : ∀ n ∈ area, (toDir, n) ∈ keys slots dirs →
    (¬ Present (pteOf s fromDir n) ∧ pteOf s' toDir n = pteOf s toDir n) ∨
      Present (pteOf s fromDir n) ∧ Sole slots dirs s' (toDir, n) ∧
        pteOf s' toDir n &&& pteUser = pteOf s fromDir n &&& pteUser ∧
        ∃ f, view s' (toDir, n) = some f ∧ s'.mem f = s.mem (frameOf (pteOf s fromDir n))

/-- A page that is mapped alone stays so when others are copied. -/
theorem Copied.sole (copied : Copied slots dirs toDir fromDir area s role s' role')
    (key : (toDir, n) ∈ keys slots dirs) (outside : n ∉ area) (sole : Sole slots dirs s (toDir, n)) :
    Sole slots dirs s' (toDir, n) := by
  intro f here y member there
  have same := copied.worked.view_eq key fun inside => outside inside.2
  by_cases inside : y.1 = toDir ∧ y.2 ∈ area
  · obtain ⟨d, m⟩ := y
    obtain ⟨rfl, inside⟩ := inside
    rcases copied.copies m inside member with ⟨-, kept⟩ | ⟨-, alone, -⟩
    · rw [view_congr kept] at there
      exact sole f (same ▸ here) _ member there
    · exact (alone f there _ key here).symm
  · rw [copied.worked.view_eq member inside] at there
    exact sole f (same ▸ here) y member there

theorem Copied.trans (first : Copied slots dirs toDir fromDir area s role s₁ role₁)
    (second : Copied slots dirs toDir fromDir area' s₁ role₁ s₂ role₂) (apart : Disjoint area area')
    (other : fromDir ≠ toDir) (known : fromDir ∈ dirs) :
    Copied slots dirs toDir fromDir (area ∪ area') s role s₂ role₂ := by
  refine ⟨(first.worked.mono Set.subset_union_left).trans (second.worked.mono Set.subset_union_right),
    ?_⟩
  intro n inside key
  by_cases earlier : n ∈ area
  · -- copied first: the second part does not touch the page
    have later : ¬ ((toDir, n).1 = toDir ∧ (toDir, n).2 ∈ area') :=
      fun both => Set.disjoint_left.mp apart earlier both.2
    have entry : pteOf s₂ toDir n = pteOf s₁ toDir n := second.worked.entries _ key later
    rcases first.copies n earlier key with ⟨absent, kept⟩ | ⟨there, sole, bits, f, here, same⟩
    · exact .inl ⟨absent, entry.trans kept⟩
    · refine .inr ⟨there, second.sole key (fun both => later ⟨rfl, both⟩) sole, ?_, f, ?_, ?_⟩
      · rw [entry, bits]
      · rw [second.worked.view_eq key later, here]
      · rw [second.worked.content _ key later f here, same]
  · have later := inside.resolve_left earlier
    have key' : (fromDir, n) ∈ keys slots dirs := by
      rw [mem_keys] at key ⊢
      exact ⟨known, key.2⟩
    have elsewhere : ¬ ((fromDir, n).1 = toDir ∧ (fromDir, n).2 ∈ area) := fun both => other both.1
    have source : pteOf s₁ fromDir n = pteOf s fromDir n := first.worked.entries _ key' elsewhere
    have target : pteOf s₁ toDir n = pteOf s toDir n :=
      first.worked.entries (toDir, n) key fun both => earlier both.2
    have copies := second.copies n later key
    rw [source, target] at copies
    refine copies.imp id fun ⟨there, sole, bits, f, here, same⟩ => ⟨there, sole, bits, f, here, ?_⟩
    rw [same]
    exact first.worked.content _ key' elsewhere _ (if_pos there)

/-- Pages without a mapping need no copy. -/
theorem Copied.refl (counted : Counted s slots dirs role)
    (absent : ∀ n ∈ area, ¬ Present (pteOf s fromDir n)) :
    Copied slots dirs toDir fromDir area s role s role :=
  ⟨Worked.refl counted (by simp), fun n inside _ => .inl ⟨absent n inside, rfl⟩⟩

/-- The user bits of an entry survive the copy. -/
theorem pteWord_user {w : ℕ} (there : Present w) :
    pteWord f (w &&& pteUser) &&& pteUser = w &&& pteUser := by
  have one : w &&& pteP = pteP := by
    unfold Present pteP at *
    rw [Nat.and_one_is_mod] at *
    omega
  calc pteWord f (w &&& pteUser) &&& pteUser
      = (f <<< 12 ||| (pteP ||| (w &&& pteUser))) &&& pteUser := by
        rw [pteWord, Nat.or_assoc]
        rfl
    _ = (pteP ||| (w &&& pteUser)) &&& pteUser := Bits.packed_and_low (by decide)
    _ = (pteP &&& pteUser) ||| (w &&& pteUser &&& pteUser) := Nat.and_or_distrib_right ..
    _ = (w &&& pteP) ||| (w &&& pteUser) := by
        rw [one, Nat.and_assoc, Nat.and_self]
        rfl
    _ = w &&& pteUser := by
        rw [← Nat.and_or_distrib_left]
        rfl

section

variable (counted : Counted s slots dirs role) (normal : s.checkMm = none) (known : toDir ∈ dirs)
  (address : la < 2 ^ 32) (slot : pdx la ∈ slots) (sole : Sole slots dirs s (toDir, la / pgSize))
include counted normal known address slot sole

/-- A frame is copied and the copy is mapped. -/
theorem copyPage_worked {page : ℕ} (flags : perm < 2 ^ 12)
    (ran : copyPage policy s toDir la page perm = some (s', enough)) :
    enough = true ∧ ∃ role' f, Worked slots dirs toDir {la / pgSize} s role ∅ s' role' ∅ ∧
      pteOf s' toDir (la / pgSize) = pteWord f perm ∧
      view s' (toDir, la / pgSize) = some f ∧ Sole slots dirs s' (toDir, la / pgSize) ∧
      s'.mem f = s.mem page := by
  have key := page_key known address slot
  simp only [copyPage, bind_eq_bind, bind_eq_some_iff] at ran
  obtain ⟨⟨s₁, taken⟩, allocated, ran⟩ := ran
  rcases allocPage_worked toDir ∅ counted normal allocated with ⟨rfl, rfl⟩ | ⟨f, rfl, was, mem₁, took⟩
  · cases ran
  · simp only [bind_eq_some_iff] at ran
    obtain ⟨⟨s₂, ret⟩, inserted, ran⟩ := ran
    have is : Function.update role f .held f = .held := Function.update_self _ _ _
    have filled : Worked slots dirs toDir ∅ s₁ _ {f} (s₁.fill f (s₁.mem page)) _ {f} :=
      Worked.fill took.counted known is
    have prepared := took.trans filled
    have normal₁ : (s₁.fill f (s₁.mem page)).checkMm = none := by
      rw [prepared.rest]
      exact normal
    have views : ∀ x ∈ keys slots dirs, view (s₁.fill f (s₁.mem page)) x = view s x :=
      fun x member => prepared.view_eq member (by simp)
    rcases pageInsert_worked prepared.counted normal₁ known address slot (Set.mem_singleton _) flags
      is (sole.congr key views) inserted with ⟨failed, rfl⟩ | ⟨role₂, rfl, word, here, same, mapped⟩
    · simp [failed] at ran
    · cases ran
      have worked := (prepared.mono (Set.empty_subset _)).trans mapped
      refine ⟨rfl, role₂, f, worked, word, here, ?_, ?_⟩
      · intro g here' y member there
        by_contra outside
        have mapped := (worked.view_eq member fun inside => outside (Prod.ext inside.1 inside.2)).symm
        rw [there, ← here', here] at mapped
        rw [counted.view_data member mapped] at was
        cases was
      · rw [same, Kernel.fill_mem_self, mem₁]

/-- The body of the loop of `copy_range`. -/
theorem copyPte_copied {t : ℕ} (other : fromDir ≠ toDir) (is : role t = .table fromDir (pdx la))
    (ran : copyPte policy s toDir la (t, ptx la) = some (s', enough)) :
    (enough = false ∧ s' = s) ∨
      enough = true ∧ ∃ role', Copied slots dirs toDir fromDir {la / pgSize} s role s' role' := by
  have source : pteOf s fromDir (la / pgSize) = s.mem t (ptx la) := by
    rw [← pageNumber_eq address, counted.tables.pteOf_table is (ptx_lt la)]
  by_cases there : Present (s.mem t (ptx la))
  · have on : ¬ s.pte (t, ptx la) &&& pteP = 0 := there
    have data := counted.tables.pte t _ _ is _ (ptx_lt la) there
    simp only [copyPte, on, if_false, bind_eq_bind, bind_eq_some_iff] at ran
    obtain ⟨⟨s₁, found⟩, got, ran⟩ := ran
    rcases getPte_worked counted normal known address slot (Set.mem_singleton _) got with
      ⟨rfl, rfl⟩ | ⟨role₁, t', rfl, -, grown, made⟩
    · cases ran
      exact .inl ⟨rfl, rfl⟩
    · have kept : s₁.mem t = s.mem t := by
        refine grown.mem t (by simp [is]) ?_
        rintro rfl
        rw [(counted.tables.directory t).mp known] at is
        cases is
      have word : s₁.pte (t, ptx la) = s.mem t (ptx la) := congrFun kept (ptx la)
      have data₁ : role₁ (frameOf (s.mem t (ptx la))) = .data := by
        rw [grown.kept _ (by simp [data]), data]
      have page : pte2page s₁ (s.mem t (ptx la)) = some (frameOf (s.mem t (ptx la))) := by
        rw [pte2page, if_neg there]
        exact grown.counted.tables.pa2page_eq (by simp [data₁])
      simp only [word, page, bind_some] at ran
      have flags : s.mem t (ptx la) &&& pteUser < 2 ^ 12 :=
        Nat.and_le_right.trans_lt (by decide)
      have normal₁ : s₁.checkMm = none := by rw [made.rest, normal]
      have key := page_key known address slot
      obtain ⟨rfl, role₂, f, worked, entry, here, alone, same⟩ := copyPage_worked grown.counted normal₁
        known address slot (sole.congr key fun y => grown.view_eq) flags ran
      refine .inr ⟨rfl, role₂, made.trans worked, ?_⟩
      rintro n rfl -
      rw [source]
      refine .inr ⟨there, alone, ?_, f, here, ?_⟩
      · rw [entry, pteWord_user there]
      · rw [same, grown.mem _ (by simp [data]) ?_]
        intro dir
        rw [dir, (counted.tables.directory toDir).mp known] at data
        cases data
  · have off : s.pte (t, ptx la) &&& pteP = 0 := not_not.mp there
    simp only [copyPte, off, if_true, some.injEq, Prod.mk.injEq] at ran
    obtain ⟨rfl, rfl⟩ := ran
    refine .inr ⟨rfl, role, Copied.refl counted ?_⟩
    rintro n rfl
    rwa [source]

end

section

variable (user : UserSlots slots) (counted : Counted s slots dirs role) (normal : s.checkMm = none)
  (other : fromDir ≠ toDir) (known : toDir ∈ dirs) (known' : fromDir ∈ dirs)
  (sole : ∀ n ∈ pageRange start stop, Sole slots dirs s (toDir, n))
include user counted normal other known known' sole

/-- The loop of `copy_range` works for `toDir` alone, and if it comes to its end it
has copied all pages ahead of it. -/
theorem copyLoop_copied (aligned : start % pgSize = 0) (ahead : start < stop)
    (top : stop ≤ userTop) (whole : stop % pgSize = 0)
    (ran : copyLoop policy toDir fromDir stop fuel s start = some (s', ret)) :
    ∃ role', Worked slots dirs toDir (pageRange start stop) s role ∅ s' role' ∅ ∧
      (ret = 0 → Copied slots dirs toDir fromDir (pageRange start stop) s role s' role') := by
  induction fuel generalizing s role start with
  | zero => cases ran
  | succ fuel ih =>
    have below : start < userTop := ahead.trans_le top
    have address := user_address below
    have slot := user.pdx_mem below
    -- what is done for `[start, middle)` and then for the rest
    have compose : ∀ {s₁ role₁ middle}, start ≤ middle → middle < stop → middle % pgSize = 0 →
        Copied slots dirs toDir fromDir (pageRange start middle) s role s₁ role₁ →
        copyLoop policy toDir fromDir stop fuel s₁ middle = some (s', ret) →
        ∃ role', Worked slots dirs toDir (pageRange start stop) s role ∅ s' role' ∅ ∧
          (ret = 0 → Copied slots dirs toDir fromDir (pageRange start stop) s role s' role') := by
      intro s₁ role₁ middle later more aligned' copied ran
      have sole₁ : ∀ n ∈ pageRange middle stop, Sole slots dirs s₁ (toDir, n) := by
        intro n inside
        refine copied.sole (user.key known ?_) (Set.disjoint_right.mp pageRange_disjoint inside)
          (sole n ?_)
        · exact inside.2.trans_le (Nat.div_le_div_right top)
        · rw [← pageRange_union later more.le]
          exact .inr inside
      have normal₁ : s₁.checkMm = none := by rw [copied.worked.rest, normal]
      obtain ⟨role', worked, rest⟩ := ih copied.worked.counted normal₁ sole₁ aligned' more ran
      rw [← pageRange_union later more.le]
      exact ⟨role', (copied.worked.mono Set.subset_union_left).trans
        (worked.mono Set.subset_union_right),
        fun zero => copied.trans (rest zero) pageRange_disjoint other known'⟩
    rcases counted.tables.findPte_eq known' address slot with
      ⟨found, absent, -⟩ | ⟨t, is, found, -, -⟩
    · obtain ⟨jump, further, aligned', positive⟩ := skip_slot below aligned
      have hole : ∀ n ∈ pageRange start (nextSlot start), ¬ Present (pteOf s fromDir n) := by
        intro n inside
        rw [hole_absent address absent inside]
        decide
      rw [copyLoop, found, bind_eq_bind, bind_some] at ran
      rw [jump] at ran
      by_cases more : nextSlot start < stop
      · rw [if_pos ⟨positive, more⟩] at ran
        exact compose (Nat.le_of_add_right_le further) more aligned' (Copied.refl counted hole) ran
      · rw [if_neg fun go => more go.2] at ran
        cases ran
        have within := pageRange_mono start (Nat.not_lt.mp more)
        have copied : Copied slots dirs toDir fromDir (pageRange start stop) s' role s' role :=
          Copied.refl counted fun n inside => hole n (within inside)
        exact ⟨role, copied.worked, fun _ => copied⟩
    · obtain ⟨forward, aligned', positive⟩ := next_page below aligned
      have here : start / pgSize ∈ pageRange start stop := page_mem ahead whole
      cases copy : copyPte policy s toDir start (t, ptx start) with
      | none =>
        simp only [copyLoop, found, copy, bind_eq_bind, bind_some, bind_none] at ran
        cases ran
      | some result =>
        obtain ⟨s₁, enough⟩ := result
        rw [copyLoop, found, bind_eq_bind, bind_some] at ran
        dsimp only at ran
        rw [copy, bind_eq_bind, bind_some, forward] at ran
        rcases copyPte_copied counted normal known address slot (sole _ here) other is copy with
          ⟨rfl, rfl⟩ | ⟨rfl, role₁, copied⟩
        · cases ran
          exact ⟨role, Worked.refl counted (by simp), fun zero => by cases zero⟩
        · rw [← pageRange_page] at copied
          rw [if_pos rfl] at ran
          by_cases more : start + pgSize < stop
          · rw [if_pos ⟨positive, more⟩] at ran
            exact compose (Nat.le_add_right _ _) more aligned' copied ran
          · rw [if_neg fun go => more go.2] at ran
            cases ran
            have last : start + pgSize = stop := last_page ahead aligned whole more
            rw [last] at copied
            exact ⟨role₁, copied.worked, fun _ => copied⟩

theorem copyRange_copied (ran : copyRange policy s toDir fromDir start stop = some (s', ret)) :
    ∃ role', Worked slots dirs toDir (pageRange start stop) s role ∅ s' role' ∅ ∧
      (ret = 0 → Copied slots dirs toDir fromDir (pageRange start stop) s role s' role') := by
  rw [copyRange] at ran
  split at ran
  · rename_i ok
    obtain ⟨aligned, whole, -, ahead, top⟩ := ok
    exact copyLoop_copied user counted normal other known known' sole aligned ahead top whole ran
  · cases ran

end

end LiNos.Paging
