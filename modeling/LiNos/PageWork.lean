import LiNos.PageRefs

/-!
Work on behalf of one directory.

Whatever the kernel does to build an address space, it takes free frames and
turns them into tables and pages of that space, and it gives frames of that
space back. `Worked` says so in a form that composes: the frames that are free
or belong to the directory are the same set before and after, the others are
untouched, and pages outside of `area` keep their entries and contents. Frames
that were allocated and are not mapped yet are in `hand`.
-/

namespace LiNos.Paging

open Tally Function

variable {s s' s₁ s₂ : Kernel} {slots dirs : Finset ℕ} {role role' role₁ role₂ : ℕ → Role}
  {area : Set ℕ} {hand hand' hand₁ : Set ℕ} {d f i la n perm : ℕ} {x : ℕ × ℕ}

/-- The frame is the directory, one of its tables, or mapped in it. -/
def OwnedBy (slots dirs : Finset ℕ) (s : Kernel) (role : ℕ → Role) (d f : ℕ) : Prop :=
  f = d ∨ (∃ i, role f = .table d i) ∨ ∃ n, (d, n) ∈ keys slots dirs ∧ view s (d, n) = some f

/-- No frame is mapped twice. -/
def Private (slots dirs : Finset ℕ) (s : Kernel) : Prop :=
  ∀ x ∈ keys slots dirs, ∀ y ∈ keys slots dirs, ∀ f, view s x = some f → view s y = some f → x = y

/-- No page is swapped out. -/
def Clean (slots dirs : Finset ℕ) (s : Kernel) : Prop :=
  ∀ x ∈ keys slots dirs, pteOf s x.1 x.2 = 0 ∨ Present (pteOf s x.1 x.2)

theorem Private.congr (alone : Private slots dirs s)
    (views : ∀ x ∈ keys slots dirs, view s' x = view s x) : Private slots dirs s' :=
  fun x left y right f here there =>
    alone x left y right f (views x left ▸ here) (views y right ▸ there)

theorem Clean.congr (clean : Clean slots dirs s)
    (entries : ∀ x ∈ keys slots dirs, pteOf s' x.1 x.2 = pteOf s x.1 x.2) : Clean slots dirs s' :=
  fun x key => entries x key ▸ clean x key

/-- The frames that work for directory `d` may use. -/
def Domain (slots dirs : Finset ℕ) (s : Kernel) (role : ℕ → Role) (d : ℕ) (hand : Set ℕ) (f : ℕ) :
    Prop :=
  role f = .free ∨ OwnedBy slots dirs s role d f ∨ f ∈ hand

/-- What work for the directory `d` in the pages `area` may do. -/
structure Worked (slots dirs : Finset ℕ) (d : ℕ) (area : Set ℕ) (s : Kernel) (role : ℕ → Role)
    (hand : Set ℕ) (s' : Kernel) (role' : ℕ → Role) (hand' : Set ℕ) : Prop where
  counted : Counted s' slots dirs role'
  held : ∀ f ∈ hand', role' f = .held
  domain : ∀ f, Domain slots dirs s' role' d hand' f ↔ Domain slots dirs s role d hand f
  fixed : ∀ f, ¬ Domain slots dirs s role d hand f → role' f = role f ∧ s'.mem f = s.mem f
  entries : ∀ x ∈ keys slots dirs, ¬ (x.1 = d ∧ x.2 ∈ area) → pteOf s' x.1 x.2 = pteOf s x.1 x.2
  content : ∀ x ∈ keys slots dirs, ¬ (x.1 = d ∧ x.2 ∈ area) →
    ∀ f, view s x = some f → s'.mem f = s.mem f
  slot : ∀ i, s'.mem d i = s.mem d i ∨ ∃ n ∈ area, n / 1024 = i
  alone : Private slots dirs s → Private slots dirs s'
  clean : Clean slots dirs s → Clean slots dirs s'
  rest : s' = { s with mem := s'.mem, ref := s'.ref, free := s'.free }

theorem Worked.refl (counted : Counted s slots dirs role) (held : ∀ f ∈ hand, role f = .held) :
    Worked slots dirs d area s role hand s role hand :=
  ⟨counted, held, fun _ => Iff.rfl, fun _ _ => ⟨rfl, rfl⟩, fun _ _ _ => rfl, fun _ _ _ _ _ => rfl,
    fun _ => .inl rfl, id, id, rfl⟩

theorem Worked.view_eq (worked : Worked slots dirs d area s role hand s' role' hand')
    (key : x ∈ keys slots dirs) (outside : ¬ (x.1 = d ∧ x.2 ∈ area)) : view s' x = view s x :=
  view_congr (worked.entries x key outside)

theorem Worked.trans (first : Worked slots dirs d area s role hand s₁ role₁ hand₁)
    (second : Worked slots dirs d area s₁ role₁ hand₁ s₂ role₂ hand') :
    Worked slots dirs d area s role hand s₂ role₂ hand' := by
  refine ⟨second.counted, second.held, fun f => (second.domain f).trans (first.domain f), ?_, ?_, ?_, ?_,
    second.alone ∘ first.alone, second.clean ∘ first.clean, by rw [second.rest, first.rest]⟩
  · intro f outside
    obtain ⟨role₁_eq, mem₁⟩ := first.fixed f outside
    obtain ⟨role₂_eq, mem₂⟩ := second.fixed f (mt (first.domain f).mp outside)
    exact ⟨role₂_eq.trans role₁_eq, mem₂.trans mem₁⟩
  · intro x key outside
    rw [second.entries x key outside, first.entries x key outside]
  · intro x key outside f mapped
    rw [second.content x key outside f ((first.view_eq key outside).trans mapped),
      first.content x key outside f mapped]
  · intro i
    rcases second.slot i with same | inside
    · exact same ▸ first.slot i
    · exact .inr inside

theorem Worked.mono {area' : Set ℕ} (worked : Worked slots dirs d area s role hand s' role' hand')
    (wider : area ⊆ area') : Worked slots dirs d area' s role hand s' role' hand' :=
  { worked with
    entries x key outside := worked.entries x key fun inside => outside ⟨inside.1, wider inside.2⟩
    content x key outside := worked.content x key fun inside => outside ⟨inside.1, wider inside.2⟩
    slot i := (worked.slot i).imp id fun ⟨n, inside, same⟩ => ⟨n, wider inside, same⟩ }

/-! ## The steps -/

/-- Who owns a frame depends on the map and on the tables only. -/
theorem OwnedBy.congr (views : ∀ n, (d, n) ∈ keys slots dirs → view s' (d, n) = view s (d, n))
    (tables : ∀ i, role' f = .table d i ↔ role f = .table d i) :
    OwnedBy slots dirs s' role' d f ↔ OwnedBy slots dirs s role d f := by
  unfold OwnedBy
  simp only [tables]
  refine or_congr_right (or_congr_right (exists_congr fun n => and_congr_right fun key => ?_))
  rw [views n key]

section

variable (counted : Counted s slots dirs role)

include counted

/-- A free frame is taken. -/
theorem Worked.take (member : f ∈ s.free) :
    Worked slots dirs d area s role ∅ { s with free := s.free.erase f }
      (update role f .held) {f} := by
  have was := (counted.tables.free f).mp member
  refine ⟨counted.take member, by simp, fun g => ?_, fun g outside => ?_, fun _ _ _ => rfl,
    fun _ _ _ _ _ => rfl, fun _ => .inl rfl, id, id, rfl⟩
  · have same : OwnedBy slots dirs { s with free := s.free.erase f } (update role f .held) d g
        ↔ OwnedBy slots dirs s role d g :=
      OwnedBy.congr (fun _ _ => rfl) fun i => by grind [update_apply]
    by_cases here : g = f
    · simp [Domain, here, was]
    · simp [Domain, same, here]
  · exact ⟨update_of_ne (by grind [Domain]) _ _, rfl⟩

/-- A frame in hand is given back. -/
theorem Worked.give (is : role f = .held) :
    ∃ s', freePage s f = some s' ∧
      Worked slots dirs d area s role {f} s' (update role f .free) ∅ := by
  obtain ⟨s', ran, counted', rfl⟩ := counted.give_back is
  refine ⟨_, ran, counted', by simp, fun g => ?_, fun g outside => ?_, fun _ _ _ => rfl,
    fun _ _ _ _ _ => rfl, fun _ => .inl rfl, id, id, rfl⟩
  · have same : OwnedBy slots dirs { s with free := insert f s.free, ref := update s.ref f 0 }
        (update role f .free) d g ↔ OwnedBy slots dirs s role d g :=
      OwnedBy.congr (fun _ _ => rfl) fun i => by grind [update_apply]
    by_cases here : g = f
    · simp [Domain, here]
    · simp [Domain, same, here]
  · have other : g ≠ f := fun same => outside (.inr (.inr same))
    exact ⟨update_of_ne other _ _, rfl⟩

/-- A frame that is no table is written; no page outside of the area is in it. -/
theorem Worked.rewrite (known : d ∈ dirs)
    (held : ∀ f ∈ hand, role f = .held) (plain : ¬ (role f).Structural)
    (mine : Domain slots dirs s role d hand f)
    (away : ∀ x ∈ keys slots dirs, ¬ (x.1 = d ∧ x.2 ∈ area) → view s x ≠ some f)
    (others : ∀ g, g ≠ f → s'.mem g = s.mem g) (rest : s' = { s with mem := s'.mem }) :
    Worked slots dirs d area s role hand s' role hand := by
  have mem : ∀ g, (role g).Structural → s'.mem g = s.mem g :=
    fun g structural => others g (by rintro rfl; exact plain structural)
  have entries : ∀ x ∈ keys slots dirs, pteOf s' x.1 x.2 = pteOf s x.1 x.2 :=
    fun x key => counted.tables.entries_congr mem key
  have views : ∀ x ∈ keys slots dirs, view s' x = view s x := fun x key => view_congr (entries x key)
  refine ⟨counted.congr (by rw [rest]) (by rw [rest]) (by rw [rest]) mem, held, fun g => ?_,
    fun g outside => ⟨rfl, others g (by rintro rfl; exact outside mine)⟩, fun x key _ => entries x key, ?_,
    fun i => ?_, fun alone => alone.congr views, fun clean => clean.congr entries, by rw [rest]⟩
  · exact or_congr_right (or_congr_left (OwnedBy.congr (fun n key => views _ key) fun _ => Iff.rfl))
  · exact fun x key outside g mapped => others g (by rintro rfl; exact away x key outside mapped)
  · exact .inl (congrFun (mem d (.inl ((counted.tables.directory d).mp known))) i)

/-- A frame in hand is written. -/
theorem Worked.fill {words : ℕ → ℕ} (known : d ∈ dirs)
    (is : role f = .held) :
    Worked slots dirs d area s role {f} (s.fill f words) role {f} := by
  refine .rewrite counted known (by simp [is]) (is ▸ held_notStructural) (.inr (.inr rfl)) ?_
    (fun g other => Kernel.fill_mem_other other) rfl
  intro x key _ mapped
  cases is.symm.trans (counted.view_data key mapped)

/-- A page that shares its frame with no other is written by its owner. -/
theorem Worked.store {j w : ℕ} (known : d ∈ dirs)
    (key : (d, n) ∈ keys slots dirs) (mapped : view s (d, n) = some f)
    (sole : ∀ y ∈ keys slots dirs, view s y = some f → y = (d, n)) (inside : n ∈ area)
    (held : ∀ f ∈ hand, role f = .held) :
    Worked slots dirs d area s role hand (s.poke f j w) role hand := by
  refine .rewrite counted known held (counted.view_data key mapped ▸ data_notStructural)
    (.inr (.inl (.inr (.inr ⟨n, key, mapped⟩)))) ?_ (fun g other => Kernel.poke_mem_other other) rfl
  intro x member outside here
  obtain rfl := sole x member here
  exact outside ⟨rfl, inside⟩

end

/-- `get_pte` takes a frame for a table, if any. -/
theorem Grown.worked (grown : Grown slots dirs s role s' role' d i)
    (counted : Counted s slots dirs role) (known : d ∈ dirs) (held : ∀ f ∈ hand, role f = .held)
    (inside : ∃ n ∈ area, n / 1024 = i) :
    Worked slots dirs d area s role hand s' role' hand := by
  have views : ∀ x ∈ keys slots dirs, view s' x = view s x := fun x key => grown.view_eq key
  have directory := (counted.tables.directory d).mp known
  refine ⟨grown.counted, ?_, ?_, ?_, fun x key _ => grown.entries x key, ?_, ?_,
    fun alone => alone.congr views, fun clean => clean.congr grown.entries, grown.rest⟩
  · intro f member
    rw [grown.kept f (by simp [held f member]), held f member]
  · intro f
    by_cases free : role f = .free
    · exact iff_of_true ((grown.used f free).imp id fun table => .inl (.inr (.inl ⟨i, table⟩))) (.inl free)
    · have kept := grown.kept f free
      have same : OwnedBy slots dirs s' role' d f ↔ OwnedBy slots dirs s role d f :=
        OwnedBy.congr (fun n key => views _ key) fun i => by rw [kept]
      simp only [Domain, same, kept]
  · intro f outside
    have used : role f ≠ .free := fun free => outside (.inl free)
    exact ⟨grown.kept f used, grown.mem f used fun same => outside (.inr (.inl (.inl same)))⟩
  · intro x key _ f mapped
    have data := counted.view_data key mapped
    exact grown.mem f (by simp [data]) (by grind)
  · intro k
    by_cases same : k = i
    · exact .inr (same ▸ inside)
    · exact .inl (grown.dir k same)

/-- No other page is mapped to the frame of page `x`. -/
def Sole (slots dirs : Finset ℕ) (s : Kernel) (x : ℕ × ℕ) : Prop :=
  ∀ f, view s x = some f → ∀ y ∈ keys slots dirs, view s y = some f → y = x

theorem Private.sole (alone : Private slots dirs s) (key : x ∈ keys slots dirs) :
    Sole slots dirs s x :=
  fun f here y other there => alone y other x key f there here

/-- The domain when mappings go and roles change only between data and free. -/
theorem Domain.drop (gone : Set (ℕ × ℕ)) (counted : Counted s slots dirs role)
    (counted' : Counted s' slots dirs role') (own : ∀ x ∈ gone, x.1 = d) (sole : ∀ x ∈ gone, Sole slots dirs s x)
    (keep : f ∉ hand ∪ hand')
    (removed : ∀ x ∈ keys slots dirs, x ∈ gone → view s' x ≠ some f)
    (kept : ∀ x ∈ keys slots dirs, x ∉ gone → view s' x = view s x)
    (used : role f ≠ .data → role' f = role f)
    (data : role f = .data → role' f = .data ∨ role' f = .free) :
    Domain slots dirs s' role' d hand' f ↔ Domain slots dirs s role d hand f := by
  obtain ⟨notLeft, notRight⟩ : f ∉ hand ∧ f ∉ hand' := not_or.mp keep
  by_cases is : role f = .data
  · constructor
    · rintro (free | (rfl | ⟨i, table⟩ | ⟨n, key, here⟩) | inHand)
      · obtain ⟨⟨d', n⟩, key, here⟩ := counted.mapped f is
        by_cases member : (d', n) ∈ gone
        · obtain rfl := own _ member
          exact .inr (.inl (.inr (.inr ⟨n, key, here⟩)))
        · cases free.symm.trans (counted'.view_data key ((kept _ key member).trans here))
      · exact .inr (.inl (.inl rfl))
      · rcases data is with same | same <;> simp [same] at table
      · rw [kept _ key fun member => removed _ key member here] at here
        exact .inr (.inl (.inr (.inr ⟨n, key, here⟩)))
      · exact absurd inHand notRight
    · rintro (free | (rfl | ⟨i, table⟩ | ⟨n, key, here⟩) | inHand)
      · cases is.symm.trans free
      · exact .inr (.inl (.inl rfl))
      · cases is.symm.trans table
      · by_cases member : (d, n) ∈ gone
        · -- the frame lost its only mapping
          refine .inl ((data is).resolve_left fun still => ?_)
          obtain ⟨y, key', there⟩ := counted'.mapped f still
          have outside : y ∉ gone := fun member' => removed y key' member' there
          rw [kept y key' outside] at there
          exact outside (sole _ member f here y key' there ▸ member)
        · exact .inr (.inl (.inr (.inr ⟨n, key, (kept _ key member).trans here⟩)))
      · exact absurd inHand notLeft
  · have same := used is
    have owned : OwnedBy slots dirs s' role' d f ↔ OwnedBy slots dirs s role d f := by
      unfold OwnedBy
      rw [same]
      refine or_congr_right (or_congr_right ⟨fun ⟨n, key, here⟩ => ?_, fun ⟨n, key, here⟩ => ?_⟩)
      · exact absurd (same ▸ counted'.view_data key here) is
      · exact absurd (counted.view_data key here) is
    simp only [Domain, owned, same, notLeft, notRight]

/-- A role that changes between data and free stays outside of the domain. -/
theorem Domain.fixed (domain : Domain slots dirs s' role' d hand' f ↔ Domain slots dirs s role d hand f)
    (outside : ¬ Domain slots dirs s role d hand f) (used : role f ≠ .data → role' f = role f)
    (data : role f = .data → role' f = .data ∨ role' f = .free) : role' f = role f := by
  by_cases is : role f = .data
  · rcases data is with still | freed
    · rw [still, is]
    · exact absurd (domain.mp (.inl freed)) outside
  · exact used is

/-- A frame in hand is mapped; the frame that was mapped there goes. -/
theorem Inserted.worked (inserted : Inserted slots dirs s role s' role' (d, n) f (pteWord f perm))
    (counted : Counted s slots dirs role) (known : d ∈ dirs) (flags : perm < 2 ^ 12)
    (is : role f = .held) (key : (d, n) ∈ keys slots dirs) (inside : n ∈ area)
    (sole : Sole slots dirs s (d, n)) :
    Worked slots dirs d area s role {f} s' role' ∅ := by
  have here := inserted.view_here flags
  have kept : ∀ x ∈ keys slots dirs, x ≠ (d, n) → view s' x = view s x :=
    fun x member other => view_congr (inserted.kept x member other)
  have unmapped : ∀ x ∈ keys slots dirs, view s x ≠ some f := by
    intro x member mapped
    cases is.symm.trans (counted.view_data member mapped)
  have domain : ∀ g, Domain slots dirs s' role' d ∅ g ↔ Domain slots dirs s role d {f} g := by
    intro g
    by_cases same : g = f
    · subst same
      exact iff_of_true (.inr (.inl (.inr (.inr ⟨n, key, here⟩)))) (.inr (.inr rfl))
    · refine Domain.drop {(d, n)} counted inserted.counted ?_ ?_ (by simp [same]) ?_
        (fun x member other => kept x member other) (inserted.used g same) (inserted.data g)
      · rintro x rfl
        rfl
      · rintro x rfl
        exact sole
      · rintro x - rfl mapped
        exact same (Option.some.inj (here.symm.trans mapped)).symm
  have directory := (counted.tables.directory d).mp known
  refine ⟨inserted.counted, by simp, domain, fun g outside => ⟨?_, inserted.mem g fun i is => ?_⟩, ?_, ?_,
    fun i => .inl (congrFun (inserted.mem d (by simp [directory])) i), ?_, ?_, inserted.rest⟩
  · have other : g ≠ f := fun same => outside (.inr (.inr same))
    exact Domain.fixed (domain g) outside (inserted.used g other) (inserted.data g)
  · exact outside (.inr (.inl (.inr (.inl ⟨i, is⟩))))
  · exact fun x member outside => inserted.kept x member (by rintro rfl; exact outside ⟨rfl, inside⟩)
  · intro x member _ g mapped
    exact inserted.mem g (by simp [counted.view_data member mapped])
  · intro alone x left y right g
    have apart := alone x left y right g
    have first := kept x left
    have second := kept y right
    have new := unmapped x left
    have new' := unmapped y right
    by_cases one : x = (d, n) <;> by_cases two : y = (d, n) <;> grind
  · intro clean x member
    have before := clean x member
    have there := present_of_view here
    have entry := inserted.kept x member
    by_cases same : x = (d, n) <;> grind

/-- Mappings of pages that share no frame with others go. -/
theorem Unmapped.worked {gone : Set (ℕ × ℕ)} (unmapped : Unmapped slots dirs s role s' role' gone)
    (counted : Counted s slots dirs role) (known : d ∈ dirs) (held : ∀ f ∈ hand, role f = .held)
    (within : ∀ x ∈ gone, x.1 = d ∧ x.2 ∈ area) (sole : ∀ x ∈ gone, Sole slots dirs s x) :
    Worked slots dirs d area s role hand s' role' hand := by
  have domain : ∀ f, Domain slots dirs s' role' d hand f ↔ Domain slots dirs s role d hand f := by
    intro f
    by_cases member : f ∈ hand
    · exact iff_of_true (.inr (.inr member)) (.inr (.inr member))
    · refine Domain.drop gone counted unmapped.counted (fun x inside => (within x inside).1) sole
        (by simp [member]) ?_ (fun x key outside => (unmapped.view_eq key).2 outside)
        (unmapped.used f) (unmapped.data f)
      intro x key inside mapped
      cases ((unmapped.view_eq key).1 inside).symm.trans mapped
  have mem : ∀ f, (∀ i, role f ≠ .table d i) → s'.mem f = s.mem f := fun f notTable =>
    unmapped.mem f fun x inside => (within x inside).1 ▸ notTable
  have directory := (counted.tables.directory d).mp known
  refine ⟨unmapped.counted, fun f member => ?_, domain, fun f outside => ⟨?_, mem f fun i is => ?_⟩,
    fun x key outside => unmapped.kept x key fun inside => outside (within x inside),
    fun x key _ f mapped => mem f (by simp [counted.view_data key mapped]),
    fun i => .inl (congrFun (mem d (by simp [directory])) i), ?_, ?_, unmapped.rest⟩
  · rw [unmapped.used f (by simp [held f member]), held f member]
  · exact Domain.fixed (domain f) outside (unmapped.used f) (unmapped.data f)
  · exact outside (.inr (.inl (.inr (.inl ⟨i, is⟩))))
  · intro alone x left y right f
    have apart := alone x left y right f
    have first := unmapped.view_eq left
    have second := unmapped.view_eq right
    grind
  · intro clean x key
    have before := clean x key
    have gone := unmapped.removed x key
    have stays := unmapped.kept x key
    grind [dropped]

/-! ## The functions that allocate -/

section Functions

variable {policy : Policy}

theorem Sole.congr (sole : Sole slots dirs s x) (key : x ∈ keys slots dirs)
    (views : ∀ y ∈ keys slots dirs, view s' y = view s y) : Sole slots dirs s' x :=
  fun f here y other there => sole f (views x key ▸ here) y other (views y other ▸ there)

theorem page_key (known : d ∈ dirs) (address : la < 2 ^ 32) (slot : pdx la ∈ slots) :
    (d, la / pgSize) ∈ keys slots dirs := by
  rw [mem_keys, ← pdx_eq address]
  refine ⟨known, ?_, slot⟩
  unfold pageCount pgSize
  omega

theorem allocPage_worked (d : ℕ) (area : Set ℕ) {page : Option ℕ} (counted : Counted s slots dirs role)
    (normal : s.checkMm = none) (ran : allocPage policy s = some (s', page)) :
    (page = none ∧ s' = s) ∨ ∃ f, page = some f ∧ role f = .free ∧ s'.mem = s.mem ∧
      Worked slots dirs d area s role ∅ s' (update role f .held) {f} := by
  rcases allocPage_cases policy normal with ⟨f, member, took⟩ | ⟨-, nothing⟩
  · cases took.symm.trans ran
    exact .inr ⟨f, rfl, (counted.tables.free f).mp member, rfl, Worked.take counted member⟩
  · rw [nothing] at ran
    split_ifs at ran
    cases ran
    exact .inl ⟨rfl, rfl⟩

section

variable (counted : Counted s slots dirs role) (normal : s.checkMm = none) (known : d ∈ dirs)
  (address : la < 2 ^ 32) (slot : pdx la ∈ slots) (inside : la / pgSize ∈ area)
include counted normal known address slot inside

theorem getPte_worked {found : Option PtePtr} (ran : getPte policy s d la = some (s', found)) :
    (found = none ∧ s' = s) ∨ ∃ role' t, found = some (t, ptx la) ∧ role' t = .table d (pdx la) ∧
      Grown slots dirs s role s' role' d (pdx la) ∧
      Worked slots dirs d area s role ∅ s' role' ∅ := by
  rcases getPte_spec counted known slot policy normal with
    ⟨-, nothing⟩ | ⟨s₁, role₁, t, came, is, grown⟩
  · rw [nothing] at ran
    split_ifs at ran
    cases ran
    exact .inl ⟨rfl, rfl⟩
  · cases came.symm.trans ran
    exact .inr ⟨role₁, t, rfl, is, grown, grown.worked counted known (by simp)
      ⟨_, inside, (pdx_eq address).symm⟩⟩

theorem pageInsert_worked {ret : ℤ} (flags : perm < 2 ^ 12) (is : role f = .held)
    (sole : Sole slots dirs s (d, la / pgSize))
    (ran : pageInsert policy s d f la perm = some (s', ret)) :
    (ret ≠ 0 ∧ s' = s) ∨ ∃ role', ret = 0 ∧ pteOf s' d (la / pgSize) = pteWord f perm ∧
      view s' (d, la / pgSize) = some f ∧ s'.mem f = s.mem f ∧ Worked slots dirs d area s role {f} s' role' ∅ := by
  rcases pageInsert_spec policy counted normal known address slot flags (.inl is) with
    ⟨-, nothing⟩ | ⟨s₁, role₁, s₂, role₂, came, grown, inserted⟩
  · rw [nothing] at ran
    split_ifs at ran
    cases ran
    exact .inl ⟨by decide, rfl⟩
  · cases came.symm.trans ran
    have key := page_key known address slot
    have directory := (counted.tables.directory d).mp known
    have is₁ : role₁ f = .held := by rw [grown.kept f (by simp [is]), is]
    have first : Worked slots dirs d area s role {f} s₁ role₁ {f} :=
      grown.worked counted known (by simp [is]) ⟨_, inside, (pdx_eq address).symm⟩
    have second : Worked slots dirs d area s₁ role₁ {f} s' role₂ ∅ := inserted.worked grown.counted
      known flags is₁ key inside (sole.congr key fun y => grown.view_eq)
    refine .inr ⟨role₂, rfl, inserted.here, inserted.view_here flags, ?_, first.trans second⟩
    rw [inserted.mem f (by simp [is₁]), grown.mem f (by simp [is]) (by grind)]

end

theorem trackPage_normal (normal : s.checkMm = none) : trackPage s la f = some (s, some f) := by
  rw [trackPage, normal]
  cases s.swapInitOk <;> rfl

theorem pgdirAllocPage_worked {page : Option ℕ} (counted : Counted s slots dirs role)
    (normal : s.checkMm = none) (known : d ∈ dirs) (address : la < 2 ^ 32) (slot : pdx la ∈ slots)
    (inside : la / pgSize ∈ area) (flags : perm < 2 ^ 12) (alone : Private slots dirs s)
    (ran : pgdirAllocPage policy s d la perm = some (s', page)) :
    ∃ role', Worked slots dirs d area s role ∅ s' role' ∅ := by
  simp only [pgdirAllocPage, Option.bind_eq_bind, Option.bind_eq_some_iff] at ran
  obtain ⟨⟨s₁, taken⟩, allocated, ran⟩ := ran
  rcases allocPage_worked d area counted normal allocated with ⟨rfl, rfl⟩ | ⟨f, rfl, -, -, took⟩
  · cases ran
    exact ⟨role, Worked.refl counted (by simp)⟩
  · have normal₁ : s₁.checkMm = none := by rw [took.rest, normal]
    have key := page_key known address slot
    have is : update role f .held f = .held := update_self _ _ _
    simp only [Option.bind_eq_some_iff] at ran
    obtain ⟨⟨s₂, ret⟩, inserted, ran⟩ := ran
    rcases pageInsert_worked took.counted normal₁ known address slot inside flags is
      ((took.alone alone).sole key) inserted with ⟨failed, rfl⟩ | ⟨role₂, rfl, -, -, -, mapped⟩
    · obtain ⟨s₃, freed, gave⟩ := Worked.give took.counted is
      simp only [failed, if_false, freed, Option.bind_some] at ran
      cases ran
      exact ⟨_, took.trans gave⟩
    · have normal₂ : s₂.checkMm = none := by rw [mapped.rest, normal₁]
      rw [if_pos rfl, trackPage_normal normal₂] at ran
      cases ran
      exact ⟨role₂, took.trans mapped⟩

end Functions

end LiNos.Paging
