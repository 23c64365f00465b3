import ThreadKernel.Registry.Machine

/-! The group of a page, and the pages that `fork` hands out.

The procs that are not free and point at a page form the group its registry is about.
A page that `fork` has just given to an entry is that entry's alone until it is
published, and no page handed out later is in use: both hold after every run of moves,
whatever rule they keep. -/
namespace ThreadKernel

open Registry Function

/-- What the registry of page `a` ought to know of an entry. -/
def Entry.view (x : Entry) (a : Page) : Option (View Index) :=
  if x.phase ≠ .free ∧ x.share = some a then some ⟨x.phase.isLive, x.order, x.master⟩ else none

namespace Entry

variable {x : Entry} {a : Page}

theorem view_none_of_free (h : x.phase = .free) : x.view a = none := by
  simp [view, h]

theorem view_none_of_share (h : x.share ≠ some a) : x.view a = none := by
  simp [view, h]

theorem view_none_of_ne {b : Page} (h : x.share = some a) (hne : b ≠ a) : x.view b = none :=
  view_none_of_share fun hb => hne (Option.some.inj (hb.symm.trans h))

theorem view_of_share (hp : x.phase ≠ .free) (h : x.share = some a) :
    x.view a = some ⟨x.phase.isLive, x.order, x.master⟩ := by
  simp [view, hp, h]

end Entry

theorem Phase.ne_free_of_live {p : Phase} (h : p.isLive = true) : p ≠ .free := by
  rintro rfl
  cases h

theorem Phase.ne_free_of_embryo {p : Phase} (h : p.isEmbryo = true) : p ≠ .free := by
  rintro rfl
  cases h

theorem Phase.not_live_of_embryo {p : Phase} (h : p.isEmbryo = true) : p.isLive = false := by
  cases p <;> simp_all [Phase.isEmbryo, Phase.isLive]

theorem Phase.not_live_of_setUp {p : Phase} (h : p.isEmbryo = true ∨ p = .free) : p.isLive = false := by
  rcases h with h | rfl
  · exact Phase.not_live_of_embryo h
  · rfl

namespace Table

def group (t : Table) (a : Page) : Group Slot Index := fun q => (t.entry q).view a

def Alive (t : Table) (a : Page) : Prop := ∃ q, t.Member q a

variable {t t' : Table} {p q : Slot} {x : Entry} {a b : Page} {r : Reg}

theorem active_iff {v : View Index} : (t.group a).Active q v ↔
    t.Member q a ∧ v = ⟨true, (t.entry q).order, (t.entry q).master⟩ := by
  unfold Group.Active group Entry.view Member Live
  constructor
  · rintro ⟨hv, hlive⟩
    split at hv
    · rename_i h
      obtain rfl := Option.some.inj hv
      exact ⟨⟨hlive, h.2⟩, by rw [← hlive]⟩
    · cases hv
  · rintro ⟨⟨hlive, hshare⟩, rfl⟩
    rw [if_pos ⟨Phase.ne_free_of_live hlive, hshare⟩, hlive]
    exact ⟨rfl, rfl⟩

theorem Member.active (h : t.Member q a) :
    (t.group a).Active q ⟨true, (t.entry q).order, (t.entry q).master⟩ :=
  active_iff.mpr ⟨h, rfl⟩

theorem member_of_live {m : Stage} (h : (t.entry p).phase = .live m) (ha : (t.entry p).share = some a) :
    t.Member p a :=
  ⟨by rw [Live, h]; rfl, ha⟩

theorem Member.ne_of_page (h : t.Member q b) (hp : (t.entry p).share = some a) (hne : b ≠ a) :
    q ≠ p := by
  rintro rfl
  exact hne (Option.some.inj (h.2.symm.trans hp))

theorem group_set : (t.set p x).group a = update (t.group a) p (x.view a) := by
  funext q
  simp only [group, set_entry, update_apply]
  split <;> rfl

/-- An entry that neither was in the group nor is makes no difference. -/
theorem group_set_outside (h : (t.entry p).view a = none) (hx : x.view a = none) :
    (t.set p x).group a = t.group a := by
  rw [group_set, hx, ← h]
  exact update_eq_self p (t.group a)

theorem alive_congr (h : t'.group a = t.group a) : t'.Alive a ↔ t.Alive a := by
  have : ∀ {t₁ t₂ : Table}, t₁.group a = t₂.group a → t₁.Alive a → t₂.Alive a := by
    rintro t₁ t₂ hg ⟨q, hq⟩
    have := hq.active
    rw [hg] at this
    exact ⟨q, (active_iff.mp this).1⟩
  exact ⟨this h, this h.symm⟩

theorem member_set : (t.set p x).Member q a ↔
    (q = p ∧ x.phase.isLive = true ∧ x.share = some a) ∨ (q ≠ p ∧ t.Member q a) := by
  unfold Member Live
  rw [set_entry]
  by_cases h : q = p
  · simp [h]
  · simp [h]

theorem member_set_of_ne (h : q ≠ p) : (t.set p x).Member q a ↔ t.Member q a := by
  unfold Member Live
  rw [set_entry, if_neg h]

end Table

/-- A page `fork` has just handed out belongs to one entry, and pages are not reused. -/
structure Pages (t : Table) : Prop where
  own : ∀ {q}, (t.entry q).phase = .paged →
    ∃ a, (t.entry q).share = some a ∧ ∀ q', q' ≠ q → (t.entry q').share ≠ some a
  fresh : ∀ {q a}, (t.entry q).share = some a → a < t.next

namespace Pages

open Table

variable {t t' : Table} {q np : Slot} {x : Entry} {a : Page}

/-- A page that `fork` is setting up is nobody else's. -/
theorem alone (hp : Pages t) (hnp : (t.entry np).phase = .paged) (hshare : (t.entry np).share = some a)
    (hq : q ≠ np) : (t.entry q).share ≠ some a := by
  obtain ⟨b, hb, hown⟩ := hp.own hnp
  obtain rfl := Option.some.inj (hb.symm.trans hshare)
  exact hown q hq

/-- The page of a proc that is past that is not a new one. -/
theorem not_new (hp : Pages t) (hq : (t.entry q).phase ≠ .paged) (hshare : (t.entry q).share = some a) :
    a ≠ t.next ∧ ∀ {np}, (t.entry np).phase = .paged → (t.entry np).share ≠ some a := by
  refine ⟨Nat.ne_of_lt (hp.fresh hshare), fun {np} hnp hnpa => hp.alone hnp hnpa ?_ hshare⟩
  rintro rfl
  exact hq hnp

theorem not_new_of_member (hp : Pages t) (hq : t.Member q a) :
    a ≠ t.next ∧ ∀ {np}, (t.entry np).phase = .paged → (t.entry np).share ≠ some a := by
  refine hp.not_new (fun h => ?_) hq.2
  have hlive := hq.1
  rw [Live, h] at hlive
  cases hlive

/-- A step that gives no entry a page it had not, and lets none become `paged`. -/
theorem shrink (hp : Pages t) (hnext : t.next ≤ t'.next)
    (hshare : ∀ q, (t'.entry q).share = (t.entry q).share ∨ (t'.entry q).share = none)
    (hphase : ∀ q, (t'.entry q).phase = .paged →
      (t.entry q).phase = .paged ∧ (t'.entry q).share = (t.entry q).share) : Pages t' where
  own := fun {q} hq => by
    obtain ⟨hpaged, hsame⟩ := hphase q hq
    obtain ⟨a, ha, hother⟩ := hp.own hpaged
    refine ⟨a, by rw [hsame, ha], fun q' hq' => ?_⟩
    rcases hshare q' with h | h
    · rw [h]
      exact hother q' hq'
    · rw [h]
      simp
  fresh := fun {q a} hq => by
    rcases hshare q with h | h
    · rw [h] at hq
      exact Nat.lt_of_lt_of_le (hp.fresh hq) hnext
    · rw [h] at hq
      cases hq

theorem set (hp : Pages t) (hshare : x.share = (t.entry np).share ∨ x.share = none)
    (hphase : x.phase = .paged → (t.entry np).phase = .paged ∧ x.share = (t.entry np).share) :
    Pages (t.set np x) := by
  refine hp.shrink (Nat.le_refl _) (fun q => ?_) (fun q => ?_)
  · rw [set_entry]
    split
    · rename_i h
      rw [h]
      exact hshare
    · exact .inl rfl
  · rw [set_entry]
    split
    · rename_i h
      rw [h]
      exact hphase
    · exact fun h => ⟨h, rfl⟩

theorem copy (hp : Pages t) (cur : Slot) (hcur : (t.entry cur).phase ≠ .paged)
    (hshare : x.share = (t.entry cur).share) (hx : x.phase ≠ .paged) : Pages (t.set np x) where
  own := fun {q} hq => by
    by_cases h : q = np
    · subst h
      rw [set_same] at hq
      exact absurd hq hx
    · rw [set_entry, if_neg h] at hq ⊢
      obtain ⟨a, ha, hother⟩ := hp.own hq
      refine ⟨a, ha, fun q' hq' => ?_⟩
      rw [set_entry]
      split
      · rw [hshare]
        refine hother cur ?_
        rintro rfl
        exact hcur hq
      · exact hother q' hq'
  fresh := fun {q a} hq => by
    rw [set_entry] at hq
    split at hq
    · rw [hshare] at hq
      exact hp.fresh hq
    · exact hp.fresh hq

theorem setReg {a : Page} {r : Reg} (hp : Pages t) : Pages (t.setReg a r) :=
  ⟨hp.own, hp.fresh⟩

theorem move {e : Event} (hp : Pages t) (h : Move t e t') : Pages t' := by
  cases h with
  | stay => exact hp
  | alloc => exact hp.shrink (Nat.le_succ _) (fun _ => .inl rfl) (fun _ h => ⟨h, rfl⟩)
  | handOut | drop | execFail => exact hp.set (.inl rfl) (fun h => by cases h)
  | @page np hnp =>
    refine ⟨fun {q} hq => ?_, fun {q a} hq => ?_⟩
    · have hq' : ((t.set np {t.entry np with phase := .paged, share := some t.next}).entry q).phase =
          .paged := hq
      have hnew : ∀ q' ≠ np, (t.entry q').share ≠ some t.next := fun q' _ h =>
        Nat.lt_irrefl _ (hp.fresh h)
      show ∃ a, ((t.set np _).entry q).share = some a ∧ ∀ q', q' ≠ q →
        ((t.set np _).entry q').share ≠ some a
      by_cases h : q = np
      · subst h
        refine ⟨t.next, by rw [set_same], fun q' hq' => ?_⟩
        rw [set_entry, if_neg hq']
        exact hnew q' hq'
      · rw [set_entry, if_neg h] at hq' ⊢
        obtain ⟨a, ha, hother⟩ := hp.own hq'
        refine ⟨a, ha, fun q' hne => ?_⟩
        rw [set_entry]
        split
        · intro heq
          obtain rfl := Option.some.inj heq
          exact Nat.lt_irrefl _ (hp.fresh ha)
        · exact hother q' hne
    · have hq' : ((t.set np {t.entry np with phase := .paged, share := some t.next}).entry q).share =
          some a := hq
      rw [set_entry] at hq'
      split at hq'
      · obtain rfl := Option.some.inj hq'
        exact Nat.lt_succ_self _
      · exact Nat.lt_succ_of_lt (hp.fresh hq')
  | publish => exact setReg (hp.set (.inl rfl) (fun h => by cases h))
  | @create cur np a i hcur hshare =>
    exact setReg (hp.copy cur (by rw [hcur]; simp) hshare.symm (by simp))
  | @createFull cur np a hcur hshare =>
    exact hp.copy cur (by rw [hcur]; simp) hshare.symm (by simp)
  | @createFail cur np hcur =>
    exact hp.copy cur (by rw [hcur]; simp) rfl (by simp)
  | threadExit => exact (setReg hp).set (.inl rfl) (fun h => by cases h)
  | exit =>
    refine hp.shrink (Nat.le_refl _) (fun q => .inl ?_) (fun q hq => ?_)
    · simp only [killed]
      split <;> rfl
    · simp only [killed] at hq ⊢
      split at hq
      · cases hq
      · rename_i h
        rw [if_neg h]
        exact ⟨hq, rfl⟩
  | reap gone =>
    refine setReg (hp.shrink (Nat.le_refl _) (fun q => .inl ?_) (fun q hq => ?_))
    · simp only [reaped]
      split <;> rfl
    · simp only [reaped] at hq ⊢
      split at hq
      · cases hq
      · rename_i h
        rw [if_neg h]
        exact ⟨hq, rfl⟩
  | join => exact setReg (hp.set (.inr rfl) (fun h => by cases h))
  | @killOthers cur a init =>
    have hfreed : Pages (t.freed (t.Victim cur a)) := by
      refine hp.shrink (Nat.le_refl _) (fun q => ?_) (fun q hq => ?_)
      · simp only [freed]
        split
        · exact .inr rfl
        · exact .inl rfl
      · simp only [freed] at hq ⊢
        split at hq
        · cases hq
        · rename_i h
          rw [if_neg h]
          exact ⟨hq, rfl⟩
    refine hfreed.set (.inl ?_) (fun h => by cases h)
    simp only [freed, if_neg (show ¬ t.Victim cur a cur from fun h => h.1 rfl)]
  | @commit cur a init =>
    have hset : Pages (t.set cur {t.entry cur with phase := .live .user, master := true}) :=
      hp.set (.inl rfl) (fun h => by cases h)
    exact hset.shrink (Nat.le_succ _) (fun _ => .inl rfl) (fun _ h => ⟨h, rfl⟩)

end Pages

end ThreadKernel
