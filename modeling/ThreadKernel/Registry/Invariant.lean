import ThreadKernel.Registry.Pages

/-! The registry invariant of the machine.

`Orderly` is what has to be seen to, for each call, so that the registry of every
process that is alive stays right; nothing in the code sees to it. `Settled` is then an
invariant: the registry of every page with a live proc is consistent with the procs that
point at it, and exactly one of these is the master, `init` before its first `exec`
excepted. -/
namespace ThreadKernel

open Registry Table Function

theorem Phase.exists_stage {p : Phase} (h : p.isLive = true) : ∃ m, p = .live m := by
  cases p with
  | live m => exact ⟨m, rfl⟩
  | _ => cases h

theorem Phase.stage_of_booting {p : Phase} (h : p.booting = true) : ∃ m, p = .live m ∧ m ≠ .user := by
  cases p with
  | live m =>
    refine ⟨m, rfl, ?_⟩
    rintro rfl
    cases h
  | _ => cases h

/-- What each call is asked to find. -/
def Table.Orderly (t : Table) : Event → Prop
  /- `allocproc`: the slot does not still carry the page of a process that is alive -/
  | .handedOut np => ∀ a, (t.entry np).share = some a → ¬ t.Alive a
  /- `thread_create`: an index is free -/
  | .created _ _ a _ => (t.reg a).free ≠ none
  /- `thread_exit`: the caller is not the master, or nobody else is left -/
  | .threadExited cur _ => (t.entry cur).master = true →
      ∀ q a, (t.entry cur).share = some a → t.Member q a → q = cur
  /- `wait`: no zombie that `threads[]` lists belongs to another process that is alive -/
  | .waited _ child _ => ∀ q a b i, (t.entry child).share = some a → (t.reg a).threads i = some q →
      (t.entry q).phase = .zombie → (t.entry q).share = some b → b ≠ a → ¬ t.Alive b
  /- `thread_join`: the zombie found is the caller's -/
  | .joined cur p _ _ => (t.entry p).share = (t.entry cur).share
  /- `exec`: nobody else is left -/
  | .killedOthers cur => ∀ q a, (t.entry cur).share = some a → t.Member q a → q = cur
  | .quiet | .forked _ _ | .exited _ | .execed _ => True

structure Settled (h : List Event) (t : Table) : Prop where
  pages : Pages t
  good : ∀ {a}, t.Alive a → Consistent (t.reg a) (t.group a)
  master : ∀ {a}, t.Alive a →
    (∃ q, t.Member q a ∧ (t.entry q).phase.booting = true) ∨ (t.group a).OneMaster
  embryo : ∀ {q a}, (t.entry q).phase.isEmbryo = true → (t.entry q).share = some a → ¬ t.Alive a
  zombie : ∀ {q a}, (t.entry q).phase = .zombie → (t.entry q).master = true →
    (t.entry q).share = some a → ¬ t.Alive a
  alone : ∀ {q m a}, (t.entry q).phase = .live m → m ≠ .user → (t.entry q).share = some a →
    ∀ q', t.Member q' a → q' = q
  boot : ∀ {q}, (t.entry q).phase.booting = true → q = 0 ∧ .execed 0 ∉ h

namespace Settled

variable {h : List Event} {t t' : Table} {e : Event} {cur np : Slot} {x : Entry} {a : Page}
  {m : Stage} {q : Slot}

section
variable (hs : Settled h t)
include hs

theorem untouched (hgroup : t'.group a = t.group a) (hreg : t'.reg a = t.reg a)
    (hboot : ∀ q, t.Member q a → (t.entry q).phase.booting = true →
      (t'.entry q).phase.booting = true) (ha : t'.Alive a) :
    Consistent (t'.reg a) (t'.group a) ∧
      ((∃ q, t'.Member q a ∧ (t'.entry q).phase.booting = true) ∨ (t'.group a).OneMaster) := by
  have ha' := (alive_congr hgroup).mp ha
  rw [hgroup, hreg]
  refine ⟨hs.good ha', ?_⟩
  rcases hs.master ha' with ⟨q, hq, hb⟩ | hm
  · have hactive := hq.active
    rw [← hgroup] at hactive
    exact .inl ⟨q, (active_iff.mp hactive).1, hboot q hq hb⟩
  · exact .inr hm

/-- Nobody else is in the group of a proc that is in `initcode.S` or in `exec`. -/
theorem user_of_members {q' : Slot} (hq : t.Member q a)
    (hq' : (t.entry q').phase = .live m) (hshare : (t.entry q').share = some a) (hne : q ≠ q') :
    m = .user := by
  by_contra hm
  exact hne (hs.alone hq' hm hshare q hq)

theorem oneMaster (hcur : (t.entry cur).phase = .live .user)
    (hshare : (t.entry cur).share = some a) : (t.group a).OneMaster := by
  have hmember := member_of_live hcur hshare
  rcases hs.master ⟨cur, hmember⟩ with ⟨q, hq, hb⟩ | hm
  · exfalso
    obtain ⟨m, hm⟩ := Phase.exists_stage hq.1
    by_cases hqc : cur = q
    · subst hqc
      rw [hcur] at hb
      cases hb
    · rw [hm, hs.user_of_members hmember hm hq.2 hqc] at hb
      cases hb
  · exact hm

/-- An entry changes that is in the group of no page that is alive, before or after. -/
theorem outside (hp : Pages t') (hentry : ∀ q, q ≠ np → t'.entry q = t.entry q)
    (hbefore : (t.entry np).phase.isLive = false) (hafter : (t'.entry np).phase.isLive = false)
    (hview : ∀ {a}, t.Alive a → (t.entry np).view a = none ∧ (t'.entry np).view a = none)
    (hreg : ∀ {a}, t.Alive a → t'.reg a = t.reg a)
    (hembryo : ∀ {a}, (t'.entry np).phase.isEmbryo = true → (t'.entry np).share = some a →
      ¬ t.Alive a)
    (hzombie : (t'.entry np).phase ≠ .zombie) : Settled h t' := by
  have hmember : ∀ {q a}, t'.Member q a ↔ t.Member q a := by
    intro q a
    by_cases hq : q = np
    · subst hq
      simp only [Member, Live, hbefore, hafter, Bool.false_eq_true, false_and]
    · simp only [Member, Live, hentry q hq]
  have halive : ∀ {a}, t'.Alive a ↔ t.Alive a := exists_congr fun q => hmember
  have hgroup : ∀ {a}, t.Alive a → t'.group a = t.group a := by
    intro a ha
    funext q
    by_cases hq : q = np
    · subst hq
      exact (hview ha).2.trans (hview ha).1.symm
    · simp only [group, hentry q hq]
  have hlive : ∀ {q}, (t'.entry q).phase.isLive = true → q ≠ np := by
    rintro q hq rfl
    rw [hafter] at hq
    cases hq
  have hold : ∀ {a}, t'.Alive a → _ := fun {a} ha =>
    hs.untouched (hgroup (halive.mp ha)) (hreg (halive.mp ha)) (fun q hq hb => by
      rwa [hentry q (hlive (hmember.mpr hq).1)]) ha
  exact {
    pages := hp
    good := fun ha => (hold ha).1
    master := fun ha => (hold ha).2
    embryo := fun {q a} hq hshare => by
      rw [halive]
      by_cases hqn : q = np
      · subst hqn
        exact hembryo hq hshare
      · rw [hentry q hqn] at hq hshare
        exact hs.embryo hq hshare
    zombie := fun {q a} hq hm hshare => by
      rw [halive]
      by_cases hqn : q = np
      · subst hqn
        exact absurd hq hzombie
      · rw [hentry q hqn] at hq hm hshare
        exact hs.zombie hq hm hshare
    alone := fun {q m a} hq hm hshare q' hq' => by
      have hqn : q ≠ np := hlive (by rw [hq]; rfl)
      rw [hentry q hqn] at hq hshare
      exact hs.alone hq hm hshare q' (hmember.mp hq')
    boot := fun {q} hq => by
      have hqn : q ≠ np := by
        rintro rfl
        cases hph : (t'.entry q).phase <;> rw [hph] at hq hafter <;> first | cases hq | cases hafter
      rw [hentry q hqn] at hq
      exact hs.boot hq }

theorem discard (hnp : (t.entry np).phase.isEmbryo = true)
    (hp : Pages (t.set np x)) (hx : x.phase = .free) : Settled h (t.set np x) := by
  refine hs.outside hp (fun q hq => ?_) (Phase.not_live_of_embryo hnp) ?_ (fun ha => ⟨?_, ?_⟩)
    (fun _ => rfl) (fun he _ => ?_) ?_
  · rw [set_entry, if_neg hq]
  · rw [set_same, hx]
    rfl
  · exact Entry.view_none_of_share fun h => hs.embryo hnp h ha
  · rw [set_same]
    exact Entry.view_none_of_free hx
  · rw [set_same, hx] at he
    cases he
  · rw [set_same, hx]
    nofun

theorem record (he : ∀ q, (t.entry q).phase.booting = true → e ≠ .execed 0) : Settled (e :: h) t := by
  refine ⟨hs.pages, hs.good, hs.master, hs.embryo, hs.zombie, hs.alone, fun {q} hq => ?_⟩
  obtain ⟨h0, hnot⟩ := hs.boot hq
  exact ⟨h0, fun hmem => (List.mem_cons.mp hmem).elim (fun heq => he q hq heq.symm) hnot⟩

theorem grow : Settled h {t with next := t.next + 1} :=
  ⟨hs.pages.move .alloc, hs.good, hs.master, hs.embryo, hs.zombie, hs.alone, hs.boot⟩

/-! ### fork and thread_create -/

/-- An entry becomes a live proc of page `a`, whose registry becomes `r`. -/
theorem enroll {r : Reg} (hpages : Pages ((t.set np x).setReg a r))
    (hnp : (t.entry np).phase.isLive = false)
    (hview : ∀ {b}, b ≠ a → t.Alive b → (t.entry np).view b = none)
    (hx : x.phase = .live .user) (hxa : x.share = some a)
    (hembryo : ∀ {q}, q ≠ np → (t.entry q).phase.isEmbryo = true → (t.entry q).share ≠ some a)
    (hzombie : ∀ {q}, q ≠ np → (t.entry q).phase = .zombie → (t.entry q).master = true →
      (t.entry q).share ≠ some a)
    (halone : ∀ {q m}, q ≠ np → (t.entry q).phase = .live m → m ≠ .user →
      (t.entry q).share ≠ some a)
    (hgood : Consistent r (update (t.group a) np (some ⟨true, x.order, x.master⟩)))
    (hmaster : Group.OneMaster (update (t.group a) np (some ⟨true, x.order, x.master⟩))) :
    Settled h ((t.set np x).setReg a r) := by
  have hlive : x.phase.isLive = true := by rw [hx]; rfl
  have hxview : x.view a = some ⟨true, x.order, x.master⟩ := by
    rw [Entry.view_of_share (Phase.ne_free_of_live hlive) hxa, hlive]
  have hentry : ∀ {q}, q ≠ np → (t.set np x).entry q = t.entry q := fun hq => by
    rw [set_entry, if_neg hq]
  have hmember : ∀ {q b}, (t.set np x).Member q b → (q = np ∧ b = a) ∨ t.Member q b := by
    intro q b hq
    rcases member_set.mp hq with ⟨rfl, -, hb⟩ | ⟨-, hq⟩
    · exact .inl ⟨rfl, Option.some.inj (hb.symm.trans hxa)⟩
    · exact .inr hq
  have hne : ∀ {q}, ((t.set np x).entry q).phase ≠ .live .user → q ≠ np := by
    rintro q hq rfl
    rw [set_same, hx] at hq
    exact hq rfl
  have hold : ∀ {b}, b ≠ a → (t.set np x).Alive b → _ := fun {b} hb hal => by
    have hal' : t.Alive b := by
      obtain ⟨q, hq⟩ := hal
      rcases hmember hq with ⟨-, h⟩ | h
      · exact absurd h hb
      · exact ⟨q, h⟩
    have hxb := Entry.view_none_of_ne hxa hb
    refine @untouched h t ((t.set np x).setReg a r) b hs
      (group_set_outside (hview hb hal') hxb) (by rw [setReg_reg, if_neg hb]; rfl) (fun q hq hbt => ?_) hal
    have hqn : q ≠ np := by
      rintro rfl
      have := hq.1
      rw [Live, hnp] at this
      cases this
    rwa [setReg_entry, hentry hqn]
  refine ⟨hpages, fun {b} hb => ?_, fun {b} hb => ?_, fun {q b} hq hb => ?_, fun {q b} hq hm hb => ?_,
    fun {q m b} hq hm hb q' hq' => ?_, fun {q} hq => ?_⟩
  · by_cases h : b = a
    · subst h
      rw [setReg_same]
      show Consistent r ((t.set np x).group b)
      rw [group_set, hxview]
      exact hgood
    · exact (hold h hb).1
  · by_cases h : b = a
    · subst h
      refine .inr ?_
      show ((t.set np x).group b).OneMaster
      rw [group_set, hxview]
      exact hmaster
    · exact (hold h hb).2
  · have hqn := hne (q := q) (fun h => by rw [setReg_entry, h] at hq; cases hq)
    rw [setReg_entry, hentry hqn] at hq hb
    rintro ⟨q', hq'⟩
    rcases hmember hq' with ⟨-, rfl⟩ | h'
    · exact hembryo hqn hq hb
    · exact hs.embryo hq hb ⟨q', h'⟩
  · have hqn := hne (q := q) (fun h => by rw [setReg_entry, h] at hq; cases hq)
    rw [setReg_entry, hentry hqn] at hq hm hb
    rintro ⟨q', hq'⟩
    rcases hmember hq' with ⟨-, rfl⟩ | h'
    · exact hzombie hqn hq hm hb
    · exact hs.zombie hq hm hb ⟨q', h'⟩
  · have hqn := hne (q := q) (fun h => by
      rw [setReg_entry, h] at hq
      exact hm (Phase.live.inj hq).symm)
    rw [setReg_entry, hentry hqn] at hq hb
    rcases hmember hq' with ⟨-, rfl⟩ | h'
    · exact absurd hb (halone hqn hq hm)
    · exact hs.alone hq hm hb q' h'
  · have hqn := hne (q := q) (fun h => by rw [setReg_entry, h] at hq; cases hq)
    rw [setReg_entry, hentry hqn] at hq
    exact hs.boot hq

theorem publish (hnp : (t.entry np).phase = .paged) (hshare : (t.entry np).share = some a) : Settled h
      ((t.set np {t.entry np with phase := .live .user, order := 0, master := true}).setReg a
        ⟨1, update (t.reg a).threads 0 (some np), fun i => i = 0⟩) := by
  -- the page is this entry's alone
  have hown : ∀ q, q ≠ np → (t.entry q).share ≠ some a := fun _ => hs.pages.alone hnp hshare
  have hempty : ∀ q, q ≠ np → t.group a q = none := fun q hq =>
    Entry.view_none_of_share (hown q hq)
  refine hs.enroll (hs.pages.move (@Move.publish t np np _ hnp hshare)) (by rw [hnp]; rfl)
    (fun hb _ => Entry.view_none_of_ne hshare hb) rfl hshare
    (fun hq _ => hown _ hq) (fun hq _ _ => hown _ hq) (fun hq _ _ => hown _ hq) ?_ ?_
  · refine .single _ 0 np ⟨true, 0, true⟩ rfl rfl (by rw [update_self]) fun q hq => ?_
    rw [update_of_ne hq]
    exact hempty q hq
  · refine .of_alone (p := np) ⟨by rw [update_self], rfl⟩ rfl fun q y hq => ?_
    by_contra hne
    rw [Group.Active, update_of_ne hne, hempty q hne] at hq
    cases hq.1

theorem create {i : Index} (hcur : (t.entry cur).phase = .live .user)
    (hshare : (t.entry cur).share = some a) (hnp : (t.entry np).phase.isEmbryo = true)
    (hfree : (t.reg a).free = some i) : Settled h
      ((t.set np
        {t.entry np with phase := .live .user, share := some a, order := i, master := false}).setReg a
        ((t.reg a).add i np)) := by
  have hmember := member_of_live hcur hshare
  have halive : t.Alive a := ⟨cur, hmember⟩
  have hview : ∀ {b}, t.Alive b → (t.entry np).view b = none := fun hb =>
    Entry.view_none_of_share fun h => hs.embryo hnp h hb
  have hclear : (t.reg a).isThere i = false := by
    have := Fin.eq_true_of_find?_eq_some hfree
    simpa using this
  refine hs.enroll (hs.pages.move (.create hcur hshare hnp hfree)) (Phase.not_live_of_embryo hnp)
    (fun _ hb => hview hb) rfl rfl (fun _ hq h => hs.embryo hq h halive)
    (fun _ hq hm h => hs.zombie hq hm h halive) (fun {q m} _ hq hm h => ?_)
    ((hs.good halive).add hclear (hview halive)) ?_
  · have : cur = q := hs.alone hq hm h cur hmember
    subst this
    rw [hcur] at hq
    exact hm (Phase.live.inj hq).symm
  · refine (hs.oneMaster hcur hshare).update (fun x hx => ?_) _ (fun x hx _ => ?_)
    · rw [Group.Active, show t.group a np = none from hview halive] at hx
      cases hx.1
    · obtain rfl := Option.some.inj hx
      rfl

end

/-! ### The calls that end threads -/

section Retire

/-! The entries of `gone` become zombies or free, the others stay as they are. -/

variable {gone : Slot → Prop} (hentry : ∀ {q}, ¬ gone q → t'.entry q = t.entry q)
  (hgone : ∀ {q}, gone q → (t'.entry q).phase = .zombie ∨ (t'.entry q).phase = .free)
include hentry hgone

theorem member_of_retired (hq : t'.Member q a) : ¬ gone q ∧ t.Member q a := by
  have hg : ¬ gone q := by
    intro hg
    have hlive := hq.1
    rw [Live] at hlive
    rcases hgone hg with hz | hf
    · rw [hz] at hlive
      cases hlive
    · rw [hf] at hlive
      cases hlive
  rw [Member, Live, hentry hg] at hq
  exact ⟨hg, hq⟩

theorem alive_of_retired (ha : t'.Alive a) : t.Alive a :=
  ha.imp fun _ hq => (member_of_retired hentry hgone hq).2

theorem retire (hs : Settled h t) (hpages : Pages t')
    (hpage : ∀ {b}, t'.Alive b → Consistent (t'.reg b) (t'.group b) ∧
      ((∃ q, t'.Member q b ∧ (t'.entry q).phase.booting = true) ∨ (t'.group b).OneMaster))
    (hzombie : ∀ {q b}, gone q → (t'.entry q).phase = .zombie → (t'.entry q).master = true →
      (t'.entry q).share = some b → ¬ t'.Alive b) : Settled h t' := by
  have hkept : ∀ {q}, (t'.entry q).phase ≠ .zombie → (t'.entry q).phase ≠ .free →
      t'.entry q = t.entry q := fun hz hf => hentry fun hg => (hgone hg).elim hz hf
  refine ⟨hpages, fun hb => (hpage hb).1, fun hb => (hpage hb).2, fun {q b} hq hb hal => ?_,
    fun {q b} hq hm hb => ?_, fun {q m b} hq hm hb q' hq' => ?_, fun {q} hq => ?_⟩
  · have heq := hkept (fun h => by rw [h] at hq; cases hq) (Phase.ne_free_of_embryo hq)
    rw [heq] at hq hb
    exact hs.embryo hq hb (alive_of_retired hentry hgone hal)
  · by_cases hg : gone q
    · exact hzombie hg hq hm hb
    · rw [hentry hg] at hq hm hb
      exact fun hal => hs.zombie hq hm hb (alive_of_retired hentry hgone hal)
  · have heq := hkept (by rw [hq]; nofun) (by rw [hq]; nofun)
    rw [heq] at hq hb
    exact hs.alone hq hm hb q' (member_of_retired hentry hgone hq').2
  · obtain ⟨m, hm, -⟩ := Phase.stage_of_booting hq
    rw [hkept (by rw [hm]; nofun) (by rw [hm]; nofun)] at hq
    exact hs.boot hq

end Retire

section
variable (hs : Settled h t)
include hs

theorem threadExit {v : Word} (hcur : (t.entry cur).phase = .live .user)
    (hshare : (t.entry cur).share = some a)
    (hrule : (t.entry cur).master = true → ∀ q, t.Member q a → q = cur) :
    Settled h ((t.setReg a ((t.reg a).clear (t.entry cur).order)).set cur
      {t.entry cur with phase := .zombie, retval := v}) := by
  have hpages := hs.pages.move (.threadExit (v := v) hcur hshare)
  have hmember := member_of_live hcur hshare
  generalize hx : ({t.entry cur with phase := .zombie, retval := v} : Entry) = x at *
  have hxphase : x.phase = .zombie := by rw [← hx]
  have hxshare : x.share = some a := by rw [← hx, hshare]
  have hentry : ∀ {q}, q ≠ cur →
      ((t.setReg a ((t.reg a).clear (t.entry cur).order)).set cur x).entry q = t.entry q := by
    intro q hq
    rw [set_entry, if_neg hq, setReg_entry]
  have hgone : ∀ {q}, q = cur →
      (((t.setReg a ((t.reg a).clear (t.entry cur).order)).set cur x).entry q).phase = .zombie ∨
      (((t.setReg a ((t.reg a).clear (t.entry cur).order)).set cur x).entry q).phase = .free := by
    rintro q rfl
    rw [set_same]
    exact .inl hxphase
  refine retire hentry hgone hs hpages (fun {b} hb => ?_) (fun {q b} hqc _ hm hb hal => ?_)
  · by_cases hba : b = a
    · subst hba
      -- somebody else is left, so the caller was not the master
      obtain ⟨q, hq⟩ := hb
      obtain ⟨hqc, hq⟩ := member_of_retired hentry hgone hq
      have hnot : (t.entry cur).master = false := by
        by_contra hm
        exact hqc (hrule (by simpa using hm) q hq)
      have hgroup : ((t.setReg b ((t.reg b).clear (t.entry cur).order)).set cur x).group b =
          update (t.group b) cur
            (some ⟨false, (t.entry cur).order, (t.entry cur).master⟩) := by
        rw [group_set, Entry.view_of_share (by rw [hxphase]; simp) hxshare, hxphase, ← hx]
        rfl
      rw [hgroup, set_reg, setReg_same]
      refine ⟨(hs.good ⟨cur, hmember⟩).leave hmember.active, .inr ?_⟩
      refine (hs.oneMaster hcur hshare).update (fun y hy => ?_) _ (fun y hy hl => ?_)
      · rw [(active_iff.mp hy).2]
        exact hnot
      · obtain rfl := Option.some.inj hy
        cases hl
    · refine hs.untouched (group_set_outside ?_ ?_) (by rw [set_reg, setReg_reg, if_neg hba])
        (fun q hq hbt => ?_) hb
      · exact Entry.view_none_of_ne hshare hba
      · exact Entry.view_none_of_ne hxshare hba
      · rw [hentry (hq.ne_of_page hshare hba)]
        exact hbt
  · -- the caller was the master: nobody is left
    subst hqc
    rw [set_same, ← hx] at hm hb
    obtain ⟨q', hq'⟩ := hal
    obtain rfl : b = a := Option.some.inj (hb.symm.trans hshare)
    obtain ⟨hqc, hq'⟩ := member_of_retired hentry hgone hq'
    exact hqc (hrule hm q' hq')

theorem exit (hcur : (t.entry cur).phase = .live .user)
    (hshare : (t.entry cur).share = some a) : Settled h (t.killed a) := by
  have hentry : ∀ {q}, (t.entry q).share ≠ some a → (t.killed a).entry q = t.entry q := fun hq => by
    simp only [killed, if_neg hq]
  have hdead : ∀ {q}, (t.entry q).share = some a →
      (t.killed a).entry q = {t.entry q with phase := .zombie} := fun hq => by
    simp only [killed, if_pos hq]
  have hgone : ∀ {q}, (t.entry q).share = some a →
      ((t.killed a).entry q).phase = .zombie ∨ ((t.killed a).entry q).phase = .free := fun hq => by
    rw [hdead hq]
    exact .inl rfl
  -- nobody of the process is live any more
  have hno : ¬ (t.killed a).Alive a := fun h => h.elim fun q hq =>
    (member_of_retired hentry hgone hq).1 (member_of_retired hentry hgone hq).2.2
  refine retire hentry hgone hs (hs.pages.move (.exit hcur hshare)) (fun {b} hal => ?_)
    (fun {q b} hqa _ _ hb => ?_)
  · have hba : b ≠ a := fun h => hno (h ▸ hal)
    have hother : ∀ {q'}, t.Member q' b → (t.entry q').share ≠ some a := by
      rintro q' hq' h
      exact hba (Option.some.inj (hq'.2.symm.trans h))
    refine hs.untouched ?_ rfl (fun q' hq' hbt => by rwa [hentry (hother hq')]) hal
    funext q'
    by_cases hqa' : (t.entry q').share = some a
    · simp only [group, hdead hqa']
      rw [Entry.view_none_of_ne hqa' hba,
        Entry.view_none_of_ne (x := {t.entry q' with phase := .zombie}) hqa' hba]
    · simp only [group, hentry hqa']
  · rw [hdead hqa] at hb
    obtain rfl : b = a := Option.some.inj (hb.symm.trans hqa)
    exact hno

theorem reap {child : Slot} {n : Int} (gone : Slot → Prop) [DecidablePred gone]
    (hchild : (t.entry child).phase = .zombie) (hmaster : (t.entry child).master = true)
    (hshare : (t.entry child).share = some a)
    (hgone : ∀ q, gone q → (t.entry q).phase = .zombie ∧ ∃ i, (t.reg a).threads i = some q)
    (hn : n = (t.reg a).count - (Finset.univ.filter gone).card)
    (hrule : ∀ q b i, (t.reg a).threads i = some q → (t.entry q).phase = .zombie →
      (t.entry q).share = some b → b ≠ a → ¬ t.Alive b) :
    Settled h ((t.reaped gone).setReg a {t.reg a with count := n}) := by
  have hpages := hs.pages.move (@Move.reap t child child a 0 n gone _ hchild hmaster hshare hgone hn)
  have hentry : ∀ {q}, ¬ gone q →
      ((t.reaped gone).setReg a {t.reg a with count := n}).entry q = t.entry q := fun hq => by
    simp only [setReg_entry, reaped, if_neg hq]
  have hfree : ∀ {q}, gone q →
      (((t.reaped gone).setReg a {t.reg a with count := n}).entry q).phase = .free := fun hq => by
    simp only [setReg_entry, reaped, if_pos hq]
  refine retire hentry (fun hg => .inr (hfree hg)) hs hpages (fun {b} hb => ?_)
    (fun {q b} hg hq => ?_)
  · have hmember : ∀ {q}, t.Member q b → ¬ gone q := fun hq hg => by
      have := hq.1
      rw [Live, (hgone _ hg).1] at this
      cases this
    have halive := alive_of_retired hentry (fun hg => .inr (hfree hg)) hb
    have hba : b ≠ a := by
      rintro rfl
      exact hs.zombie hchild hmaster hshare halive
    refine hs.untouched ?_ (by rw [setReg_reg, if_neg hba]; rfl)
      (fun q hq hbt => by rwa [hentry (hmember hq)]) hb
    funext q
    by_cases hg : gone q
    · obtain ⟨hz, i, hi⟩ := hgone q hg
      unfold group
      rw [Entry.view_none_of_free (hfree hg), Entry.view_none_of_share]
      exact fun h => hrule q b i hi hz h hba halive
    · simp only [group, hentry hg]
  · rw [hfree hg] at hq
    cases hq

theorem join {p : Slot} (hshare : (t.entry cur).share = some a)
    (hp : (t.entry p).phase = .zombie) (hrule : (t.entry p).share = (t.entry cur).share)
    (hpages : Pages ((t.set p ⟨.free, none, 0, false, 0⟩).setReg a
      {t.reg a with count := (t.reg a).count - 1}))
    (hmaster : (t.entry p).master = false) :
    Settled h ((t.set p ⟨.free, none, 0, false, 0⟩).setReg a
      {t.reg a with count := (t.reg a).count - 1}) := by
  have hentry : ∀ {q}, q ≠ p → ((t.set p ⟨.free, none, 0, false, 0⟩).setReg a
      {t.reg a with count := (t.reg a).count - 1}).entry q = t.entry q := fun hq => by
    rw [setReg_entry, set_entry, if_neg hq]
  have hfree : ∀ {q}, q = p → (((t.set p ⟨.free, none, 0, false, 0⟩).setReg a
      {t.reg a with count := (t.reg a).count - 1}).entry q).phase = .free := by
    rintro q rfl
    rw [setReg_entry, set_same]
  have hpa : (t.entry p).share = some a := hrule.trans hshare
  have hview : (t.entry p).view a = some ⟨false, (t.entry p).order, false⟩ := by
    rw [Entry.view_of_share (by rw [hp]; simp) hpa, hp, hmaster]
    rfl
  refine retire hentry (fun hg => .inr (hfree hg)) hs hpages (fun {b} hb => ?_)
    (fun {q b} hg hq => ?_)
  · have hlive : ∀ {q}, t.Member q b → q ≠ p := by
      rintro q hq rfl
      have := hq.1
      rw [Live, hp] at this
      cases this
    have halive := alive_of_retired hentry (fun hg => .inr (hfree hg)) hb
    by_cases hba : b = a
    · subst hba
      have hgroup : ((t.set p ⟨.free, none, 0, false, 0⟩).setReg b
          {t.reg b with count := (t.reg b).count - 1}).group b =
          update (t.group b) p none := by
        show (t.set p ⟨.free, none, 0, false, 0⟩).group b = _
        rw [group_set]
        rfl
      rw [hgroup, setReg_same]
      refine ⟨(hs.good halive).collect hview rfl, ?_⟩
      rcases hs.master halive with ⟨q, hq, hbt⟩ | hm
      · refine .inl ⟨q, ?_, ?_⟩
        · rw [Member, Live, hentry (hlive hq)]
          exact hq
        · rwa [hentry (hlive hq)]
      · refine .inr (hm.update (fun y hy => ?_) _ (fun y hy => by cases hy))
        exact absurd rfl (hlive (active_iff.mp hy).1)
    · exact hs.untouched (group_set_outside (Entry.view_none_of_ne hpa hba)
        (Entry.view_none_of_free rfl)) (by rw [setReg_reg, if_neg hba]; rfl)
        (fun q hq hbt => by rwa [hentry (hlive hq)]) hb
  · rw [hfree hg] at hq
    cases hq

/-! ### exec -/

/-- The only live proc of a page goes to another stage of `exec`. -/
theorem restage {m₀ : Stage} {lead : Bool}
    (hcur : (t.entry cur).phase = .live m₀) (hshare : (t.entry cur).share = some a)
    (halone : ∀ q, t.Member q a → q = cur)
    (hlead : (Phase.live m).booting = true ∨ lead = true)
    (hboot : (Phase.live m).booting = true → (Phase.live m₀).booting = true) :
    Settled h (t.set cur {t.entry cur with phase := .live m, master := lead}) := by
  have hpages : Pages (t.set cur {t.entry cur with phase := .live m, master := lead}) :=
    hs.pages.set (.inl rfl) (fun h => by cases h)
  have hmember := member_of_live hcur hshare
  generalize hx : ({t.entry cur with phase := .live m, master := lead} : Entry) = x at *
  have hxphase : x.phase = .live m := by rw [← hx]
  have hxshare : x.share = some a := by rw [← hx]; exact hshare
  have hentry : ∀ {q}, q ≠ cur → (t.set cur x).entry q = t.entry q := fun hq => by
    rw [set_entry, if_neg hq]
  have hother : ∀ {q}, ((t.set cur x).entry q).phase ≠ .live m → q ≠ cur := by
    rintro q hq rfl
    exact hq (by rw [set_same, hxphase])
  have hmembers : ∀ {q b}, (t.set cur x).Member q b ↔ t.Member q b := by
    intro q b
    by_cases hq : q = cur
    · subst hq
      simp only [Member, Live, set_same, hxphase, hcur, hxshare, hshare, Phase.isLive]
    · exact member_set_of_ne hq
  have halive : ∀ {b}, (t.set cur x).Alive b ↔ t.Alive b := exists_congr fun q => hmembers
  have hview : ∀ {b}, b ≠ a → (t.entry cur).view b = none ∧ x.view b = none := fun hb =>
    ⟨Entry.view_none_of_ne hshare hb, Entry.view_none_of_ne hxshare hb⟩
  have hold : ∀ {b}, b ≠ a → (t.set cur x).Alive b → _ := fun {b} hb hal =>
    @untouched h t (t.set cur x) b hs (group_set_outside (hview hb).1 (hview hb).2) rfl
      (fun q hq hbt => by
        rwa [hentry (hq.ne_of_page hshare hb)]) hal
  have hact : ((t.set cur x).group a).Active cur ⟨true, x.order, x.master⟩ := by
    have := (hmembers.mpr hmember).active
    rwa [set_same] at this
  refine ⟨hpages, fun {b} hb => ?_, fun {b} hb => ?_, fun {q b} hq hb => ?_, fun {q b} hq hm hb => ?_,
    fun {q m' b} hq hm' hb q' hq' => ?_, fun {q} hq => ?_⟩
  · by_cases hba : b = a
    · subst hba
      refine (hs.good ⟨cur, hmember⟩).relabel fun q => ?_
      rw [group_set]
      by_cases hq : q = cur
      · subst hq
        have hxview : x.view b = some ⟨true, x.order, x.master⟩ := by
          rw [Entry.view_of_share (by rw [hxphase]; simp) hxshare, hxphase]
          rfl
        rw [update_self, show t.group b q = _ from hmember.active.1, hxview, ← hx]
        rfl
      · rw [update_of_ne hq]
    · exact (hold hba hb).1
  · by_cases hba : b = a
    · subst hba
      rcases hlead with hbt | hld
      · exact .inl ⟨cur, hmembers.mpr hmember, by rwa [set_same, hxphase]⟩
      · refine .inr (.of_alone hact (by rw [← hx]; exact hld) fun q y hq => ?_)
        exact halone q (hmembers.mp (active_iff.mp hq).1)
    · exact (hold hba hb).2
  · have hqc := hother (q := q) fun h => by rw [h] at hq; cases hq
    rw [hentry hqc] at hq hb
    rw [halive]
    exact hs.embryo hq hb
  · have hqc := hother (q := q) (by rw [hq]; simp)
    rw [hentry hqc] at hq hm hb
    rw [halive]
    exact hs.zombie hq hm hb
  · by_cases hqc : q = cur
    · subst hqc
      rw [set_same] at hb
      obtain rfl := Option.some.inj (hxshare.symm.trans hb)
      exact halone q' (hmembers.mp hq')
    · rw [hentry hqc] at hq hb
      exact hs.alone hq hm' hb q' (hmembers.mp hq')
  · by_cases hqc : q = cur
    · subst hqc
      rw [set_same, hxphase] at hq
      exact hs.boot (by rw [hcur]; exact hboot hq)
    · rw [hentry hqc] at hq
      exact hs.boot hq

/-- Alone and past `initcode.S`: the master. -/
theorem lead (hcur : (t.entry cur).phase = .live m)
    (hm : (Phase.live m).booting = false) (hshare : (t.entry cur).share = some a)
    (halone : ∀ q, t.Member q a → q = cur) : (t.entry cur).master = true := by
  rcases hs.master ⟨cur, by rw [Live, hcur]; rfl, hshare⟩ with ⟨q, hq, hb⟩ | ⟨q, ⟨x, hq, hx⟩, -⟩
  · rw [halone q hq, hcur, hm] at hb
    cases hb
  · obtain ⟨hmem, rfl⟩ := active_iff.mp hq
    rwa [halone q hmem] at hx

/-- With nobody else in the process `kill_other_threads` frees nobody. -/
theorem freed_eq (hlive : t.Live cur) (hshare : (t.entry cur).share = some a)
    (halone : ∀ q, t.Member q a → q = cur) : t.freed (t.Victim cur a) = t := by
  have hnone : ∀ q, ¬ t.Victim cur a q := by
    rintro q ⟨hne, i, hi, hq⟩
    obtain ⟨q', x, hq', hact, -⟩ := (hs.good ⟨cur, hlive, hshare⟩).there hi
    rw [Option.some.inj (hq.symm.trans hq')] at hne
    exact hne (halone q' (active_iff.mp hact).1)
  simp only [freed, hnone, if_false]

/-! ### Every move -/

theorem move (hm : Move t e t') (ho : t.Orderly e) : Settled (e :: h) t' := by
  cases hm with
  | stay => exact hs.record (by simp)
  | alloc => exact hs.grow.record (by simp)
  | @handOut np hnp =>
    refine record (hs.outside (hs.pages.move (.handOut hnp)) (fun q hq => ?_) (by rw [hnp]; rfl)
      (by rw [set_same]; rfl) (fun {a} ha => ⟨Entry.view_none_of_free hnp, ?_⟩) (fun _ => rfl)
      (fun {a} _ hshare => ho a (by rwa [set_same] at hshare)) (by simp)) (by simp)
    · rw [set_entry, if_neg hq]
    · rw [set_same]
      exact Entry.view_none_of_share fun h => ho a h ha
  | @page np hnp =>
    have hnext : ∀ {a}, t.Alive a → a ≠ t.next := fun h => h.elim fun q hq => (hs.pages.fresh hq.2).ne
    refine record (hs.outside (hs.pages.move (.page hnp)) (fun q hq => ?_)
      (Phase.not_live_of_embryo hnp) (by simp [Phase.isLive])
      (fun {a} ha => ⟨Entry.view_none_of_share fun h => hs.embryo hnp h ha, ?_⟩) (fun {a} ha => ?_)
      (fun {a} _ hshare ha => ?_) (by simp)) (by simp)
    · simp [set_entry, hq]
    · refine Entry.view_none_of_share ?_
      simpa using (hnext ha).symm
    · simp [setReg_reg, hnext ha]
    · refine hnext ha ?_
      simpa using hshare.symm
  | drop hnp => exact (hs.discard hnp (hs.pages.move (.drop hnp)) rfl).record (by simp)
  | publish hnp hshare => exact (hs.publish hnp hshare).record (by simp)
  | create hcur hshare hnp hfree =>
    exact (hs.create hcur hshare hnp hfree).record (by simp)
  | createFull _ _ _ hfree => exact absurd hfree ho
  | createFail hcur hnp =>
    exact (hs.discard hnp (hs.pages.move (.createFail hcur hnp)) rfl).record (by simp)
  | @threadExit cur a v hcur hshare =>
    exact (hs.threadExit hcur hshare fun hm q hq => ho hm q a hshare hq).record (by simp)
  | exit hcur hshare => exact (hs.exit hcur hshare).record (by simp)
  | @reap _ child a pid n gone _ hchild hmaster hshare hgone hn =>
    exact (hs.reap gone hchild hmaster hshare hgone hn fun q b i => ho q a b i hshare).record
      (by simp)
  | @join cur p a hcur hshare hp hmaster =>
    exact (hs.join hshare hp ho (hs.pages.move (.join hcur hshare hp hmaster)) hmaster).record
      (by simp)
  | @killOthers cur a init hcur hshare =>
    have hlive : t.Live cur := by rw [Live, hcur]; rfl
    have halone : ∀ q, t.Member q a → q = cur := fun q => ho q a hshare
    rw [hs.freed_eq hlive hshare halone]
    refine (hs.restage hcur hshare halone ?_ ?_).record (by simp)
    · cases init with
      | true => exact .inl rfl
      | false => exact .inr (hs.lead hcur rfl hshare halone)
    · cases init <;> exact id
  | @commit cur a init hcur hshare =>
    have halone := hs.alone hcur (by simp) hshare
    refine record (restage hs hcur hshare halone (.inr rfl) (fun h => by cases h)).grow ?_
    rintro q hq he
    obtain rfl : cur = 0 := Event.execed.inj he
    obtain rfl := ((restage hs hcur hshare halone (.inr rfl) (fun h => by cases h)).boot hq).1
    simp [Phase.booting] at hq
  | @execFail cur a init hcur hshare =>
    have halone := hs.alone hcur (by simp) hshare
    refine (hs.restage hcur hshare halone ?_ ?_).record (by simp)
    · cases init with
      | true => exact .inl rfl
      | false => exact .inr (hs.lead hcur rfl hshare halone)
    · cases init <;> exact id

end

end Settled

end ThreadKernel
