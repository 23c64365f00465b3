import ThreadKernel.Registry.Turns
import ThreadKernel.Registry.Simulation

/-! The ids that `thread_create` hands out.

An id is the first index whose flag is clear, and `thread_exit` clears a flag while the
thread still waits to be joined. The ids of the threads of a process that have not been
joined are different on every run in which no `thread_create` finds its registry full or
the first free index still used by such a thread (`NewId`). -/
namespace ThreadKernel

open Table Lts Function

/-- What an event says of the page and the id under which `q` was created. -/
def Event.bear (q : Slot) (x : Option (Page × Index)) : Event → Option (Page × Index)
  | .created _ np a i => if np = q then some (a, i) else x
  | .handedOut np => if np = q then none else x
  | .quiet | .forked _ _ | .threadExited _ _ | .exited _ | .waited _ _ _ | .joined _ _ _ _
  | .killedOthers _ | .execed _ => x

/-- The page of the process and the id that the `thread_create` of the thread on slot `q`
returned; `none` if the slot was not taken by a `thread_create`. -/
def born (h : List Event) (q : Slot) : Option (Page × Index) :=
  h.foldr (fun e x => e.bear q x) none

section
variable {h : List Event} {e : Event} {q cur : Slot} {a : Page} {i : Index} {v : Word}

theorem born_of_about (he : e.about ≠ some q) : born (e :: h) q = born h q := by
  cases e <;> simp_all [born, Event.bear]

@[simp] theorem born_created : born (.created cur q a i :: h) q = some (a, i) := by
  simp [born, Event.bear]

@[simp] theorem born_handedOut : born (.handedOut q :: h) q = none := by
  simp [born, Event.bear]

@[simp] theorem born_threadExited : born (.threadExited cur v :: h) q = born h q := rfl

end

/-- Live, or not joined yet. -/
def Phase.present : Phase → Bool
  | .live _ | .zombie => true
  | .free | .embryo | .paged => false

theorem Phase.not_embryo_of_present {p : Phase} (h : p.present = true) : p.isEmbryo = false := by
  cases p <;> simp_all [Phase.present, Phase.isEmbryo]

theorem Phase.not_present_of_setUp {p : Phase} (h : p.isEmbryo = true ∨ p = .free) :
    p.present = false := by
  rcases h with h | rfl
  · cases p <;> simp_all [Phase.present, Phase.isEmbryo]
  · rfl

theorem Phase.live_or_zombie {p : Phase} (h : p.present = true) : p.isLive = true ∨ p = .zombie := by
  cases p <;> simp_all [Phase.present, Phase.isLive]

/-- `thread_create` finds a free index and no unjoined thread still uses it; `exit` makes
no free slot a zombie. -/
def Table.NewId (t : Table) : Event → Prop
  | .created _ _ a _ => ∃ i, (t.reg a).free = some i ∧
      ∀ q, (t.entry q).phase = .zombie → (t.entry q).share = some a → (t.entry q).order ≠ i
  | .exited cur => ∀ q, q ≠ cur → (t.entry q).share = (t.entry cur).share →
      (t.entry q).phase.present = true
  | .quiet | .handedOut _ | .forked _ _ | .threadExited _ _ | .waited _ _ _ | .joined _ _ _ _
  | .killedOthers _ | .execed _ => True

structure Distinct (h : List Event) (t : Table) : Prop where
  pages : Pages t
  flag : ∀ {q a}, t.Member q a → (t.reg a).isThere (t.entry q).order = true
  order : ∀ {q q' a}, q ≠ q' → (t.entry q).phase.present = true → (t.entry q').phase.present = true →
    (t.entry q).share = some a → (t.entry q').share = some a → (t.entry q).order ≠ (t.entry q').order
  born : ∀ {q a i}, (t.entry q).phase.present = true → born h q = some (a, i) →
    (t.entry q).share = some a ∧ (t.entry q).order = i
  embryo : ∀ {q}, (t.entry q).phase.isEmbryo = true → ThreadKernel.born h q = none

variable {h : List Event} {t t' : Table} {e : Event} {q : Slot} {a : Page}

/-- The procs `exit` makes zombies are threads. -/
theorem Table.NewId.present {cur : Slot} (hrule : t.NewId (.exited cur))
    (hcur : (t.entry cur).phase = .live .user) (hshare : (t.entry q).share = (t.entry cur).share) :
    (t.entry q).phase.present = true := by
  by_cases hq : q = cur
  · rw [hq, hcur]
    rfl
  · exact hrule q hq hshare

/-- A thread that a move brings to page `a`. -/
inductive Arrival (t t' : Table) (e : Event) (q : Slot) (a : Page) : Prop where
  | forked {cur : Slot} : e = .forked cur q → (∀ q', q' ≠ q → (t.entry q').share ≠ some a) →
      (t'.reg a).isThere (t'.entry q).order = true → Arrival t t' e q a
  | created {cur : Slot} {i : Index} : e = .created cur q a i → (t.reg a).free = some i →
      (t'.entry q).order = i → (t'.reg a).isThere i = true → Arrival t t' e q a

/-- A thread of page `a` was one before, or has arrived. -/
theorem Turn.present (hp : Pages t) (ht : Turn t t' e q) (hrule : t.NewId e)
    (hpresent : (t'.entry q).phase.present = true) (hshare : (t'.entry q).share = some a) :
    ((t.entry q).phase.present = true ∧ (t'.Live q → t.Live q) ∧ (t.entry q).share = some a ∧
      (t'.entry q).order = (t.entry q).order) ∨ Arrival t t' e q a := by
  cases ht with
  | same _ hentry =>
    simp only [hentry] at hpresent hshare
    exact .inl ⟨hpresent, by simp only [Live, hentry]; exact id, hshare, by rw [hentry]⟩
  | handOut _ _ hentry | reap _ _ hentry | join _ _ hentry | freed _ _ hentry =>
    simp only [hentry] at hpresent
    cases hpresent
  | setUp _ _ hnew =>
    rw [Phase.not_present_of_setUp hnew] at hpresent
    cases hpresent
  | @publish cur b he hpaged hb hentry hreg =>
    simp only [hentry] at hshare
    obtain rfl : a = b := Option.some.inj (hshare.symm.trans hb)
    refine .inr (.forked he (fun _ => hp.alone hpaged hb) ?_)
    simp [hentry, hreg]
  | @create cur b i he hemb hcur hcurb hentry hfull =>
    simp only [hentry] at hshare
    obtain rfl := Option.some.inj hshare
    subst he
    obtain ⟨j, hj, -⟩ := hrule
    rcases hfull with ⟨hfree, hreg⟩ | hfull
    · exact .inr (.created rfl hfree (by rw [hentry]) (by simp [hreg, Registry.Reg.add]))
    · rw [hfull] at hj
      cases hj
  | threadExit _ hlive hentry
  | enterExec _ hlive hentry | commit _ hlive hentry | leaveExec _ hlive hentry =>
    simp only [hentry] at hshare
    refine .inl ⟨by rw [hlive]; rfl, fun h => ?_, hshare, by rw [hentry]⟩
    rw [Live, hlive]
    rfl
  | @exit cur b he hcur hcb hb hkilled =>
    have hentry : t'.entry q = {t.entry q with phase := .zombie} := by
      simp only [hkilled, killed, if_pos hb]
    subst he
    simp only [hentry] at hshare
    refine .inl ⟨NewId.present hrule hcur (hb.trans hcb.symm), fun h => ?_, hshare, by rw [hentry]⟩
    simp only [Live, hentry] at h
    cases h

namespace Distinct

section

variable (hs : Distinct h t) (hm : Move t e t')
include hs hm

theorem arrival_order (hrule : t.NewId e) {q' : Slot}
    (hq : Arrival t t' e q a) (hne : q' ≠ q) (hpresent : (t'.entry q').phase.present = true)
    (hshare : (t'.entry q').share = some a) : (t'.entry q).order ≠ (t'.entry q').order := by
  rcases (hm.turn q').present hs.pages hrule hpresent hshare with ⟨hold, -, hshare', horder⟩ | hnew
  · cases hq with
    | forked _ hown => exact absurd hshare' (hown q' hne)
    | @created cur i he hfree hi =>
      subst he
      rw [hi, horder]
      rcases Phase.live_or_zombie hold with hlive | hz
      · intro heq
        have hclear : (t.reg a).isThere i = false := by
          simpa using Fin.eq_true_of_find?_eq_some hfree
        rw [heq, hs.flag ⟨hlive, hshare'⟩] at hclear
        cases hclear
      · obtain ⟨j, hj, hother⟩ := hrule
        obtain rfl := Option.some.inj (hfree.symm.trans hj)
        exact (hother q' hz hshare').symm
  · -- one move brings one thread
    cases hq with
    | forked he =>
      cases hnew with
      | forked he' => exact absurd (Event.forked.inj (he'.symm.trans he)).2 hne
      | created he' => cases he'.symm.trans he
    | created he =>
      cases hnew with
      | forked he' => cases he'.symm.trans he
      | created he' => exact absurd (Event.created.inj (he'.symm.trans he)).2.1 hne

theorem move_flag (hrule : t.NewId e)
    (hq : t'.Member q a) : (t'.reg a).isThere (t'.entry q).order = true := by
  have hpresent : (t'.entry q).phase.present = true := by
    have := hq.1
    unfold Live at this
    cases hph : (t'.entry q).phase <;> rw [hph] at this <;> first | rfl | cases this
  rcases (hm.turn q).present hs.pages hrule hpresent hq.2 with ⟨hold, hlive, hshare, horder⟩ | hnew
  · have hmember : t.Member q a := ⟨hlive hq.1, hshare⟩
    have hflag := hs.flag hmember
    have hnew := hs.pages.not_new (by rintro h; rw [h] at hold; cases hold) hshare
    rw [horder]
    cases hm.regTurn a with
    | same hreg | join _ _ _ _ hreg | reap _ _ _ _ _ hreg =>
      rw [hreg]
      exact hflag
    | blank hnext => exact absurd hnext hnew.1
    | publish _ hnp hnpa => exact absurd hnpa (hnew.2 hnp)
    | add _ _ _ _ hreg =>
      rw [hreg]
      simp only [Registry.Reg.add, update_apply]
      split
      · rfl
      · exact hflag
    | @clear cur hcur hcura hz hreg =>
      have hne : q ≠ cur := by
        rintro rfl
        have := hq.1
        rw [Live, hz] at this
        cases this
      have : (t.entry q).order ≠ (t.entry cur).order :=
        hs.order hne hold (by rw [hcur]; rfl) hshare hcura
      rw [hreg]
      simp only [Registry.Reg.clear, update_of_ne this]
      exact hflag
  · cases hnew with
    | forked _ _ hflag => exact hflag
    | created _ _ hi hflag =>
      rw [hi]
      exact hflag

theorem move_born (hrule : t.NewId e) {i : Index}
    (hpresent : (t'.entry q).phase.present = true) (hborn : ThreadKernel.born (e :: h) q = some (a, i)) :
    (t'.entry q).share = some a ∧ (t'.entry q).order = i := by
  cases hm.turn q with
  | same he hentry =>
    rw [born_of_about he] at hborn
    rw [hentry] at hpresent ⊢
    exact hs.born hpresent hborn
  | handOut _ _ hentry | reap _ _ hentry | join _ _ hentry | freed _ _ hentry =>
    simp only [hentry] at hpresent
    cases hpresent
  | setUp _ _ hnew =>
    rw [Phase.not_present_of_setUp hnew] at hpresent
    cases hpresent
  | publish he hpaged =>
    rw [born_of_about (by simp [he]), hs.embryo (by rw [hpaged]; rfl)] at hborn
    cases hborn
  | create he _ _ _ hentry =>
    rw [he, born_created] at hborn
    obtain ⟨rfl, rfl⟩ := Prod.mk.inj (Option.some.inj hborn)
    simp only [hentry, and_self]
  | threadExit he hlive hentry =>
    rw [he, born_threadExited] at hborn
    simp only [hentry]
    exact hs.born (by rw [hlive]; rfl) hborn
  | exit he hcur hcb hb hkilled =>
    subst he hkilled
    simp only [killed, if_pos hb]
    exact hs.born (NewId.present hrule hcur (hb.trans hcb.symm)) hborn
  | enterExec he hlive hentry | commit he hlive hentry =>
    rw [born_of_about (by simp [he])] at hborn
    simp only [hentry]
    exact hs.born (by rw [hlive]; rfl) hborn
  | leaveExec he hlive hentry =>
    rw [born_of_about he] at hborn
    simp only [hentry]
    exact hs.born (by rw [hlive]; rfl) hborn

theorem move_embryo
    (hemb : (t'.entry q).phase.isEmbryo = true) : ThreadKernel.born (e :: h) q = none := by
  cases hm.turn q with
  | same he hentry =>
    rw [hentry] at hemb
    rw [born_of_about he, hs.embryo hemb]
  | handOut he => rw [he, born_handedOut]
  | setUp he hold => rw [born_of_about he, hs.embryo hold]
  | exit _ _ _ hb hkilled =>
    subst hkilled
    simp only [killed, if_pos hb] at hemb
    cases hemb
  | publish _ _ _ hentry | create _ _ _ _ hentry | threadExit _ _ hentry | reap _ _ hentry
  | join _ _ hentry | freed _ _ hentry | enterExec _ _ hentry | commit _ _ hentry
  | leaveExec _ _ hentry =>
    simp only [hentry] at hemb
    cases hemb

theorem move (hrule : t.NewId e) : Distinct (e :: h) t' where
  pages := hs.pages.move hm
  flag := fun hq => hs.move_flag hm hrule hq
  order := fun {q q' a} hne hq hq' hshare hshare' => by
    rcases (hm.turn q).present hs.pages hrule hq hshare with ⟨hold, -, hsh, ho⟩ | hnew
    · rcases (hm.turn q').present hs.pages hrule hq' hshare' with ⟨hold', -, hsh', ho'⟩ | hnew'
      · rw [ho, ho']
        exact hs.order hne hold hold' hsh hsh'
      · exact (hs.arrival_order hm hrule hnew' hne hq hshare).symm
    · exact hs.arrival_order hm hrule hnew hne.symm hq' hshare'
  born := fun hq hb => hs.move_born hm hrule hq hb
  embryo := fun hq => hs.move_embryo hm hq

end

end Distinct

/-! ### Runs of the kernel -/

theorem boot_distinct : Distinct [] Table.boot where
  pages := Table.boot_pages
  flag := fun hq => by
    obtain ⟨rfl, rfl⟩ := Table.boot_share hq.2
    rfl
  order := fun hne _ _ hq hq' =>
    absurd ((Table.boot_share hq).1.trans (Table.boot_share hq').1.symm) hne
  born := fun _ hb => by cases hb
  embryo := fun _ => rfl

theorem distinct_run (hr : Run (Guarded Move Table.NewId) Table.boot h t) : Distinct h t :=
  hr.invariant (fun h t => Distinct h t) boot_distinct fun _ _ _ _ _ hs hm => hs.move hm.1 hm.2

theorem Agree.present_iff {x : Proc} {y : Entry} (h : Agree x y) : y.phase.present = true ↔
    x.state ≠ .unused ∧ x.state ≠ .embryo := by
  have hfree := h.free_iff
  have hembryo := h.embryo_iff
  cases hy : y.phase <;> simp_all [Phase.present, Phase.isEmbryo]

namespace Kernel

/-- `thread_create` finds a free index and no unjoined thread still uses it; `exit` makes
no slot a zombie that is free. -/
def NewId (s : Kernel) : Event → Prop
  | .created _ _ own _ => ∃ i ∈ freeIndex (s.shared own), ∀ q, (s.proc q).state = .zombie →
      (s.proc q).sharePtr = some own → (s.proc q).orderOfThread ≠ i
  | .exited cur => ∀ q, q ≠ cur → (s.proc q).sharePtr = (s.proc cur).sharePtr →
      (s.proc q).state ≠ .unused
  | .quiet | .handedOut _ | .forked _ _ | .threadExited _ _ | .waited _ _ _ | .joined _ _ _ _
  | .killedOthers _ | .execed _ => True

instance (s : Kernel) (e : Event) : Decidable (s.NewId e) := by
  apply @Event.casesOn _ e <;> intros <;> dsimp only [NewId] <;> infer_instance

/-- The same, and `exit` and `exec` leave running procs and slots in the making alone. -/
def NewIds (s : Kernel) (e : Event) : Prop := Apart s e ∧ s.NewId e

instance (s : Kernel) (e : Event) : Decidable (s.NewIds e) := inferInstanceAs (Decidable (_ ∧ _))

/-- The thread on slot `q` was created by a `thread_create` of the process with page `a`
that returned `i`, and has not been joined. -/
def Unjoined (s : Kernel) (h : List Event) (q : Slot) (a : Page) (i : Index) : Prop :=
  born h q = some (a, i) ∧ (s.proc q).state ≠ .unused

instance (s : Kernel) (h : List Event) (q : Slot) (a : Page) (i : Index) :
    Decidable (s.Unjoined h q a i) :=
  inferInstanceAs (Decidable (_ ∧ _))

end Kernel

open Kernel

theorem Abs.newId {s : Kernel} (ha : Abs s t) (h : s.NewIds e) : t.NewId e := by
  obtain ⟨hapart, h⟩ := h
  cases e with
  | created cur np own i =>
    obtain ⟨j, hj, hother⟩ := h
    refine ⟨j, by rw [ha.reg own]; exact hj, fun q hz hshare => ?_⟩
    rw [(ha.agree q).order]
    exact hother q ((ha.agree q).zombie_iff.mp hz) ((ha.agree q).share.symm.trans hshare)
  | exited cur =>
    intro q hq hshare
    rw [(ha.agree q).share, (ha.agree cur).share] at hshare
    exact (ha.agree q).present_iff.mpr ⟨h q hq hshare, (hapart q hq hshare).2⟩
  | quiet | handedOut | forked | threadExited | waited | joined | killedOthers | execed => trivial

theorem exists_distinct {s : Kernel} (hr : Run (Guarded Step NewIds) boot h s) :
    ∃ t, Distinct h t ∧ Abs s t := by
  have hrule : ∀ s t e, Sound s → Abs s t → NewIds s e → Apart s e ∧ t.NewId e :=
    fun s t e _ habs hrule => ⟨hrule.1, habs.newId hrule⟩
  obtain ⟨t, hrt, -, habs⟩ := run_sim hrule hr
  exact ⟨t, distinct_run hrt, habs⟩

/-- A thread that is not joined is in the table as it was created. -/
theorem Distinct.unjoined {s : Kernel} {i : Index} (hs : Distinct h t) (habs : Abs s t)
    (hq : s.Unjoined h q a i) :
    (t.entry q).phase.present = true ∧ (t.entry q).share = some a ∧ (t.entry q).order = i := by
  obtain ⟨hborn, hunused⟩ := hq
  have hpresent : (t.entry q).phase.present = true := by
    refine (habs.agree q).present_iff.mpr ⟨hunused, fun hemb => ?_⟩
    rw [hs.embryo ((habs.agree q).embryo_iff.mpr hemb)] at hborn
    cases hborn
  exact ⟨hpresent, hs.born hpresent hborn⟩

/-- On every run whose calls find what `NewIds` asks for: the ids of the threads of a
process that have not been joined are different, and none is the index of its master. -/
theorem ids_distinct {s : Kernel} (hr : Run (Guarded Step NewIds) boot h s) {i : Index}
    (hq : s.Unjoined h q a i) :
    (∀ q' j, q' ≠ q → s.Unjoined h q' a j → j ≠ i) ∧
    ∀ m, m ≠ q → (s.proc m).state ≠ .unused → (s.proc m).state ≠ .embryo →
      (s.proc m).sharePtr = some a → (s.proc m).imMaster = true → (s.proc m).orderOfThread ≠ i := by
  obtain ⟨t, hs, habs⟩ := exists_distinct hr
  obtain ⟨hpresent, hshare, horder⟩ := hs.unjoined habs hq
  refine ⟨fun q' j hne hq' => ?_, fun m hne hunused hemb hma _ => ?_⟩
  · obtain ⟨hpresent', hshare', horder'⟩ := hs.unjoined habs hq'
    rw [← horder, ← horder']
    exact hs.order hne hpresent' hpresent hshare' hshare
  · rw [← horder, ← (habs.agree m).order]
    exact hs.order hne ((habs.agree m).present_iff.mpr ⟨hunused, hemb⟩) hpresent
      ((habs.agree m).share.trans hma) hshare

/-- Slot 1 starts two threads, joins the first and starts a third, which gets the id of
the first. -/
theorem ids_distinct_reused : ∃ h s, Run (Guarded Step NewIds) boot h s ∧
    (s.Unjoined h 3 5 2 ∧ s.Unjoined h 2 5 1 ∧ .joined 1 2 1 7 ∈ h) ∧
    (∀ q' j, q' ≠ 3 → s.Unjoined h q' 5 j → j ≠ 2) ∧
    ∀ m, m ≠ 3 → (s.proc m).state ≠ .unused → (s.proc m).state ≠ .embryo →
      (s.proc m).sharePtr = some 5 → (s.proc m).imMaster = true → (s.proc m).orderOfThread ≠ 2 := by
  obtain ⟨h, s, hr, hp⟩ := reached NewIds
    (onCpu 0 (Op.childRuns ++ Op.creates ++ Op.creates ++
      [Op.threadJoin 1, .schedule, .threadExit 7, .schedule, .sleep (.addr 9)] ++ Op.rescan ++
      Op.preempted ++ Op.creates))
    (P := fun h s => s.Unjoined h 3 5 2 ∧ s.Unjoined h 2 5 1 ∧ .joined 1 2 1 7 ∈ h) (by decide +kernel)
  exact ⟨h, s, hr, hp, ids_distinct hr hp.1⟩

/-- Slot 1 starts a thread, which exits; before joining it, it starts another: both have
the id 1. -/
theorem created_id_reused_before_join : ∃ h s, Run Step boot h s ∧
    s.Unjoined h 2 5 1 ∧ s.Unjoined h 3 5 1 :=
  reaches (onCpu 0 (Op.childRuns ++ Op.creates ++ Op.preempted ++
    [Op.threadExit 7] ++ Op.rescan ++ Op.preempted ++ Op.creates)) (by decide +kernel)

end ThreadKernel
