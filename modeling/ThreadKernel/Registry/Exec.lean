import ThreadKernel.Registry.Ids
import ThreadKernel.Registry.Registered
import ThreadKernel.Registry.Spawn

/-! The process after an `exec` that returned 0.

`kill_other_threads` frees the procs that the flags point at and leaves the flags, the
entries and the count. Between it and the end of `exec` the caller is the only one that
could change the registry of its page, so an `exec` that finds the registry and the
process with nobody but the caller in them leaves them so (`Solo`), and the new image is
as able to start threads as a process that `fork` has just made. -/
namespace ThreadKernel

open Table Lts

/-- Nobody but `cur` is in the process and the registry of page `a`. -/
structure Table.Alone (t : Table) (cur : Slot) (a : Page) : Prop where
  others : ∀ q, q ≠ cur → (t.entry q).share = some a → (t.entry q).phase.present = false
  flags : ∀ i, (t.reg a).isThere i = true ↔ i = (t.entry cur).order
  entry : (t.reg a).threads (t.entry cur).order = some cur

/-- `exec` finds nobody else. -/
def Table.Solo (t : Table) : Event → Prop
  | .killedOthers cur => ∀ a, (t.entry cur).share = some a → t.Alone cur a
  | .quiet | .handedOut _ | .forked _ _ | .created _ _ _ _ | .threadExited _ _ | .exited _
  | .waited _ _ _ | .joined _ _ _ _ | .execed _ => True

/-- A proc in the middle of `exec` is alone. -/
structure Executing (t : Table) : Prop where
  pages : Pages t
  alone : ∀ {q init a}, (t.entry q).phase = .live (.exec init) → (t.entry q).share = some a →
    t.Alone q a

variable {h : List Event} {t t' : Table} {e : Event} {cur q : Slot} {a : Page} {s s' : Kernel}

theorem Phase.present_of_live {p : Phase} (h : p.isLive = true) : p.present = true := by
  cases p <;> simp_all [Phase.present, Phase.isLive]

namespace Table.Alone

section
variable (hal : t.Alone cur a)
include hal

theorem eq_of_live (hq : t.Live q) (hshare : (t.entry q).share = some a) :
    q = cur := by
  by_contra hne
  have := hal.others q hne hshare
  rw [Phase.present_of_live hq] at this
  cases this

/-- While `cur` is busy with `exec` nobody else of the page makes a call. -/
theorem not_caller
    (hbusy : (t.entry cur).phase ≠ .live .user ∨ e = .killedOthers cur) {p : Slot} {e' : Event}
    (hp : (t.entry p).phase = .live .user) (hpa : (t.entry p).share = some a)
    (he' : e' ≠ .killedOthers cur) : e ≠ e' := by
  obtain rfl := hal.eq_of_live (by rw [Live, hp]; rfl) hpa
  rcases hbusy with hbusy | rfl
  · exact absurd hp hbusy
  · exact he'.symm

/-- A move that is not a call of `cur` itself brings nobody to the page. -/
theorem move_others (hp : Pages t) (hshare : (t.entry cur).share = some a)
    (hbusy : (t.entry cur).phase ≠ .live .user ∨ e = .killedOthers cur) (hm : Move t e t')
    (hne : q ≠ cur) (hq : (t'.entry q).share = some a) : (t'.entry q).phase.present = false := by
  cases hm.turn q with
  | same _ hentry =>
    rw [hentry] at hq ⊢
    exact hal.others q hne hq
  | setUp _ _ hnew => exact Phase.not_present_of_setUp hnew
  | publish _ hpaged _ hentry =>
    simp only [hentry] at hq
    exact absurd hshare (hp.alone hpaged hq hne.symm)
  | create he _ hp hpa hentry =>
    simp only [hentry] at hq
    obtain rfl := Option.some.inj hq
    exact absurd he (hal.not_caller hbusy hp hpa (by simp))
  | threadExit _ hlive hentry
  | enterExec _ hlive hentry | commit _ hlive hentry | leaveExec _ hlive hentry =>
    simp only [hentry] at hq
    exact absurd (hal.eq_of_live (by rw [Live, hlive]; rfl) hq) hne
  | exit he hp hpb hb hkilled =>
    simp only [hkilled, killed, if_pos hb] at hq
    obtain rfl := Option.some.inj (hb.symm.trans hq)
    exact absurd he (hal.not_caller hbusy hp hpb (by simp))
  | handOut _ _ hentry | reap _ _ hentry | join _ _ hentry | freed _ _ hentry =>
    simp only [hentry]
    rfl

theorem move_reg (hp : Pages t) (hlive : t.Live cur) (hshare : (t.entry cur).share = some a)
    (hbusy : (t.entry cur).phase ≠ .live .user ∨ e = .killedOthers cur) (hm : Move t e t')
    (hlive' : t'.Live cur) :
    (t'.reg a).isThere = (t.reg a).isThere ∧ (t'.reg a).threads = (t.reg a).threads := by
  have hnew := hp.not_new (by rintro h; rw [Live, h] at hlive; cases hlive) hshare
  cases hm.regTurn a with
  | same hreg | join _ _ _ _ hreg | reap _ _ _ _ _ hreg =>
    rw [hreg]
    exact ⟨rfl, rfl⟩
  | blank hnext => exact absurd hnext hnew.1
  | publish _ hpaged hnpa => exact absurd hnpa (hnew.2 hpaged)
  | add he hp hpa => exact absurd he (hal.not_caller hbusy hp hpa (by simp))
  | @clear p hp hpa hz =>
    obtain rfl := hal.eq_of_live (by rw [Live, hp]; rfl) hpa
    rw [Live, hz] at hlive'
    cases hlive'

theorem move (hp : Pages t) (hlive : t.Live cur) (hshare : (t.entry cur).share = some a)
    (hbusy : (t.entry cur).phase ≠ .live .user ∨ e = .killedOthers cur) (hm : Move t e t')
    (hlive' : t'.Live cur) (horder : (t'.entry cur).order = (t.entry cur).order) :
    t'.Alone cur a := by
  obtain ⟨hflags, hthreads⟩ := hal.move_reg hp hlive hshare hbusy hm hlive'
  refine ⟨fun q hne hq => hal.move_others hp hshare hbusy hm hne hq, fun i => ?_, ?_⟩
  · rw [hflags, horder]
    exact hal.flags i
  · rw [hthreads, horder]
    exact hal.entry

end

end Table.Alone

theorem Executing.move (hs : Executing t) (hm : Move t e t') (hrule : t.Solo e) : Executing t' where
  pages := hs.pages.move hm
  alone := fun {q init a} hq hshare => by
    have hlive' : t'.Live q := by rw [Live, hq]; rfl
    cases hm.turn q with
    | same _ hentry =>
      rw [hentry] at hq hshare
      exact (hs.alone hq hshare).move hs.pages (by rw [Live, hq]; rfl) hshare (.inl (by rw [hq]; simp))
        hm hlive' (by rw [hentry])
    | setUp _ _ hnew =>
      rw [hq] at hnew
      rcases hnew with hnew | hnew <;> cases hnew
    | @enterExec init' he hphase hentry =>
      simp only [hentry] at hshare
      subst he
      exact (hrule a hshare).move hs.pages (by rw [Live, hphase]; rfl) hshare (.inr rfl) hm hlive'
        (by rw [hentry])
    | exit _ _ _ hb hkilled =>
      simp only [hkilled, killed, if_pos hb] at hq
      cases hq
    | @leaveExec init' _ _ hentry =>
      simp only [hentry] at hq
      cases init' <;> cases hq
    | handOut _ _ hentry | publish _ _ _ hentry | create _ _ _ _ hentry | threadExit _ _ hentry
    | reap _ _ hentry | join _ _ hentry | freed _ _ hentry | commit _ _ hentry =>
      simp only [hentry] at hq
      cases hq

theorem boot_executing : Executing Table.boot where
  pages := Table.boot_pages
  alone := fun hq hshare => by
    obtain ⟨rfl, -⟩ := Table.boot_share hshare
    cases hq

theorem executing_run (hr : Run (Guarded Move Table.Solo) Table.boot h t) : Executing t :=
  hr.invariant (fun _ t => Executing t) boot_executing fun _ _ _ _ _ hs hm => hs.move hm.1 hm.2

/-! ### The kernel -/

namespace Kernel

/-- `exec` finds the process and its registry with nobody but the caller in them. -/
def Solo (s : Kernel) : Event → Prop
  | .killedOthers cur => ∀ a ∈ (s.proc cur).sharePtr, s.Clean cur a
  | .quiet | .handedOut _ | .forked _ _ | .created _ _ _ _ | .threadExited _ _ | .exited _
  | .waited _ _ _ | .joined _ _ _ _ | .execed _ => True

instance (s : Kernel) (e : Event) : Decidable (s.Solo e) := by
  apply @Event.casesOn _ e <;> intros <;> dsimp only [Solo] <;> infer_instance

/-- The same, and `exit` leaves running procs and slots in the making alone. -/
def SoloExec (s : Kernel) (e : Event) : Prop := Apart s e ∧ s.Solo e

instance (s : Kernel) (e : Event) : Decidable (s.SoloExec e) := inferInstanceAs (Decidable (_ ∧ _))

end Kernel

open Kernel

theorem Abs.clean_iff (ha : Abs s t) : t.Alone cur a ↔ s.Clean cur a := by
  have hpresent : ∀ q, (t.entry q).phase.present = false ↔
      (s.proc q).state = .unused ∨ (s.proc q).state = .embryo := by
    intro q
    rw [← Bool.not_eq_true, (ha.agree q).present_iff]
    tauto
  constructor
  · intro hal
    refine ⟨fun q hne hq => (hpresent q).mp (hal.others q hne ((ha.agree q).share.trans hq)),
      fun i => ?_, ?_⟩
    · rw [← (ha.agree cur).order, ← hal.flags i, ha.reg a]
      rfl
    · have := hal.entry
      rwa [ha.reg a, (ha.agree cur).order] at this
  · intro hc
    refine ⟨fun q hne hq => (hpresent q).mpr (hc.alone q hne ((ha.agree q).share.symm.trans hq)),
      fun i => ?_, ?_⟩
    · rw [ha.reg a, (ha.agree cur).order]
      exact hc.flags i
    · rw [ha.reg a, (ha.agree cur).order]
      exact hc.entry

theorem Abs.solo (ha : Abs s t) (h : s.Solo e) : t.Solo e := by
  cases e with
  | killedOthers cur =>
    intro a hshare
    exact ha.clean_iff.mpr (h a ((ha.agree cur).share.symm.trans hshare))
  | _ => trivial

theorem Kernel.Clean.solo (hclean : s.Clean cur a) (hused : (s.proc cur).state ≠ .unused)
    (hshare : (s.proc cur).sharePtr = some a) (hmaster : (s.proc cur).imMaster = true) :
    ∃ own, (s.proc cur).sharePtr = some own ∧ (∀ q, q ≠ cur → ¬ s.Member q own) ∧
      (s.proc cur).imMaster = true ∧ s.FiveThreads cur own := by
  refine ⟨a, hshare, fun q hq hmem => ?_, hmaster, hclean.fiveThreads hused hshare hmaster⟩
  rcases hclean.alone q hq hmem.2 with hs | hs
  · rcases hmem.1 with h | h | h <;> rw [hs] at h <;> cases h
  · rcases hmem.1 with h | h | h <;> rw [hs] at h <;> cases h

theorem execCommit_of_execed (h : Step s (.execed cur) s') :
    ∃ c own init, s.cpu c = ⟨some cur, .run (.execing init)⟩ ∧ (s.proc cur).sharePtr = some own ∧
      s' = (s.execCommit cur own).goto c .user := by
  obtain ⟨c, op, hstep⟩ := h
  generalize he : Event.execed cur = e at hstep
  cases step_case hstep with
  | execCommit hc hown =>
    cases he
    exact ⟨c, _, _, hc, hown, rfl⟩
  | body henter hbody => cases hbody <;> cases he
  | _ => cases he

/-- A process that `fork` has just made is alone too. -/
theorem fork_leaves_solo {np : Slot} (hr : Run (Guarded Step Apart) boot h s)
    (hstep : Step s (.forked cur np) s') :
    ∃ own, (s'.proc np).sharePtr = some own ∧ (∀ q, q ≠ np → ¬ s'.Member q own) ∧
      (s'.proc np).imMaster = true ∧ s'.FiveThreads np own := by
  have hrule : ∀ s t e, Sound s → Abs s t → Apart s e → Apart s e ∧ True :=
    fun _ _ _ _ _ hapart => ⟨hapart, trivial⟩
  obtain ⟨t, hrt, hi, ha⟩ := run_sim hrule hr
  have hpages : Pages t := hrt.invariant (fun _ t => Pages t) Table.boot_pages
    fun _ _ _ _ _ hp hm => hp.move hm.1
  obtain ⟨c, own, hc, hown, rfl⟩ : ∃ c own, s.cpu c = ⟨some cur, .run (.forkPublish np)⟩ ∧
      (s.proc np).sharePtr = some own ∧ s' = (s.forkPublish np own).goto c .user := by
    obtain ⟨c, op, hstep⟩ := hstep
    generalize he : Event.forked cur np = e at hstep
    cases step_case hstep with
    | forkPublish hc hown =>
      cases he
      exact ⟨c, _, hc, hown, rfl⟩
    | body henter hbody => cases hbody <;> cases he
    | _ => cases he
  -- nobody else has the page yet
  have hphase : (t.entry np).phase = .paged :=
    @Abs.paged s t ha (.cpu c) _ np (by simp [Kernel.code, hc]; rfl) rfl
  obtain ⟨own', hown', hothers⟩ := hpages.own hphase
  obtain rfl : own' = own := Option.some.inj (hown'.symm.trans ((ha.agree np).share.trans hown))
  have hproc : ∀ q, q ≠ np → ((s.forkPublish np own').goto c .user).proc q = s.proc q := fun q hq => by
    rw [Kernel.goto, setCpu_proc, forkPublish_proc, if_neg hq]
  have hnp : ((s.forkPublish np own').goto c .user).proc np =
      {s.proc np with orderOfThread := 0, imMaster := true, state := .runnable} := by
    rw [Kernel.goto, setCpu_proc, forkPublish_proc, if_pos rfl]
  refine Kernel.Clean.solo (a := own') ⟨fun q hq hshare => ?_, fun i => ?_, ?_⟩ ?_ ?_ ?_
  · rw [hproc q hq, ← (ha.agree q).share] at hshare
    exact absurd hshare (hothers q hq)
  · rw [Kernel.goto, setCpu_shared, forkPublish_shared, if_pos rfl, ← Kernel.goto, hnp]
    simp
  · rw [hnp, Kernel.goto, setCpu_shared, forkPublish_shared, if_pos rfl]
    simp
  · rw [hnp]
    simp
  · rw [hnp]
    exact hown
  · rw [hnp]

/-- The first process forks. -/
theorem fork_leaves_solo_init : ∃ h s s', Run (Guarded Step Apart) boot h s ∧
    Step s (.forked 0 1) s' ∧ ∃ own, s'.FiveThreads 1 own := by
  obtain ⟨h, s, s', hr, hs, -⟩ := reached_step Apart (onCpu 0 (Op.started ++ Op.forks.dropLast))
    0 .forkPublish (e := .forked 0 1) (Q := fun _ _ _ => True) (by decide +kernel)
  obtain ⟨own, -, -, -, hfive⟩ := fork_leaves_solo hr ⟨0, _, hs⟩
  exact ⟨h, s, s', hr, ⟨0, _, hs⟩, own, hfive⟩

end ThreadKernel
