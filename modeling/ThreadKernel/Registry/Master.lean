import ThreadKernel.Proc.Fate
import ThreadKernel.Registry.Simulation
import ThreadKernel.Registry.Turns

/-! Whom `thread_exit` wakes.

`thread_exit` goes through `threads[]` for the first proc with `imMaster` set and wakes what
sleeps on it. The entries of threads that are gone are not cleared, and their slots may have
become masters of other processes, so the search is only right as long as the master is
registered at index 0: no `thread_create` finds all six indices taken, and nobody but the
thread at index 0 calls `exec`, which makes the caller the master. -/
namespace ThreadKernel

open Table Lts Function

/-- Every live proc is registered under its index. -/
structure Enrolled (t : Table) : Prop where
  pages : Pages t
  listed : ∀ {q a}, t.Member q a → (t.reg a).isThere (t.entry q).order = true ∧
    (t.reg a).threads (t.entry q).order = some q

/-- What a move is asked to find, so that the master stays the first of its process. -/
def Table.Headed (t : Table) : Event → Prop
  | .created _ _ own _ => (t.reg own).free ≠ none
  | .execed cur => (t.entry cur).order = 0
  | .quiet | .handedOut _ | .forked _ _ | .threadExited _ _ | .exited _ | .waited _ _ _
  | .joined _ _ _ _ | .killedOthers _ => True

/-- The same, and the master is at index 0. -/
structure Led (t : Table) : Prop extends Enrolled t where
  first : ∀ {q a}, t.Member q a → (t.entry q).master = true → (t.entry q).order = 0

variable {t t' : Table} {e : Event} {cur q q' : Slot} {a own : Page} {h : List Event}
  {s s' : Kernel} {v : Word}

namespace Enrolled

theorem order_injective (hs : Enrolled t) (hq : t.Member q a) (hq' : t.Member q' a)
    (ho : (t.entry q).order = (t.entry q').order) : q = q' := by
  have hthreads := (hs.listed hq).2
  rw [ho, (hs.listed hq').2] at hthreads
  exact (Option.some.inj hthreads).symm

theorem move_listed (hs : Enrolled t) (hm : Move t e t')
    (hrule : ∀ {cur np b i}, e = .created cur np b i → (t.reg b).free ≠ none) (hq : t'.Member q a) :
    (t'.reg a).isThere (t'.entry q).order = true ∧
      (t'.reg a).threads (t'.entry q).order = some q := by
  rcases (hm.turn q).member hq with ⟨hold, horder, -⟩ | ⟨cur, -, -, -, horder, hreg⟩ |
    ⟨cur, i, he, -, -, -, horder, -, hreg⟩
  · obtain ⟨hthere, hthreads⟩ := hs.listed hold
    rw [horder]
    cases hm.regTurn a with
    | same hreg | join _ _ _ _ hreg | reap _ _ _ _ _ hreg =>
      rw [hreg]
      exact ⟨hthere, hthreads⟩
    | blank hnext => exact absurd hnext (hs.pages.not_new_of_member hold).1
    | publish _ hpaged hnpa => exact absurd hnpa ((hs.pages.not_new_of_member hold).2 hpaged)
    | @add cur np i _ _ _ hfree hreg =>
      have hclear : (t.reg a).isThere i = false := by
        simpa using Fin.eq_true_of_find?_eq_some hfree
      have hne : (t.entry q).order ≠ i := by
        intro ho
        rw [ho, hclear] at hthere
        cases hthere
      rw [hreg]
      simp only [Registry.Reg.add, update_of_ne hne]
      exact ⟨hthere, hthreads⟩
    | @clear cur hcur hcura hz hreg =>
      have hne : (t.entry q).order ≠ (t.entry cur).order := by
        intro ho
        obtain rfl := hs.order_injective hold ⟨by rw [Live, hcur]; rfl, hcura⟩ ho
        have hlive := hq.1
        rw [Live, hz] at hlive
        cases hlive
      rw [hreg]
      simp only [Registry.Reg.clear, update_of_ne hne]
      exact ⟨hthere, hthreads⟩
  · rw [horder, hreg]
    simp
  · rw [horder]
    rcases hreg with ⟨-, hreg⟩ | hfull
    · rw [hreg]
      simp [Registry.Reg.add]
    · exact absurd hfull (hrule he)

theorem move (hs : Enrolled t) (hm : Move t e t')
    (hrule : ∀ {cur np b i}, e = .created cur np b i → (t.reg b).free ≠ none) : Enrolled t' :=
  ⟨hs.pages.move hm, hs.move_listed hm hrule⟩

end Enrolled

theorem boot_enrolled : Enrolled Table.boot where
  pages := Table.boot_pages
  listed := fun hq => by
    obtain ⟨rfl, rfl⟩ := Table.boot_share hq.2
    exact ⟨rfl, rfl⟩

theorem Led.move (hs : Led t) (hm : Move t e t') (hrule : t.Headed e) : Led t' where
  toEnrolled := hs.toEnrolled.move hm fun he => by subst he; exact hrule
  first := fun {q a} hq hmaster => by
    rcases (hm.turn q).member hq with ⟨hold, horder, hled⟩ | ⟨_, -, -, -, horder, -⟩ |
      ⟨_, _, -, -, -, -, -, hnot, -⟩
    · rw [horder]
      rcases hled with hsame | rfl
      · exact hs.first hold (hsame.symm.trans hmaster)
      · exact hrule
    · exact horder
    · rw [hnot] at hmaster
      cases hmaster

theorem led_run (hr : Run (Guarded Move Table.Headed) Table.boot h t) : Led t := by
  refine hr.invariant (fun _ t => Led t) ⟨boot_enrolled, fun hq _ => ?_⟩
    fun _ _ _ _ _ hs hm => hs.move hm.1 hm.2
  obtain ⟨rfl, -⟩ := Table.boot_share hq.2
  rfl

/-! ### The kernel -/

/-- In `wait` or `thread_join`. -/
def Resume.awaits : Resume → Bool
  | .waitLoop | .joinLoop _ => true
  | .release _ | .slept _ => false

namespace Kernel

/-- `m` is a master of the process of `own`, asleep on its own address in `wait` or
`thread_join`. -/
def Awaits (s : Kernel) (own : Page) (m : Slot) : Prop :=
  (s.proc m).sharePtr = some own ∧ (s.proc m).imMaster = true ∧ (s.proc m).state = .sleeping ∧
    (s.proc m).chan = .proc m ∧ (s.proc m).context.any Resume.awaits = true

instance (s : Kernel) (own : Page) (m : Slot) : Decidable (s.Awaits own m) :=
  inferInstanceAs (Decidable (_ ∧ _))

/-- What a call is asked to find, so that the master stays the first of its process. -/
def Headed (s : Kernel) : Event → Prop
  /- `thread_create`: an index is free -/
  | .created _ _ own _ => freeIndex (s.shared own) ≠ none
  /- `exec`: the caller is at index 0 -/
  | .execed cur => (s.proc cur).orderOfThread = 0
  | .quiet | .handedOut _ | .forked _ _ | .threadExited _ _ | .exited _ | .waited _ _ _
  | .joined _ _ _ _ | .killedOthers _ => True

instance (s : Kernel) (e : Event) : Decidable (s.Headed e) := by
  apply @Event.casesOn _ e <;> intros <;> dsimp only [Headed] <;> infer_instance

/-- The same, and `exit` and `exec` leave running procs and slots in the making alone. -/
def MasterFirst (s : Kernel) (e : Event) : Prop := Apart s e ∧ s.Headed e

instance (s : Kernel) (e : Event) : Decidable (s.MasterFirst e) :=
  inferInstanceAs (Decidable (_ ∧ _))

theorem masterChan_of_first {m : Slot} (hm : (s.proc m).imMaster = true)
    (hthreads : (s.shared own).threads 0 = some m) : s.masterChan own = .proc m := by
  have hindex : s.masterIndex own = some 0 := by
    refine Fin.find?_eq_some_iff.mpr ⟨by rw [hthreads]; exact hm, fun j hj => ?_⟩
    exact absurd hj (Fin.not_lt_zero j)
  simp only [masterChan, hindex, hthreads]
  rfl

end Kernel

open Kernel

theorem Abs.headed (ha : Abs s t) (hrule : s.Headed e) : t.Headed e := by
  cases e with
  | created cur np own i =>
    intro hfree
    rw [ha.reg own] at hfree
    exact hrule hfree
  | execed cur => exact (ha.agree cur).order.trans hrule
  | _ => trivial

theorem threadExit_of_threadExited (hstep : Step s (.threadExited cur v) s') :
    ∃ c own, (s.proc cur).sharePtr = some own ∧ s' = (s.threadExit cur own v).sched c cur := by
  obtain ⟨c, op, hstep⟩ := hstep
  generalize he : Event.threadExited cur v = e at hstep
  cases step_case hstep with
  | threadExit hc hown =>
    cases he
    exact ⟨c, _, hown, rfl⟩
  | body henter hbody => cases hbody <;> cases he
  | _ => cases he

/-- On every run in which no `thread_create` finds the indices taken and only the thread at
index 0 calls `exec`, a `thread_exit` leaves no master of its process asleep in `wait` or
`thread_join`. -/
theorem threadExit_wakes_master (hr : Run (Guarded Step MasterFirst) boot h s)
    (hstep : Step s (.threadExited cur v) s') (hshare : (s.proc cur).sharePtr = some own) {m : Slot}
    (hm : s.Awaits own m) : (s'.proc m).state ≠ .sleeping := by
  obtain ⟨t, hrt, -, ha⟩ := run_sim (fun _ _ _ _ habs hrule => ⟨hrule.1, habs.headed hrule.2⟩) hr
  obtain ⟨c, own', hown, rfl⟩ := threadExit_of_threadExited hstep
  obtain rfl : own = own' := Option.some.inj (hshare.symm.trans hown)
  obtain ⟨hpage, hmaster, hstate, hchan, -⟩ := hm
  have hs := led_run hrt
  have hmember : t.Member m own :=
    ⟨(ha.agree m).live_iff.mpr (.inr (.inr hstate)), (ha.agree m).share.trans hpage⟩
  have hfirst := hs.first hmember ((ha.agree m).master.trans hmaster)
  have hthreads : (s.shared own).threads 0 = some m := by
    have := (hs.listed hmember).2
    rwa [hfirst, ha.reg own] at this
  rw [sched_proc, threadExit_proc, masterChan_of_first hmaster hthreads]
  split
  · nofun
  · rw [wakeup1_proc, hstate, hchan]
    simp

/-- Slot 1 joins the thread it has started, which wakes it. -/
theorem threadExit_wakes_one : ∃ h s s', Run (Guarded Step MasterFirst) boot h s ∧
    Step s (.threadExited 2 7) s' ∧ s.Awaits 5 1 ∧ (s'.proc 1).state ≠ .sleeping := by
  obtain ⟨h, s, s', hr, hs, hshare, ha⟩ := reached_step MasterFirst
    (onCpu 0 (Op.childRuns ++ Op.creates ++ [Op.threadJoin 1, .schedule]))
    0 (.threadExit 7) (e := .threadExited 2 7)
    (Q := fun _ s _ => (s.proc 2).sharePtr = some 5 ∧ s.Awaits 5 1) (by decide +kernel)
  have hexit : Step s (.threadExited 2 7) s' := ⟨0, _, hs⟩
  exact ⟨h, s, s', hr, hexit, ha, threadExit_wakes_master hr hexit hshare ha⟩

/-- The thread in slot 2 calls `exec`, which gives slot 1 back and leaves it in `threads[0]`,
forks a child, which gets slot 1, and joins a thread that it starts: `thread_exit` finds the
child first, and slot 2 sleeps on. -/
theorem threadExit_wakes_stranger : ∃ h s s', Run Step boot h s ∧
    s.step 0 (.threadExit 7) = some (s', .threadExited 3 7) ∧ .execed 2 ∈ h ∧
    (s.proc 3).sharePtr = some 5 ∧ s.Awaits 5 2 ∧ (s'.proc 2).state = .sleeping :=
  reaches_step
    (onCpu 0 (Op.childRuns ++ Op.creates ++ Op.preempted ++
      [Op.exec, .execFinish true] ++ Op.forks ++ Op.creates ++ [Op.threadJoin 2, .schedule]))
    0 (.threadExit 7) (by decide +kernel)

end ThreadKernel
