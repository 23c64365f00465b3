import ThreadKernel.Proc.Safety

/-! What `sys_kill` marks.

The first loop of `sys_kill` compares pids and nothing else, so it also stops at a free
slot, with pid 0 or with the pid of whoever was there last. The second loop marks every
slot with the `sharePtr` of that one, in use or not, and a null `sharePtr` equals every
other null one. `allocproc` does not clear the mark. -/
namespace ThreadKernel

open Lts

namespace Kernel

/-- The first loop of `sys_kill`. -/
def killFind (s : Kernel) (pid : Word) : Option Slot :=
  Fin.find? fun p => (s.proc p).pid = pid

/-- The slots whose `killed` the second loop sets. -/
def KillSets (s : Kernel) (pid : Word) (q : Slot) : Prop :=
  ∃ p ∈ s.killFind pid, (s.proc q).sharePtr = (s.proc p).sharePtr

instance (s : Kernel) (pid : Word) (q : Slot) : Decidable (s.KillSets pid q) :=
  match h : s.killFind pid with
  | some p => decidable_of_iff ((s.proc q).sharePtr = (s.proc p).sharePtr) (by simp [KillSets, h])
  | none => .isFalse (by simp [KillSets, h])

/-- `sys_kill` once it has its argument, with what it returns. -/
def sysKill (s : Kernel) (pid : Word) : Kernel × Int :=
  match s.killFind pid with
  | some p => (s.kill p, 0)
  | none => (s, -1)

theorem killCall_eq (s : Kernel) (c : Nat) (pid : Word) :
    s.killCall c .user (some pid) = some ((s.sysKill pid).1, .quiet) := by
  unfold killCall sysKill killFind
  rw [if_pos rfl]
  simp only
  split <;> rename_i hfind <;> rw [hfind]

theorem sysKill_lock (s : Kernel) (pid : Word) : (s.sysKill pid).1.lock = s.lock := by
  unfold sysKill
  split <;> rfl

/-! ### One call -/

/-- `q` is in use and has the shared data of `p`. -/
def Shares (s : Kernel) (p q : Slot) : Prop :=
  (s.proc q).state ≠ .unused ∧
    (q = p ∨ ∃ a, (s.proc p).sharePtr = some a ∧ (s.proc q).sharePtr = some a)

/-- The whole effect on a proc that is killed. -/
def killedProc (x : Proc) : Proc :=
  {x with killed := true, state := if x.state = .sleeping then .runnable else x.state}

/-- What `sys_kill(pid)` is for: it kills the process of the proc with that pid, and
fails if there is none. -/
def KillsRight (s : Kernel) (pid : Word) : Prop :=
  ((∃ p, (s.proc p).state ≠ .unused ∧ (s.proc p).pid = pid) →
    (s.sysKill pid).2 = 0 ∧ ∃ p, (s.proc p).state ≠ .unused ∧ (s.proc p).pid = pid ∧
      (∀ q, s.KillSets pid q ↔ s.Shares p q) ∧
      (s.sysKill pid).1 = s.mapProc fun q x => if s.KillSets pid q then killedProc x else x) ∧
  ((¬ ∃ p, (s.proc p).state ≠ .unused ∧ (s.proc p).pid = pid) →
    s.sysKill pid = (s, -1) ∧ ∀ q, ¬ s.KillSets pid q)

/-- What `sys_kill(pid)` is asked to find: the first slot with that pid is in use, and
so is every other slot with its `sharePtr`, which is not null. -/
def KillFinds (s : Kernel) (pid : Word) : Prop :=
  ∀ p ∈ s.killFind pid, (s.proc p).state ≠ .unused ∧
    ∀ q, q ≠ p → (s.proc q).sharePtr = (s.proc p).sharePtr →
      (s.proc q).state ≠ .unused ∧ (s.proc p).sharePtr ≠ none

instance (s : Kernel) (pid : Word) : Decidable (s.KillFinds pid) :=
  match h : s.killFind pid with
  | some p => decidable_of_iff ((s.proc p).state ≠ .unused ∧
      ∀ q, q ≠ p → (s.proc q).sharePtr = (s.proc p).sharePtr →
        (s.proc q).state ≠ .unused ∧ (s.proc p).sharePtr ≠ none) (by simp [KillFinds, h])
  | none => .isTrue (by simp [KillFinds, h])

variable {s s' : Kernel} {pid : Word} {p q : Slot}

theorem pid_of_killFind (h : s.killFind pid = some p) : (s.proc p).pid = pid := by
  simpa using Fin.eq_true_of_find?_eq_some h

theorem no_pid_of_killFind (h : s.killFind pid = none) (q : Slot) : (s.proc q).pid ≠ pid := by
  simpa using Fin.find?_eq_none_iff.mp h q

theorem killSets_iff (h : s.killFind pid = some p) :
    s.KillSets pid q ↔ (s.proc q).sharePtr = (s.proc p).sharePtr := by
  simp [KillSets, h]

theorem sysKill_found (h : s.killFind pid = some p) : s.sysKill pid = (s.kill p, 0) := by
  unfold sysKill
  rw [h]

theorem kill_eq (h : s.killFind pid = some p) :
    s.kill p = s.mapProc fun q x => if s.KillSets pid q then killedProc x else x := by
  have hproc : (fun q => if (s.proc q).sharePtr = (s.proc p).sharePtr then killedProc (s.proc q)
      else s.proc q) = fun q => if s.KillSets pid q then killedProc (s.proc q) else s.proc q := by
    funext q
    rw [if_congr (killSets_iff h).symm rfl rfl]
  exact congrArg (fun f => {s with proc := f}) hproc

theorem killsRight_of_none (h : s.killFind pid = none) : s.KillsRight pid := by
  have hnone : ¬ ∃ p, (s.proc p).state ≠ .unused ∧ (s.proc p).pid = pid := by
    intro ⟨p, _, hp⟩
    exact no_pid_of_killFind h p hp
  refine ⟨fun hp => absurd hp hnone, fun _ => ⟨by unfold sysKill; rw [h], fun q hq => ?_⟩⟩
  obtain ⟨p, hp, -⟩ := hq
  rw [h] at hp
  cases hp

/-- What is killed is the process of the slot found, in use throughout. -/
theorem KillsRight.finds (h : s.KillsRight pid) : s.KillFinds pid := by
  intro p hfind
  have hp : ∃ p, (s.proc p).state ≠ .unused ∧ (s.proc p).pid = pid := by
    by_contra hnone
    have hret := congrArg Prod.snd (h.2 hnone).1
    rw [sysKill_found hfind] at hret
    exact absurd (show (0 : Int) = -1 from hret) (by decide)
  obtain ⟨-, p', -, -, hsets, -⟩ := h.1 hp
  obtain ⟨hused, hp'⟩ := (hsets p).mp ((killSets_iff hfind).mpr rfl)
  refine ⟨hused, fun q hne hshare => ?_⟩
  obtain ⟨hq, hq'⟩ := (hsets q).mp ((killSets_iff hfind).mpr hshare)
  refine ⟨hq, fun hnull => ?_⟩
  -- with a null `sharePtr`, both slots would have to be the one proc meant
  rcases hp' with rfl | ⟨a, -, hp'⟩
  · rcases hq' with rfl | ⟨b, hb, -⟩
    · exact hne rfl
    · rw [hnull] at hb
      cases hb
  · rw [hnull] at hp'
    cases hp'

theorem KillFinds.right (h : s.KillFinds pid) : s.KillsRight pid := by
  cases hfind : s.killFind pid with
  | none => exact killsRight_of_none hfind
  | some p =>
    obtain ⟨hused, hothers⟩ := h p hfind
    have hpid := pid_of_killFind hfind
    refine ⟨fun _ => ?_, fun hnone => absurd ⟨p, hused, hpid⟩ hnone⟩
    rw [sysKill_found hfind]
    refine ⟨rfl, p, hused, hpid, fun q => ?_, kill_eq hfind⟩
    rw [killSets_iff hfind]
    constructor
    · intro hshare
      by_cases hq : q = p
      · exact ⟨hq ▸ hused, .inl hq⟩
      · obtain ⟨hqused, hnull⟩ := hothers q hq hshare
        obtain ⟨a, ha⟩ := Option.ne_none_iff_exists'.mp hnull
        exact ⟨hqused, .inr ⟨a, ha, hshare.trans ha⟩⟩
    · intro ⟨_, hq⟩
      rcases hq with rfl | ⟨a, hp, hq⟩
      · rfl
      · rw [hq, hp]

/-! ### Runs -/

/-- No slot that is free or in the making is marked. -/
def Unmarked (s : Kernel) : Prop :=
  ∀ q, (s.proc q).state = .unused ∨ (s.proc q).state = .embryo → (s.proc q).killed = false

end Kernel

/-- The pid `sys_kill` is asked for. -/
def Op.killPid : Op → Option Word
  | .kill pid => pid
  | _ => none

/-- The slot that `fork` or `thread_create` made `RUNNABLE`. -/
def Event.started : Event → Option Slot
  | .forked _ np | .created _ np _ _ => some np
  | _ => none

/-- A step under the name of what was asked for and of what came of it. -/
def Taken (s : Kernel) (a : (Nat × Op) × Event) (s' : Kernel) : Prop :=
  s.act a.1 = some (s', a.2)

namespace Kernel

/-- The slots `sys_kill` marks when `p` is the one its first loop stops at are neither
free nor in the making. -/
def MarksProcs (s : Kernel) (p : Slot) : Prop :=
  ∀ q, (s.proc q).sharePtr = (s.proc p).sharePtr →
    (s.proc q).state ≠ .unused ∧ (s.proc q).state ≠ .embryo

instance (s : Kernel) (p : Slot) : Decidable (s.MarksProcs p) :=
  inferInstanceAs (Decidable (∀ _, _))

/-- What a step is asked to find: `exit` and `exec` as in `Apart`, `sys_kill` no slot to
mark that is free or in the making. -/
def Spares (s : Kernel) (a : (Nat × Op) × Event) : Prop :=
  Apart s a.2 ∧ ∀ p, a.1.2.killPid.bind s.killFind = some p → s.MarksProcs p

instance (s : Kernel) (a : (Nat × Op) × Event) : Decidable (s.Spares a) :=
  match h : a.1.2.killPid.bind s.killFind with
  | some p => decidable_of_iff (Apart s a.2 ∧ s.MarksProcs p) (by simp [Spares, h])
  | none => decidable_of_iff (Apart s a.2) (by simp [Spares, h])

variable {s s' : Kernel} {a : (Nat × Op) × Event} {c : Nat} {q : Slot} {k : Ctx}

theorem Unmarked.target (hu : Unmarked s) (hi : Sound s) (hm : (s.cpu c).mode = .run k)
    (ht : k.target = some q) : (s.proc q).killed = false :=
  hu q (.inr (target_embryo hi hm ht))

theorem Unmarked.step (hu : Unmarked s) (hi : Sound s) (h : Guarded Taken Spares s a s') :
    Unmarked s' := by
  obtain ⟨hstep, -, hspares⟩ := h
  intro q hq
  have hfate := (step_case hstep).fate q
  generalize s'.proc q = y at hfate hq
  cases hfate with
  | kept | paged | copied | led => exact hu q hq
  | moved _ hst _ => rcases hst with rfl | rfl | rfl <;> simp at hq
  | marked hop hfind hshare =>
    -- the slot is not asleep, so it was free or in the making before
    obtain ⟨hunused, hembryo⟩ := hspares _ (by rw [hop]; exact hfind) q hshare
    by_cases hst : (s.proc q).state = .sleeping <;> simp_all
  | handedOut _ hunused => exact hu q (.inl hunused)
  | stacked hm hk => exact hu q hq
  | abandoned hm hk _ => exact hu.target hi hm (by rcases hk with rfl | rfl | rfl <;> rfl)
  | copyFailed hm => exact hu.target hi hm rfl
  | createFailed hc => exact hu.target hi (c := a.1.1) (by rw [hc]) rfl
  | published | created | left | killed => simp at hq
  | handedOn _ _ _ _ hst =>
    rcases hst with rfl | ⟨-, rfl⟩
    · exact hu q hq
    · simp at hq
  | reaped | joined | freed => rfl
  | unstacked _ hz => simp [hz] at hq

end Kernel

open Kernel

theorem boot_unmarked : Unmarked boot := by
  intro q _
  simp only [boot]
  split <;> rfl

theorem unmarked_run {h : List ((Nat × Op) × Event)} {s : Kernel}
    (hr : Run (Guarded Taken Spares) boot h s) : Sound s ∧ Unmarked s := by
  refine hr.invariant (fun _ s => Sound s ∧ Unmarked s) ⟨boot_sound, boot_unmarked⟩ ?_
  intro h s a s' _ ⟨hi, hu⟩ hs
  exact ⟨hi.step (step_case hs.1) hs.2.1, hu.step hi hs⟩

/-- What `fork` or `thread_create` starts was in the making, and its mark is as it was. -/
theorem started_fate {s s' : Kernel} {a : (Nat × Op) × Event} {np : Slot} (hstep : Taken s a s')
    (he : a.2.started = some np) :
    (s'.proc np).state = .runnable ∧ (s'.proc np).killed = (s.proc np).killed ∧
      ∃ k, (s.cpu a.1.1).mode = .run k ∧ k.target = some np := by
  obtain ⟨⟨c, op⟩, e⟩ := a
  cases step_case hstep with
  | @forkPublish cur np' own hc =>
    cases he
    refine ⟨?_, ?_, _, by rw [hc], rfl⟩ <;>
      rw [Kernel.goto, setCpu_proc, forkPublish_proc, if_pos rfl]
  | @create cur np' own hc =>
    cases he
    refine ⟨?_, ?_, _, by rw [hc], rfl⟩ <;> rw [Kernel.goto, setCpu_proc, create_proc, if_pos rfl]
  | body henter hbody => cases hbody <;> cases he
  | _ => cases he

/-- `sys_kill(pid)` kills the process of the proc with that pid and nothing else, or fails
if there is none, exactly when the first slot with the pid is in use and so is every other
slot with its `sharePtr`, which is not null. On every run in which it marks no slot that
is free or in the making, and `exit` and `exec` find no sibling `RUNNING` or `EMBRYO`,
every proc that `fork` or `thread_create` makes `RUNNABLE` starts unmarked. -/
theorem kills_right_iff (s : Kernel) :
    (∀ pid : Word, s.KillsRight pid ↔ s.KillFinds pid) ∧
    ∀ h, Run (Guarded Taken Spares) boot h s → ∀ a s' np, Guarded Taken Spares s a s' →
      a.2.started = some np → (s'.proc np).state = .runnable ∧ (s'.proc np).killed = false := by
  refine ⟨fun pid => ⟨KillsRight.finds, KillFinds.right⟩, ?_⟩
  intro h hr a s' np hs he
  obtain ⟨hi, hu⟩ := unmarked_run hr
  obtain ⟨hrunnable, hsame, k, hm, ht⟩ := started_fate hs.1 he
  exact ⟨hrunnable, hsame.trans (hu.target hi hm ht)⟩

/-- Slot 1 has started a thread on slot 2, which sleeps; `init` kills the process by the
thread's pid and forks again. -/
theorem kills_right_threads : ∃ h s s', Run (Guarded Taken Spares) boot h s ∧
    Guarded Taken Spares s ((0, .forkPublish), .forked 0 3) s' ∧
    ((s.proc 1).killed = true ∧ (s.proc 2).killed = true ∧ (s.proc 2).state = .runnable ∧
      (s.proc 0).killed = false) ∧
    s.KillsRight 3 ∧ (s'.proc 3).state = .runnable ∧ (s'.proc 3).killed = false := by
  have hrun : ∃ h s, Run (Guarded Taken Spares) boot h s ∧
      (s.step 0 .forkPublish).any (fun r => r.2 = .forked 0 3 ∧ True) ∧ s.KillFinds 3 ∧
      (s.proc 1).killed = true ∧ (s.proc 2).killed = true ∧ (s.proc 2).state = .runnable ∧
      (s.proc 0).killed = false :=
    Run.exists_of_named Spares
      (onCpu 0 (Op.childRuns ++ Op.creates ++ Op.preempted ++
        [Op.sleep (.addr 9)] ++ Op.rescan ++
        [Op.kill (some 3), .fork, .allocKstack true, .forkPage true, .forkCopy true]))
      (by decide +kernel)
  obtain ⟨h, s, hr, hstep, hfinds, hmarks⟩ := hrun
  obtain ⟨s', hs, -⟩ := exists_of_any (Q := fun _ => True) hstep
  have hlast : Guarded Taken Spares s ((0, .forkPublish), .forked 0 3) s' :=
    ⟨hs, trivial, fun p hp => by cases hp⟩
  exact ⟨h, s, s', hr, hlast, hmarks, ((kills_right_iff s).1 3).mpr hfinds,
    (kills_right_iff s).2 h hr _ s' 3 hlast rfl⟩

/-- `sys_kill(0)` by `init`, with nobody else there, returns 0: the first slot with pid 0
is a free one, and its null `sharePtr` is that of every free slot. The next `fork` starts
a child that is killed. -/
theorem kill_marks_free_slots : ∃ h s h' t, Run Taken boot h s ∧
    (∀ p, (s.proc p).pid = 0 → (s.proc p).state = .unused) ∧ (s.sysKill 0).2 = 0 ∧
    Run Taken s (((0, .forkPublish), .forked 0 1) :: h') t ∧ ((0, .kill (some 0)), .quiet) ∈ h' ∧
    (t.proc 1).state = .runnable ∧ (t.proc 1).killed = true := by
  have hrun : ∃ h s, Run Taken boot h s ∧
      (∀ p, (s.proc p).pid = 0 → (s.proc p).state = .unused) ∧ (s.sysKill 0).2 = 0 ∧
      (trace (named Kernel.act) (fun _ _ => True) (onCpu 0 (.kill (some 0) :: Op.forks)) [] s).any fun r =>
        r.1.head? = some ((0, .forkPublish), .forked 0 1) ∧ ((0, .kill (some 0)), .quiet) ∈ r.1.tail ∧
          (r.2.proc 1).state = .runnable ∧ (r.2.proc 1).killed = true :=
    Run.exists_of_acts (onCpu 0 Op.started) (by decide +kernel)
  obtain ⟨h, s, hr, hpid, hret, hmore⟩ := hrun
  obtain ⟨⟨h', t⟩, htrace, hp'⟩ := (Option.any_eq_true _ _).mp hmore
  have hr' := Run.of_trace named_of_named (.nil : Run (Guarded Taken fun _ _ => True) s [] s) htrace
  obtain ⟨hhead, hkill, hstate, hkilled⟩ := of_decide_eq_true hp'
  obtain ⟨h'', rfl⟩ : ∃ h'', h' = ((0, .forkPublish), .forked 0 1) :: h'' := List.head?_eq_some_iff.mp hhead
  exact ⟨h, s, h'', t, hr, hpid, hret, hr'.unguarded, hkill, hstate, hkilled⟩

end ThreadKernel
