import ThreadKernel.Proc.Effects
import ThreadKernel.Proc.Inversion

/-! What a `wait` that returns a pid gives back.

`wait` frees the zombies that `threads[]` of the child lists, whoever they belong to
by now: neither `thread_join` nor `exec` clears an entry, and a slot that was given
back may have become another process. It frees the child's process and nothing else
exactly when the list and the process agree (`Agrees`). -/
namespace ThreadKernel

namespace Kernel

/-- The state in which the loop of `wait` or `thread_join` by `cur` runs: a caller that
slept has been switched to by the scheduler of CPU `c`. -/
def entered (s : Kernel) (c : Nat) (cur : Slot) : Kernel :=
  match (s.cpu c).mode with
  | .scan _ => ((s.setCpu c ⟨some cur, .run .user⟩).setProc cur
      fun x => {x with state := .running}).setProc cur fun x => {x with chan := .addr 0}
  | _ => s

/-- `q` is in the `threads[]` of the process of `child`. -/
def InThreads (s : Kernel) (child q : Slot) : Prop :=
  ∃ own ∈ (s.proc child).sharePtr, ∃ i, (s.shared own).threads i = some q

instance (s : Kernel) (child q : Slot) : Decidable (s.InThreads child q) :=
  inferInstanceAs (Decidable (∃ own ∈ (s.proc child).sharePtr, ∃ i, (s.shared own).threads i = some q))

/-- The procs of the child's process, slots still being set up apart, are the zombies
with a pid that its `threads[]` lists. -/
def Agrees (s : Kernel) (child : Slot) : Prop :=
  ∀ q, ((s.proc q).sharePtr = (s.proc child).sharePtr ∧ (s.proc q).state ≠ .unused ∧
      (s.proc q).state ≠ .embryo) ↔
    ((s.proc q).state = .zombie ∧ (s.proc q).pid ≠ 0 ∧ s.InThreads child q)

instance (s : Kernel) (child : Slot) : Decidable (s.Agrees child) :=
  inferInstanceAs (Decidable (∀ _, _ ↔ _))

end Kernel

/-- The fields of an entry that belong to its process. -/
structure Untouched (x y : Proc) : Prop where
  state : y.state = x.state
  pid : y.pid = x.pid
  parent : y.parent = x.parent
  kstack : y.kstack = x.kstack
  killed : y.killed = x.killed

/-- `wait` by `cur`, from `s` to `s'`, returned the pid of the process of `child`: a child
of the caller, all of it `UNUSED` now, and nothing else touched. -/
structure Reaps (s s' : Kernel) (cur child : Slot) (pid : Word) : Prop where
  parent : (s.proc child).parent = some cur
  pid : (s.proc child).pid = pid
  all : ∀ q, (s.proc q).sharePtr = (s.proc child).sharePtr → (s.proc q).state ≠ .embryo →
    (s'.proc q).state = .unused
  others : ∀ q, (s.proc q).sharePtr ≠ (s.proc child).sharePtr → Untouched (s.proc q) (s'.proc q)

namespace Kernel

variable {s s' : Kernel} {c : Nat} {cur child : Slot} {pid : Word} {op : Op} {e : Event}
  {own : Page} {q : Slot}

theorem enter_entered {s₁ : Kernel} (h : Enter s c cur s₁) : s.entered c cur = s₁ := by
  cases h with
  | call hc => simp only [entered, hc]
  | wake hm => simp only [entered, hm]

theorem reap_of_waited (h : s.step c op = some (s', .waited cur child pid)) :
    ∃ own, (s.entered c cur).waitable cur child = true ∧
      ((s.entered c cur).proc child).sharePtr = some own ∧
      ((s.entered c cur).proc child).pid = pid ∧
      s' = ((s.entered c cur).reap child own).release c .user := by
  generalize he : Event.waited cur child pid = e at h
  cases step_case h with
  | body henter hbody =>
    cases hbody with
    | reaped hfind hown =>
      cases he
      rw [enter_entered henter]
      exact ⟨_, Fin.eq_true_of_find?_eq_some hfind, hown, rfl, rfl⟩
    | _ => cases he
  | _ => cases he

theorem listed_iff (hown : (s.proc child).sharePtr = some own) :
    Listed s q own (List.finRange 6) ↔
      (s.proc q).state = .zombie ∧ (s.proc q).pid ≠ 0 ∧ s.InThreads child q := by
  simp [Listed, InThreads, hown]

theorem reap_unlisted (h : ¬ Listed s q own (List.finRange 6)) :
    ((s.reap child own).proc q).state = (s.proc q).state ∧
      (q ≠ child → (s.reap child own).proc q = s.proc q) := by
  rcases (reapFold s q own child (List.finRange 6)).2.2 h with hq | ⟨hc, hq⟩
  · exact ⟨by rw [reap, hq], fun _ => by rw [reap, hq]⟩
  · exact ⟨by rw [reap, hq], fun hne => absurd hc hne⟩

theorem reap_listed (h : Listed s q own (List.finRange 6)) :
    (s.reap child own).proc q = reapedProc (s.proc q) :=
  (reapFold s q own child (List.finRange 6)).2.1 h

theorem reapOne_count {i : Index} {t : Slot} (child : Slot)
    (ht : (s.shared own).threads i = some t) (hz : (s.proc t).state = .zombie ∧ (s.proc t).pid ≠ 0) :
    ((reapOne child own s i).shared own).numOfThread = (s.shared own).numOfThread - 1 := by
  unfold reapOne
  rw [ht]
  simp only [if_pos hz, setShared_same, setProc_shared, freevmLast_shared, free_shared]

/-- The loop takes one off the count for each entry it gives back. -/
theorem reapFold_count (s : Kernel) (child : Slot) (own : Page) (is : List Index) :
    ((is.foldl (reapOne child own) s).shared own).numOfThread =
      (s.shared own).numOfThread - (Finset.univ.filter fun q => Listed s q own is).card := by
  induction is generalizing s with
  | nil => simp [Listed]
  | cons i is ih =>
    rw [List.foldl_cons, ih]
    by_cases hfound : ∃ t, (s.shared own).threads i = some t ∧
        (s.proc t).state = .zombie ∧ (s.proc t).pid ≠ 0
    · obtain ⟨t, ht, hz⟩ := hfound
      have hinsert : (Finset.univ.filter fun q => Listed s q own (i :: is)) =
          insert t (Finset.univ.filter fun q => Listed (reapOne child own s i) q own is) := by
        ext q
        simp only [Finset.mem_insert, Finset.mem_filter, Finset.mem_univ, true_and,
          listed_found q child is ht hz]
        by_cases hq : q = t
        · subst hq
          simp only [true_or, iff_true]
          exact ⟨hz.1, hz.2, i, List.mem_cons_self .., ht⟩
        · simp [hq]
      have hnot : t ∉ Finset.univ.filter fun q => Listed (reapOne child own s i) q own is := by
        simp [listed_found t child is ht hz]
      rw [reapOne_count child ht hz, hinsert, Finset.card_insert_of_notMem hnot]
      omega
    · have hskip : reapOne child own s i = s := reapOne_skip fun t ht hz => hfound ⟨t, ht, hz⟩
      simp only [hskip, listed_skip _ hfound]

end Kernel

open Kernel Lts

/-- A `wait` that returns a pid has freed that child's process and nothing else exactly
when, as it starts, the `threads[]` of the child lists its process. -/
theorem wait_reaps_iff_agrees {s s' : Kernel} {c : Nat} {op : Op} {cur child : Slot} {pid : Word}
    (h : s.step c op = some (s', .waited cur child pid)) :
    Reaps (s.entered c cur) s' cur child pid ↔ (s.entered c cur).Agrees child := by
  obtain ⟨own, hwait, hown, hpid, rfl⟩ := reap_of_waited h
  generalize s.entered c cur = s at *
  constructor
  · intro hreaps q
    rw [← listed_iff hown]
    constructor
    · rintro ⟨hshare, hunused, hembryo⟩
      by_contra hnot
      have := hreaps.all q hshare hembryo
      rw [release_proc, (reap_unlisted hnot).1] at this
      exact hunused this
    · intro hlisted
      refine ⟨?_, by rw [hlisted.1]; simp, by rw [hlisted.1]; simp⟩
      by_contra hshare
      have := (hreaps.others q hshare).state
      rw [release_proc, reap_listed hlisted, hlisted.1] at this
      cases this
  · intro hagrees
    refine ⟨?_, hpid, fun q hshare hembryo => ?_, fun q hshare => ?_⟩
    · simp only [waitable, decide_eq_true_eq] at hwait
      exact hwait.1
    · rw [release_proc]
      by_cases hunused : (s.proc q).state = .unused
      · have hnot : ¬ Listed s q own (List.finRange 6) := fun hl => by
          rw [hl.1] at hunused
          cases hunused
        rw [(reap_unlisted hnot).1, hunused]
      · rw [reap_listed ((listed_iff hown).mpr ((hagrees q).mp ⟨hshare, hunused, hembryo⟩))]
        rfl
    · have hnot : ¬ Listed s q own (List.finRange 6) := fun hl =>
        hshare ((hagrees q).mpr ((listed_iff hown).mp hl)).1
      have hne : q ≠ child := by
        rintro rfl
        exact hshare rfl
      rw [release_proc, (reap_unlisted hnot).2 hne]
      exact ⟨rfl, rfl, rfl, rfl, rfl⟩

/-- Slot 1 starts a thread on slot 2 and exits; `init`, asleep in `wait`, reaps both. -/
theorem wait_reaps_threads : ∃ s s' : Kernel, s.step 0 .schedule = some (s', .waited 0 1 2) ∧
    (s.entered 0 0).Agrees 1 ∧ Reaps (s.entered 0 0) s' 0 1 2 := by
  obtain ⟨-, s, s', -, hs, hagrees⟩ := reaches_step
    (onCpu 0 (Op.started ++ Op.forks ++ [Op.wait, .schedule] ++ Op.creates ++
      [Op.exit, .schedule, .schedule]))
    0 .schedule (e := .waited 0 1 2) (Q := fun _ s _ => (s.entered 0 0).Agrees 1) (by decide +kernel)
  exact ⟨s, s', hs, hagrees, (wait_reaps_iff_agrees hs).mpr hagrees⟩

/-- Slot 1 starts a thread on slot 2, joins it and lives on; `init` forks again and gets
slot 2. Both children exit. The `wait` that returns the first child's pid frees the
second child as well, whose pid (4) nobody is told. -/
theorem wait_reaps_other_process : ∃ h s s', Run Step boot h s ∧
    s.step 0 .wait = some (s', .waited 0 1 2) ∧
    (s.proc 2).parent = some 0 ∧ (s.proc 2).imMaster = true ∧ (s.proc 2).pid = 4 ∧
    (s.proc 2).sharePtr ≠ (s.proc 1).sharePtr ∧
    (s.proc 2).state = .zombie ∧ (s'.proc 2).state = .unused :=
  reaches_step
    (onCpu 0 (Op.childRuns ++ Op.creates ++
      -- slot 1 waits for its thread, which runs and exits; then `init` and slot 1 again
      [Op.threadJoin 1, .schedule, .threadExit 7] ++ Op.rescan ++ Op.preempted ++ Op.preempted ++
      [Op.schedule, .schedule] ++ Op.forks ++ Op.preempted ++
      [Op.exit, .schedule, .exit] ++ Op.rescan))
    0 .wait (by decide +kernel)

end ThreadKernel
