import ThreadKernel.Registry.Ids

/-! What a `thread_join` that returns 0 has joined.

The search of `thread_join` looks at the id, the state, the parent and `imMaster` of a
proc and not at its process. While `exit` and `exec` leave running siblings alone, a
zombie of the caller's own process that it can find is the thread it is asked for, with
the value that thread passed to `thread_exit` (`Known`); whether one of these is found
depends on which of the matching zombies comes first in the table (`FindsOwn`). -/
namespace ThreadKernel

open Table Lts

/-- What an event says of the value the thread on slot `q` passed to `thread_exit`. -/
def Event.pass (q : Slot) (x : Option Word) : Event → Option Word
  | .threadExited cur v => if cur = q then some v else x
  | .handedOut np => if np = q then none else x
  | .quiet | .forked _ _ | .created _ _ _ _ | .exited _ | .waited _ _ _ | .joined _ _ _ _
  | .killedOthers _ | .execed _ => x

/-- What the thread on slot `q` has passed to `thread_exit`. -/
def passed (h : List Event) (q : Slot) : Option Word :=
  h.foldr (fun e x => e.pass q x) none

theorem passed_of_about {h : List Event} {e : Event} {q : Slot} (he : e.about ≠ some q) :
    passed (e :: h) q = passed h q := by
  cases e <;> simp_all [passed, Event.pass]

@[simp] theorem passed_threadExited {h : List Event} {q : Slot} {v : Word} :
    passed (.threadExited q v :: h) q = some v := by
  simp [passed, Event.pass]

/-- Where the threads that are not masters come from, and the zombies among them. -/
structure Known (h : List Event) (t : Table) : Prop where
  pages : Pages t
  live : ∀ {q a}, t.Member q a → (t.entry q).master = false → (t.entry q).phase.booting = false →
    born h q = some (a, (t.entry q).order)
  zombie : ∀ {q a}, (t.entry q).phase = .zombie → (t.entry q).master = false →
    (t.entry q).share = some a → t.Alive a →
    born h q = some (a, (t.entry q).order) ∧ passed h q = some (t.entry q).retval

variable {h : List Event} {t t' : Table} {e : Event} {q : Slot} {a : Page}

/-- A process comes to life only with a page that no zombie has. -/
theorem Move.alive (hm : Move t e t') (hp : Pages t) (ha : t'.Alive a) :
    t.Alive a ∨ ∀ q, (t.entry q).phase = .zombie → (t.entry q).share ≠ some a := by
  obtain ⟨p, hp'⟩ := ha
  rcases (hm.turn p).member hp' with ⟨hold, -⟩ | ⟨_, -, hpaged, hshare, -⟩ | ⟨cur, _, -, hcur, hcura, -⟩
  · exact .inl ⟨p, hold⟩
  · refine .inr fun q hz => hp.alone hpaged hshare ?_
    rintro rfl
    rw [hpaged] at hz
    cases hz
  · exact .inl ⟨cur, by rw [Live, hcur]; rfl, hcura⟩

namespace Known

section
variable (hs : Known h t) (hm : Move t e t')
include hs hm

theorem move_live (hq : t'.Member q a)
    (hmaster : (t'.entry q).master = false) (hboot : (t'.entry q).phase.booting = false) :
    born (e :: h) q = some (a, (t'.entry q).order) := by
  obtain ⟨hlive, hshare⟩ := hq
  unfold Live at hlive
  cases hm.turn q with
  | same he hentry =>
    rw [hentry] at hlive hshare hmaster hboot ⊢
    rw [born_of_about he]
    exact hs.live ⟨hlive, hshare⟩ hmaster hboot
  | setUp _ _ hnew =>
    rw [Phase.not_live_of_setUp hnew] at hlive
    cases hlive
  | create he _ _ _ hentry =>
    simp only [hentry] at hshare ⊢
    obtain rfl := Option.some.inj hshare
    rw [he, born_created]
  | exit _ _ _ hb hkilled =>
    simp only [hkilled, killed, if_pos hb] at hlive
    cases hlive
  | publish _ _ _ hentry | commit _ _ hentry =>
    simp only [hentry] at hmaster
    cases hmaster
  | handOut _ _ hentry | threadExit _ _ hentry | reap _ _ hentry | join _ _ hentry
  | freed _ _ hentry =>
    simp only [hentry] at hlive
    cases hlive
  | @enterExec init he hphase hentry =>
    simp only [hentry] at hshare hmaster hboot ⊢
    cases init with
    | true => cases hboot
    | false =>
      rw [born_of_about (by simp [he])]
      exact hs.live ⟨by rw [Live, hphase]; rfl, hshare⟩ hmaster (by rw [hphase]; rfl)
  | @leaveExec init he hphase hentry =>
    simp only [hentry] at hshare hmaster hboot ⊢
    cases init with
    | true => cases hboot
    | false =>
      rw [born_of_about he]
      exact hs.live ⟨by rw [Live, hphase]; rfl, hshare⟩ hmaster (by rw [hphase]; rfl)

theorem move_zombie (hz : (t'.entry q).phase = .zombie)
    (hmaster : (t'.entry q).master = false) (hshare : (t'.entry q).share = some a)
    (ha : t'.Alive a) :
    born (e :: h) q = some (a, (t'.entry q).order) ∧
      passed (e :: h) q = some (t'.entry q).retval := by
  cases hm.turn q with
  | same he hentry =>
    rw [hentry] at hz hmaster hshare ⊢
    rw [born_of_about he, passed_of_about he]
    rcases hm.alive hs.pages ha with halive | hnone
    · exact hs.zombie hz hmaster hshare halive
    · exact absurd hshare (hnone q hz)
  | setUp _ _ hnew =>
    rw [hz] at hnew
    rcases hnew with hnew | hnew <;> cases hnew
  | threadExit he hlive hentry =>
    -- the thread itself has just ended
    simp only [hentry] at hmaster hshare ⊢
    rw [he, born_threadExited, passed_threadExited]
    exact ⟨hs.live ⟨by rw [Live, hlive]; rfl, hshare⟩ hmaster (by rw [hlive]; rfl), rfl⟩
  | exit _ _ _ hb hkilled =>
    subst hkilled
    simp only [killed, if_pos hb] at hshare
    obtain rfl := Option.some.inj (hb.symm.trans hshare)
    exact absurd ha not_alive_killed
  | handOut _ _ hentry | publish _ _ _ hentry | create _ _ _ _ hentry | reap _ _ hentry
  | join _ _ hentry | freed _ _ hentry | enterExec _ _ hentry | commit _ _ hentry
  | leaveExec _ _ hentry =>
    simp only [hentry] at hz
    cases hz

theorem move : Known (e :: h) t' :=
  ⟨hs.pages.move hm, fun hq => hs.move_live hm hq, fun hz => hs.move_zombie hm hz⟩

end

end Known

theorem boot_known : Known [] Table.boot where
  pages := Table.boot_pages
  live := fun hq _ hboot => by
    obtain ⟨rfl, -⟩ := Table.boot_share hq.2
    cases hboot
  zombie := fun hz _ hshare => by
    obtain ⟨rfl, -⟩ := Table.boot_share hshare
    cases hz

theorem known_run {rule : Table → Event → Prop} (hr : Run (Guarded Move rule) Table.boot h t) :
    Known h t :=
  hr.invariant (fun h t => Known h t) boot_known fun _ _ _ _ _ hs hm => hs.move hm.1

/-! ### The kernel -/

namespace Kernel

/-- The first zombie that matches in `thread_join(t, ..)` by `cur` is of its own process. -/
def FindsOwn (s : Kernel) (cur : Slot) (t : Nat) : Prop :=
  ∃ p, s.joinable cur t p = true ∧ (∀ p', p' < p → s.joinable cur t p' = false) ∧
    (s.proc p).sharePtr = (s.proc cur).sharePtr

instance (s : Kernel) (cur : Slot) (t : Nat) : Decidable (s.FindsOwn cur t) :=
  inferInstanceAs (Decidable (∃ _, _ ∧ _ ∧ _))

end Kernel

open Kernel

/-- `thread_join(t, &r)` by `cur`, from `s` to `s'` after the history `h`, deallocated the
thread `p` of its own process that it was asked for, and touched no other process. -/
structure JoinsOwn (h : List Event) (s s' : Kernel) (cur p : Slot) (t : Nat) (r : Word) : Prop where
  shared : (s.proc p).sharePtr = (s.proc cur).sharePtr
  freed : (s'.proc p).state = .unused
  created : ∃ a i, (s.proc cur).sharePtr = some a ∧ born h p = some (a, i) ∧ i.val = t
  value : passed h p = some r
  procs : ∀ q, (s.proc q).sharePtr ≠ (s.proc cur).sharePtr → s'.proc q = s.proc q
  counts : ∀ a, (s.proc cur).sharePtr ≠ some a →
    (s'.shared a).numOfThread = (s.shared a).numOfThread

theorem joinReap_of_joined {s s' : Kernel} {c : Nat} {op : Op} {cur p : Slot} {n : Nat} {r : Word}
    (h : s.step c op = some (s', .joined cur p n r)) :
    ∃ own, Enter s c cur (s.entered c cur) ∧ Fin.find? ((s.entered c cur).joinable cur n) = some p ∧
      ((s.entered c cur).proc cur).sharePtr = some own ∧ ((s.entered c cur).proc p).retval = r ∧
      s' = ((s.entered c cur).joinReap p own).release c .user := by
  generalize he : Event.joined cur p n r = e at h
  cases step_case h with
  | body henter hbody =>
    cases hbody with
    | joined hfind _ hown =>
      cases he
      rw [enter_entered henter]
      exact ⟨_, henter, hfind, hown, rfl, rfl⟩
    | _ => cases he
  | _ => cases he

/-- After every run in which `exit` and `exec` find no sibling `RUNNING` or `EMBRYO`, a
`thread_join` that returns 0 has joined the thread it was asked for and touched nothing
else exactly when the first matching zombie of the table is of its process. -/
theorem joins_own_iff_findsOwn {s s' : Kernel} {c : Nat} {op : Op} {cur p : Slot} {n : Nat} {r : Word}
    (hr : Run (Guarded Step Apart) boot h s) (hstep : s.step c op = some (s', .joined cur p n r)) :
    JoinsOwn h (s.entered c cur) s' cur p n r ↔ (s.entered c cur).FindsOwn cur n := by
  have hrule : ∀ s t e, Sound s → Abs s t → Apart s e → Apart s e ∧ True :=
    fun _ _ _ _ _ hapart => ⟨hapart, trivial⟩
  obtain ⟨t, hrt, hi, habs⟩ := run_sim hrule hr
  have hs : Known h t := known_run hrt
  obtain ⟨own, henter, hfind, hown, hretval, rfl⟩ := joinReap_of_joined hstep
  obtain ⟨-, hc⟩ := enter_sound hi henter
  have ha := enter_abs habs henter
  generalize s.entered c cur = s at *
  obtain ⟨hp, hfirst⟩ := Fin.find?_eq_some_iff.mp hfind
  constructor
  · intro hjoins
    exact ⟨p, hp, hfirst, hjoins.shared⟩
  · rintro ⟨p₁, hp₁, hfirst₁, hshare⟩
    -- the search stops at the first match
    have hfind₁ := Fin.find?_eq_some_iff.mpr ⟨hp₁, hfirst₁⟩
    obtain rfl : p₁ = p := Option.some.inj (hfind₁.symm.trans hfind)
    simp only [joinable, decide_eq_true_eq] at hp
    obtain ⟨horder, hz, -, hmaster⟩ := hp
    have hmember : t.Member cur own :=
      ⟨by rw [Live, ha.cpu (c := c) (p := cur) (by rw [hc]) (by rw [hc]; rfl)]; rfl,
        (ha.agree cur).share.trans hown⟩
    obtain ⟨hborn, hpassed⟩ := hs.zombie ((ha.agree p₁).zombie_iff.mpr hz)
      ((ha.agree p₁).master.trans hmaster) ((ha.agree p₁).share.trans (hshare.trans hown)) ⟨cur, hmember⟩
    refine ⟨hshare, ?_, ⟨own, _, hown, hborn, ?_⟩, ?_, fun q hq => ?_, fun a ha' => ?_⟩
    · rw [release_proc, joinReap_proc, if_pos rfl]
    · rw [(ha.agree p₁).order]
      exact horder
    · rw [hpassed, (ha.agree p₁).retval, hretval]
    · rw [release_proc, joinReap_proc, if_neg]
      rintro rfl
      exact hq hshare
    · rw [release_shared, joinReap_shared, if_neg]
      rintro rfl
      exact ha' hown

/-- Slot 1 waits for its thread 1, which has exited with 7, and is switched to. -/
theorem joins_own_woken : ∃ h s s', Run (Guarded Step Apart) boot h s ∧
    s.step 0 .schedule = some (s', .joined 1 2 1 7) ∧ (s.entered 0 1).FindsOwn 1 1 ∧
    JoinsOwn h (s.entered 0 1) s' 1 2 1 7 := by
  obtain ⟨h, s, s', hr, hs, hfinds⟩ := reached_step Apart
    (onCpu 0 (Op.childRuns ++ Op.creates ++
      [Op.threadJoin 1, .schedule, .threadExit 7] ++ Op.rescan ++ [Op.tick, .yield]))
    0 .schedule (e := .joined 1 2 1 7) (Q := fun _ s _ => (s.entered 0 1).FindsOwn 1 1)
    (by decide +kernel)
  exact ⟨h, s, s', hr, hs, hfinds, (joins_own_iff_findsOwn hr hs).mpr hfinds⟩

/-- `init` forks slots 1 and 2, and each starts a thread with the id 1, on slots 3 and 4.
The thread of slot 1 exits; the `thread_join(1, ..)` of slot 2 takes it, with its value,
while its own thread has not run yet. -/
theorem join_takes_other_process : ∃ h s s', Run Step boot h s ∧
    s.step 0 (.threadJoin 1) = some (s', .joined 2 3 1 7) ∧
    (s.proc 3).sharePtr ≠ (s.proc 2).sharePtr ∧ (s.proc 3).state = .zombie ∧
    (s'.proc 3).state = .unused ∧ (s.proc 4).sharePtr = (s.proc 2).sharePtr ∧
    (s.proc 4).orderOfThread = 1 ∧ passed h 4 = none :=
  reaches_step
    (onCpu 0 (Op.started ++ Op.forks ++ Op.forks ++ Op.preempted ++ Op.creates ++ Op.preempted ++
      Op.creates ++ Op.preempted ++ [Op.threadExit 7, .schedule, .tick, .yield] ++ Op.rescan ++
      Op.preempted ++ Op.preempted))
    0 (.threadJoin 1) (by decide +kernel)

end ThreadKernel
