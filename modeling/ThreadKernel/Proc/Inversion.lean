import ThreadKernel.Proc.Step

/-! What a step can be.

`Case` lists every outcome of every step with the facts the step tested, and
`step_case` says that nothing else happens. Invariants are proved from the list, so
that the step function is taken apart once. -/
namespace ThreadKernel.Kernel

/-- `wait` or `thread_join` is in its loop with the lock held, in `s₁`: called from
user code, or switched to by the scheduler after a sleep. -/
inductive Enter (s : Kernel) (c : Nat) (cur : Slot) : Kernel → Prop where
  | call : s.cpu c = ⟨some cur, .run .user⟩ → s.lock = none → Enter s c cur s
  | wake {i : Nat} {r : Resume} : (s.cpu c).mode = .scan i → (s.proc cur).state = .runnable →
      (s.proc cur).context = some r → r = .waitLoop ∨ (∃ t, r = .joinLoop t) →
      (s.proc cur).kstack ≠ none →
      Enter s c cur (((s.setCpu c ⟨some cur, .run .user⟩).setProc cur
        fun x => {x with state := .running}).setProc cur fun x => {x with chan := .addr 0})

/-- How the loop of `wait` or `thread_join` leaves the lock. -/
inductive Body (s : Kernel) (c : Nat) (cur : Slot) : Event → Kernel → Prop where
  | reaped {child : Slot} {own : Page} : Fin.find? (s.waitable cur) = some child →
      (s.proc child).sharePtr = some own →
      Body s c cur (.waited cur child (s.proc child).pid) ((s.reap child own).release c .user)
  | joined {p : Slot} {t : Nat} {own stack : Page} : Fin.find? (s.joinable cur t) = some p →
      (s.proc p).kstack = some stack → (s.proc cur).sharePtr = some own →
      Body s c cur (.joined cur p t (s.proc p).retval) ((s.joinReap p own).release c .user)
  | failed : Body s c cur .quiet (s.release c .user)
  | asleep {r : Resume} : r = .waitLoop ∨ (∃ t, r = .joinLoop t) →
      Body s c cur .quiet (s.sleep c cur (.proc cur) r)

/-- What CPU `c` can do in `s` when it is asked for `op`. -/
inductive Case (s : Kernel) (c : Nat) (op : Op) : Event → Kernel → Prop where
  | acquire : (s.cpu c).mode = .idle → s.lock = none →
      Case s c op .quiet {s.setCpu c ⟨none, .scan 0⟩ with lock := some c}
  | letGo {i : Nat} : (s.cpu c).mode = .scan i →
      Case s c op .quiet {s.setCpu c ⟨none, .idle⟩ with lock := none}
  | resume {i : Nat} {p : Slot} {k : Ctx} : (s.cpu c).mode = .scan i →
      (s.proc p).state = .runnable → (s.proc p).context = some (.release k) →
      (s.proc p).kstack ≠ none →
      Case s c op .quiet (((s.setCpu c ⟨some p, .run .user⟩).setProc p
        fun x => {x with state := .running}).release c k)
  | awake {i : Nat} {p : Slot} {k : Ctx} : (s.cpu c).mode = .scan i →
      (s.proc p).state = .runnable → (s.proc p).context = some (.slept k) →
      (s.proc p).kstack ≠ none →
      Case s c op .quiet ((((s.setCpu c ⟨some p, .run .user⟩).setProc p
        fun x => {x with state := .running}).setProc p fun x => {x with chan := .addr 0}).release c k)
  | body {cur : Slot} {s₁ s' : Kernel} {e : Event} : Enter s c cur s₁ → Body s₁ c cur e s' →
      Case s c op e s'
  | tick {cur : Slot} {k : Ctx} : s.cpu c = ⟨some cur, .run k⟩ →
      Case s c op .quiet (s.setCpu c ⟨some cur, .tick k⟩)
  | yield {p : Slot} {k : Ctx} : s.cpu c = ⟨some p, .tick k⟩ → s.lock = none →
      Case s c op .quiet ((s.setProc p fun x =>
        {x with state := .runnable, context := some (.release k)}).sched c p)
  | sleep {cur : Slot} {k : Ctx} {ch : Chan} : s.cpu c = ⟨some cur, .run k⟩ → s.lock = none →
      Case s c op .quiet (s.sleep c cur ch (.slept k))
  | wakeup {ch : Chan} : Case s c op .quiet (s.wakeup1 ch)
  | stay : Case s c op .quiet s
  | alloc {cur np : Slot} {s₁ : Kernel} {k : Ctx} : s.cpu c = ⟨some cur, .run .user⟩ →
      s.allocproc = some (np, s₁) → k = .forkAlloc np ∨ k = .createAlloc np →
      Case s c op (.handedOut np) (s₁.goto c k)
  | allocKstack {cur np : Slot} {k k' : Ctx} : s.cpu c = ⟨some cur, .run k⟩ →
      (k = .forkAlloc np ∧ k' = .forkPage np) ∨ (k = .createAlloc np ∧ k' = .createFinish np) →
      Case s c op .quiet ((s.allocKstack np).goto c k')
  | abandon {cur np : Slot} {k : Ctx} {stack : Option Page} : s.cpu c = ⟨some cur, .run k⟩ →
      k = .forkAlloc np ∨ k = .createAlloc np ∨ k = .forkPage np →
      stack = (if k = .forkPage np then (s.proc np).kstack else none) →
      Case s c op .quiet ((s.abandon np stack).goto c .user)
  | forkPage {cur np : Slot} : s.cpu c = ⟨some cur, .run (.forkPage np)⟩ →
      Case s c op .quiet ((s.forkPage np).goto c (.forkCopy np))
  | forkCopy {cur np : Slot} {own : Page} : s.cpu c = ⟨some cur, .run (.forkCopy np)⟩ →
      (s.proc np).sharePtr = some own →
      Case s c op .quiet ((s.forkCopy cur np own).goto c (.forkPublish np))
  | forkCopyFail {cur np : Slot} : s.cpu c = ⟨some cur, .run (.forkCopy np)⟩ →
      Case s c op .quiet ((s.forkCopyFail np).goto c .user)
  | forkPublish {cur np : Slot} {own : Page} : s.cpu c = ⟨some cur, .run (.forkPublish np)⟩ →
      (s.proc np).sharePtr = some own →
      Case s c op (.forked cur np) ((s.forkPublish np own).goto c .user)
  | create {cur np : Slot} {own : Page} : s.cpu c = ⟨some cur, .run (.createFinish np)⟩ →
      (s.proc cur).sharePtr = some own →
      Case s c op (.created cur np own ((s.create cur np own).proc np).orderOfThread)
        ((s.create cur np own).goto c .user)
  | createFail {cur np : Slot} {own : Page} : s.cpu c = ⟨some cur, .run (.createFinish np)⟩ →
      (s.proc cur).sharePtr = some own → Case s c op .quiet ((s.createFail cur np).goto c .user)
  | threadExit {cur : Slot} {own : Page} {v : Word} : s.cpu c = ⟨some cur, .run .user⟩ →
      (s.proc cur).sharePtr = some own →
      Case s c op (.threadExited cur v) ((s.threadExit cur own v).sched c cur)
  | exit {cur : Slot} {own : Page} : s.cpu c = ⟨some cur, .run .user⟩ →
      (s.proc cur).sharePtr = some own → cur ≠ s.initproc →
      Case s c op (.exited cur) ((s.exit cur).sched c cur)
  | kill {p : Slot} {pid : Word} : op = .kill (some pid) →
      (Fin.find? fun q => (s.proc q).pid = pid) = some p → Case s c op .quiet (s.kill p)
  | killLeak : Case s c op .quiet {s with lock := some c}
  | exec {cur : Slot} {own : Page} {s₁ : Kernel} {k : Ctx} {init : Bool} :
      s.cpu c = ⟨some cur, .run k⟩ → (s.proc cur).sharePtr = some own →
      s.killOtherThreads cur own = some s₁ → (k = .user ∧ init = false) ∨ (k = .initcode ∧ init = true) →
      Case s c op (.killedOthers cur) (s₁.goto c (.execing init))
  | execCommit {cur : Slot} {own : Page} {init : Bool} : s.cpu c = ⟨some cur, .run (.execing init)⟩ →
      (s.proc cur).sharePtr = some own →
      Case s c op (.execed cur) ((s.execCommit cur own).goto c .user)
  | execFail {cur : Slot} {own : Page} {k : Ctx} {init : Bool} :
      s.cpu c = ⟨some cur, .run (.execing init)⟩ → (s.proc cur).sharePtr = some own →
      (k = .user ∧ init = false) ∨ (k = .initcode ∧ init = true) → Case s c op .quiet (s.goto c k)

variable {s s' : Kernel} {c : Nat} {e : Event} {op : Op} {cur : Slot} {t : Nat}

theorem waitBody_case (h : s.waitBody c cur = some (s', e)) : Body s c cur e s' := by
  unfold waitBody at h
  split at h
  · rename_i child hfind
    split at h
    · rename_i own hown
      cases h
      exact .reaped hfind hown
    · cases h
  · split at h
    · cases h
      exact .failed
    · cases h
      exact .asleep (.inl rfl)

theorem joinBody_case (h : s.joinBody c cur t = some (s', e)) : Body s c cur e s' := by
  unfold joinBody at h
  split at h
  · rename_i p hfind
    split at h
    · rename_i stack own hstack hown
      cases h
      exact .joined hfind hstack hown
    · cases h
  · cases h
    exact .asleep (.inr ⟨t, rfl⟩)

theorem switchTo_case {i : Nat} {p : Slot} (hm : (s.cpu c).mode = .scan i)
    (hp : (s.proc p).state = .runnable) (h : s.switchTo c p = some (s', e)) : Case s c op e s' := by
  unfold switchTo at h
  split at h
  · rename_i stack own r hkstack hown hr
    have hstack : (s.proc p).kstack ≠ none := by simp [hkstack]
    split at h
    · cases r with
      | release k =>
        cases h
        exact .resume hm hp hr hstack
      | slept k =>
        cases h
        exact .awake hm hp hr hstack
      | waitLoop => exact .body (.wake hm hp hr (.inl rfl) hstack) (waitBody_case h)
      | joinLoop t =>
        simp only [Kernel.resume] at h
        split at h
        · cases h
          exact .body (.wake hm hp hr (.inr ⟨t, rfl⟩) hstack) .failed
        · exact .body (.wake hm hp hr (.inr ⟨t, rfl⟩) hstack) (joinBody_case h)
    · cases h
  · cases h

theorem scheduling_case (h : s.scheduling c op = some (s', e)) : Case s c op e s' := by
  cases op <;> simp only [scheduling, reduceCtorEq] at h
  case schedule =>
    split at h
    · rename_i hm
      split at h
      · rename_i hl
        cases h
        exact .acquire hm hl
      · cases h
    · rename_i i hm
      split at h
      · rename_i p hp
        have := Fin.eq_true_of_find?_eq_some hp
        simp only [decide_eq_true_eq] at this
        exact switchTo_case hm this.2 h
      · cases h
        exact .letGo hm
    · cases h
  case yield =>
    split at h
    · rename_i p k hp hm
      split at h
      · rename_i hl
        cases h
        exact .yield (by rw [← hp, ← hm]) hl
      · cases h
    · cases h
  case wakeup ch =>
    split at h
    · cases h
      exact .wakeup
    · cases h

theorem alloc_case {k : Slot → Ctx} (hc : s.cpu c = ⟨some cur, .run .user⟩)
    (hk : k = .forkAlloc ∨ k = .createAlloc) (h : s.alloc c k = (s', e)) : Case s c op e s' := by
  unfold alloc at h
  split at h
  · rename_i np s₁ halloc
    cases h
    refine .alloc hc halloc ?_
    rcases hk with rfl | rfl <;> simp
  · cases h
    exact .stay

section
variable {k : Ctx} (hc : s.cpu c = ⟨some cur, .run k⟩) {ok : Bool}
include hc

theorem allocKstackCall_case (h : s.allocKstackCall c k ok = some (s', e)) :
    Case s c op e s' := by
  unfold allocKstackCall at h
  split at h
  · split at h <;> cases h
    · exact .allocKstack hc (.inl ⟨rfl, rfl⟩)
    · exact .abandon hc (.inl rfl) rfl
  · split at h <;> cases h
    · exact .allocKstack hc (.inr ⟨rfl, rfl⟩)
    · exact .abandon hc (.inr (.inl rfl)) rfl
  · cases h

theorem forkPageCall_case (h : s.forkPageCall c k ok = some (s', e)) : Case s c op e s' := by
  unfold forkPageCall at h
  split at h
  · split at h <;> cases h
    · exact .forkPage hc
    · exact .abandon hc (.inr (.inr rfl)) (if_pos rfl).symm
  · cases h

theorem forkCopyCall_case (h : s.forkCopyCall c cur k ok = some (s', e)) :
    Case s c op e s' := by
  unfold forkCopyCall at h
  split at h
  · split at h
    · rename_i own hown
      split at h <;> cases h
      · exact .forkCopy hc hown
      · exact .forkCopyFail hc
    · cases h
  · cases h

theorem execFinishCall_case (h : s.execFinishCall c cur k ok = some (s', e)) :
    Case s c op e s' := by
  unfold execFinishCall at h
  split at h
  · rename_i init own hown
    split at h <;> cases h
    · exact .execCommit hc hown
    · exact .execFail hc hown (by cases init <;> simp)
  · cases h

theorem unlocked_case (h : s.unlocked c cur k op = some (s', e)) : Case s c op e s' := by
  unfold unlocked at h
  split at h
  · split at h
    · cases h
      exact .tick hc
    · cases h
  · exact allocKstackCall_case hc h
  · exact forkPageCall_case hc h
  · exact forkCopyCall_case hc h
  · exact execFinishCall_case hc h
  all_goals cases h

theorem sleepCall_case {ch : Chan} (hl : s.lock = none) (h : s.sleepCall c cur k ch = some (s', e)) :
    Case s c op e s' := by
  unfold sleepCall at h
  split at h <;> cases h <;> exact .sleep hc hl

theorem forkPublishCall_case (h : s.forkPublishCall c cur k = some (s', e)) : Case s c op e s' := by
  unfold forkPublishCall at h
  split at h
  · split at h
    · rename_i own hown
      cases h
      exact .forkPublish hc hown
    · cases h
  · cases h

theorem createFinishCall_case (h : s.createFinishCall c cur k ok = some (s', e)) :
    Case s c op e s' := by
  unfold createFinishCall at h
  split at h
  · rename_i np own hown
    split at h <;> cases h
    · exact .create hc hown
    · exact .createFail hc hown
  · cases h

theorem threadExitCall_case {v : Word} (h : s.threadExitCall c cur k v = some (s', e)) :
    Case s c op e s' := by
  unfold threadExitCall at h
  split at h
  · rename_i own hown
    cases h
    exact .threadExit hc hown
  · cases h

theorem threadJoinCall_case (hl : s.lock = none)
    (h : s.threadJoinCall c cur k t = some (s', e)) : Case s c op e s' := by
  unfold threadJoinCall at h
  split at h
  · rename_i hk
    subst hk
    split at h
    · exact .body (.call hc hl) (joinBody_case h)
    · cases h
      exact .stay
  · cases h

theorem exitCall_case (h : s.exitCall c cur k = some (s', e)) : Case s c op e s' := by
  unfold exitCall at h
  split at h
  · rename_i own hown
    split at h
    · cases h
    · rename_i hinit
      cases h
      exact .exit hc hown hinit
  · cases h

omit hc in
theorem killCall_case {arg : Option Word} (h : s.killCall c k arg = some (s', e)) :
    Case s c (.kill arg) e s' := by
  unfold killCall at h
  split at h
  · split at h
    · split at h
      · rename_i p hp
        cases h
        exact .kill rfl hp
      · cases h
        exact .stay
    · cases h
      exact .killLeak
  · cases h

theorem execCall_case (h : s.execCall c cur k = some (s', e)) : Case s c op e s' := by
  unfold execCall at h
  split at h
  · rename_i own hown
    obtain ⟨s₁, hs, heq⟩ := Option.map_eq_some_iff.mp h
    cases heq
    exact .exec hc hown hs (.inl ⟨rfl, rfl⟩)
  · rename_i own hown
    obtain ⟨s₁, hs, heq⟩ := Option.map_eq_some_iff.mp h
    cases heq
    exact .exec hc hown hs (.inr ⟨rfl, rfl⟩)
  · cases h

theorem locked_case (hl : s.lock = none) (h : s.locked c cur k op = some (s', e)) : Case s c op e s' := by
  unfold locked at h
  split at h
  · split at h
    · rename_i hk
      subst hk
      exact alloc_case hc (.inl rfl) (Option.some.inj h)
    · cases h
  · split at h
    · rename_i hk
      subst hk
      exact alloc_case hc (.inr rfl) (Option.some.inj h)
    · cases h
  · exact sleepCall_case hc hl h
  · exact forkPublishCall_case hc h
  · exact createFinishCall_case hc h
  · exact threadExitCall_case hc h
  · exact threadJoinCall_case hc hl h
  · split at h
    · rename_i hk
      subst hk
      exact .body (.call hc hl) (waitBody_case h)
    · cases h
  · exact exitCall_case hc h
  · exact killCall_case h
  · exact execCall_case hc h
  all_goals cases h

end

theorem step_case (h : s.step c op = some (s', e)) : Case s c op e s' := by
  unfold step at h
  split at h
  · rename_i r hr
    cases h
    exact scheduling_case hr
  · split at h
    · rename_i cur k hrun
      have hc : s.cpu c = ⟨some cur, .run k⟩ := by
        unfold running at hrun
        split at hrun
        · rename_i hp hm
          cases hrun
          rw [← hp, ← hm]
        · cases hrun
      split at h
      · rename_i r hr
        cases h
        exact unlocked_case hc hr
      · split at h
        · rename_i hl
          exact locked_case hc hl h
        · cases h
    · cases h

end ThreadKernel.Kernel
