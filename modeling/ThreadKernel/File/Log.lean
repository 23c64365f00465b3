import ThreadKernel.Proc.Safety
import ThreadKernel.File.Cwd

/-! Transactions and sleep locks over the process table.

A proc whose code is in the file system takes the steps of `log.c` and `sleeplock.c`
besides those of the table: `begin_op`, `log_write`, `end_op` with the commit, and
`acquiresleep` and `releasesleep` of an inode or a buffer. Where `begin_op` or
`acquiresleep` has to wait, it sleeps, which is a step of the table, and tries again.

The source calls nothing that takes `ptable.lock` between `begin_op` and the end of
`end_op`, or with a sleep lock held, but `sleep`, `wakeup` and the `yield` of the timer.

`exit` and `kill_other_threads` take a proc out of the table wherever it stands. If what
they find is neither in a transaction nor the holder of a sleep lock, `log.outstanding` is
the number of procs in a transaction and no lock is left behind. -/
namespace ThreadKernel.Log

open Kernel Lts Function

abbrev NBUF : Nat := 30
abbrev MAXOPBLOCKS : Nat := 10
abbrev LOGSIZE : Nat := 30

/-- The sleep locks of the inode cache and of the buffer cache. -/
abbrev SleepLock := Fin Cwd.NINODE ⊕ Fin NBUF

/-- Where the code of a proc stands as far as the log goes. -/
inductive Pos where
  | out
  /-- Between `begin_op` and `end_op`. -/
  | inOp
  /-- In `end_op`, past its section, with `do_commit` set. -/
  | commit
  deriving DecidableEq, Repr

/-- A sleep lock has the slot and the pid of the proc that took it. -/
structure State where
  kernel : Kernel
  outstanding : Int
  committing : Bool
  /-- `log.lh.n` -/
  blocks : Nat
  /-- `log.size` -/
  size : Nat
  pos : Slot → Pos
  holder : SleepLock → Option (Slot × Word)

/-- What a CPU does next. -/
inductive Op where
  | kernel (op : ThreadKernel.Op)
  | beginOp
  /-- `log_write`; whether the block is in the log already. -/
  | logWrite (absorbed : Bool)
  | endOp
  /-- The commit is done. -/
  | committed
  | acquiresleep (lk : SleepLock)
  | releasesleep (lk : SleepLock)
  deriving DecidableEq, Repr

/-- What code in the file system does with `ptable.lock`. -/
def inside : ThreadKernel.Op → Bool
  | .schedule | .tick | .yield | .sleep _ | .wakeup _ => true
  | _ => false

namespace State

/-- `lk` is held by the proc on slot `p`. -/
def Holds (s : State) (p : Slot) (lk : SleepLock) : Prop :=
  s.holder lk = some (p, (s.kernel.proc p).pid)

/-- In a transaction, or with a sleep lock. -/
def Engaged (s : State) (p : Slot) : Prop := s.pos p = .inOp ∨ ∃ lk, s.Holds p lk

/-- The proc of the CPU is in the file system. -/
def Busy (s : State) (c : Nat) : Prop :=
  ∃ p ∈ (s.kernel.cpu c).proc, s.Engaged p ∨ s.pos p = .commit

instance (s : State) (p : Slot) (lk : SleepLock) : Decidable (s.Holds p lk) :=
  inferInstanceAs (Decidable (_ = _))

instance (s : State) (p : Slot) : Decidable (s.Engaged p) :=
  inferInstanceAs (Decidable (_ ∨ _))

instance (s : State) (c : Nat) : Decidable (s.Busy c) :=
  match h : (s.kernel.cpu c).proc with
  | some p => decidable_of_iff (s.Engaged p ∨ s.pos p = .commit) (by simp [Busy, h])
  | none => isFalse (by simp [Busy, h])

def setPos (s : State) (p : Slot) (x : Pos) : State := {s with pos := update s.pos p x}

/-- `allocproc` has handed out a slot: the code of the new proc has not been anywhere. -/
def enroll (s : State) : Event → State
  | .handedOut np => s.setPos np .out
  | _ => s

def table (s : State) (c : Nat) (op : ThreadKernel.Op) : Option (State × Event) :=
  if s.Busy c ∧ inside op = false then none
  else (s.kernel.step c op).map fun r => ({s.enroll r.2 with kernel := r.1}, r.2)

/-- `p`, the proc of a CPU, is in the file system. `end_op` panics while a commit goes on, and
`log_write` when the log is full; `brelse` and `iunlock` panic unless `holdingsleep`. -/
def call (s : State) (p : Slot) : Op → Option State
  | .kernel _ => none
  | .beginOp =>
    if s.pos p = .out ∧ s.committing = false ∧
        s.blocks + (s.outstanding + 1) * MAXOPBLOCKS ≤ LOGSIZE then
      some {s.setPos p .inOp with outstanding := s.outstanding + 1}
    else none
  | .logWrite absorbed =>
    if s.pos p = .inOp ∧ s.blocks < LOGSIZE ∧ s.blocks + 1 < s.size ∧ 1 ≤ s.outstanding then
      some {s with blocks := if absorbed then s.blocks else s.blocks + 1}
    else none
  | .endOp =>
    if s.pos p = .inOp ∧ s.committing = false then
      if s.outstanding - 1 = 0 then
        some {s.setPos p .commit with outstanding := s.outstanding - 1, committing := true}
      else some {s.setPos p .out with outstanding := s.outstanding - 1}
    else none
  | .committed =>
    if s.pos p = .commit then some {s.setPos p .out with committing := false, blocks := 0} else none
  | .acquiresleep lk =>
    match s.holder lk with
    | none =>
      some {s with holder := update s.holder lk (some (p, (s.kernel.proc p).pid))}
    | some _ => none
  | .releasesleep lk =>
    match s.holder lk with
    | none => none
    | some (_, pid) =>
      if pid = (s.kernel.proc p).pid then some {s with holder := update s.holder lk none}
      else none

def step (s : State) (a : Nat × Op) : Option (State × Event) :=
  match a.2 with
  | .kernel op => s.table a.1 op
  | op =>
    match s.kernel.running a.1 with
    | some (p, .user) | some (p, .initcode) | some (p, .execing _) =>
      (s.call p op).map fun s' => (s', .quiet)
    | _ => none

def boot : State where
  kernel := Kernel.boot
  outstanding := 0
  committing := false
  blocks := 0
  size := LOGSIZE
  pos := fun _ => .out
  holder := fun _ => none

end State

/-- A step, with who took it and what it was. -/
def Taken (s : State) (l : (Nat × Op) × Event) (s' : State) : Prop :=
  s.step l.1 = some (s', l.2)

/-- What `exit` and `exec` are asked to find: no sibling that is `RUNNING` or `EMBRYO`, and
none in a transaction or with a sleep lock. -/
def Clean (s : State) (l : (Nat × Op) × Event) : Prop :=
  Apart s.kernel l.2 ∧
  match l.2 with
  | .exited cur => ∀ q, q ≠ cur → (s.kernel.proc q).sharePtr = (s.kernel.proc cur).sharePtr →
      ¬ s.Engaged q
  | .killedOthers cur => ∀ own ∈ (s.kernel.proc cur).sharePtr, ∀ i,
      (s.kernel.shared own).isThere i = true → ∀ q ∈ (s.kernel.shared own).threads i, q ≠ cur →
        ¬ s.Engaged q
  | _ => True

instance (s : State) (l : (Nat × Op) × Event) : Decidable (Clean s l) := by
  apply @Prod.casesOn _ _ _ l
  intro _ e
  apply @Event.casesOn _ e <;> intros <;> dsimp only [Clean] <;> infer_instance

/-! ### The table under a proc in the file system -/

variable {s s' : State} {c : Nat} {p q : Slot} {e : Event} {x y : Proc} {op : ThreadKernel.Op}

/-- What code in the file system does with the table is seen by no one. -/
theorem quiet_of_inside {s s' : Kernel} {k : Ctx} (hop : inside op = true)
    (hc : s.cpu c = ⟨some p, .run k⟩) (h : s.step c op = some (s', e)) : e = .quiet := by
  have hrun : s.running c = some (p, k) := by
    simp [running, hc]
  cases op with
  | schedule | yield =>
    simp [Kernel.step, scheduling, hc, hrun, unlocked, locked] at h
  | tick | wakeup ch =>
    simp only [Kernel.step, scheduling, hrun, unlocked, locked] at h
    split at h
    · rename_i r hr
      cases h
      split at hr
      · cases hr
        rfl
      · cases hr
    · split at h <;> cases h
  | sleep ch =>
    simp only [Kernel.step, scheduling, hrun, unlocked, locked, sleepCall] at h
    split at h
    · split at h
      all_goals first
        | cases h; rfl
        | cases h
    · cases h
  | _ => cases hop

/-! ### The invariant -/

namespace State

/-- The procs between `begin_op` and `end_op`. -/
def inOps (s : State) : Finset Slot := Finset.univ.filter fun p => s.pos p = .inOp

theorem inOps_setPos_in (hp : s.pos p ≠ .inOp) : (s.setPos p .inOp).inOps.card = s.inOps.card + 1 := by
  have hset : (s.setPos p .inOp).inOps = insert p s.inOps := by
    ext q
    by_cases hq : q = p <;> simp [inOps, setPos, update_apply, hq]
  rw [hset, Finset.card_insert_of_notMem (by simp [inOps, hp])]

theorem inOps_setPos_out {x : Pos} (hx : x ≠ .inOp) (hp : s.pos p = .inOp) :
    (s.setPos p x).inOps.card + 1 = s.inOps.card := by
  have hset : (s.setPos p x).inOps = s.inOps.erase p := by
    ext q
    by_cases hq : q = p <;> simp [inOps, setPos, update_apply, hq, hx]
  rw [hset]
  exact Finset.card_erase_add_one (by simp [inOps, hp])

theorem inOps_setPos_same {x : Pos} (hx : x ≠ .inOp) (hp : s.pos p ≠ .inOp) :
    (s.setPos p x).inOps = s.inOps := by
  ext q
  by_cases hq : q = p <;> simp [inOps, setPos, update_apply, hq, hx, hp]

structure Inv (s : State) : Prop where
  sound : Sound s.kernel
  trans : ∀ {p}, s.pos p = .inOp → (s.kernel.proc p).Live
  held : ∀ {lk p pid}, s.holder lk = some (p, pid) →
    (s.kernel.proc p).Live ∧ (s.kernel.proc p).pid = pid
  counted : s.outstanding = s.inOps.card

theorem Inv.live (hi : s.Inv) (h : s.Engaged p) : (s.kernel.proc p).Live := by
  rcases h with h | ⟨lk, h⟩
  · exact hi.trans h
  · exact (hi.held h).1

theorem enroll_pos (h : (s.enroll e).pos q = .inOp) : s.pos q = .inOp := by
  cases e with
  | handedOut np =>
    by_cases hq : q = np
    · subst hq
      simp [enroll, setPos] at h
    · simpa [enroll, setPos, update_of_ne hq] using h
  | _ => exact h

/-- The table takes a step that the rule allows. -/
theorem Inv.table (hi : s.Inv) (hrule : Clean s ((c, .kernel op), e))
    (h : s.table c op = some (s', e)) : s'.Inv := by
  unfold State.table at h
  split at h
  · cases h
  · rename_i hbusy
    obtain ⟨⟨k', e₁⟩, hstep, heq⟩ := Option.map_eq_some_iff.mp h
    cases heq
    have hcase := step_case hstep
    have hown : ∀ {q}, s.Engaged q → s.kernel.cpu c = ⟨some q, .run .user⟩ → e₁ = .quiet := by
      intro q hq hc
      refine quiet_of_inside ?_ hc hstep
      by_contra hop
      refine hbusy ⟨⟨q, by rw [hc]; rfl, .inl hq⟩, ?_⟩
      simpa using hop
    have hlives : ∀ {q}, s.Engaged q →
        (k'.proc q).Live ∧ (k'.proc q).pid = (s.kernel.proc q).pid := by
      intro q hq
      suffices hd : ¬ Dies s.kernel c q e₁ by
        obtain ⟨hlive, -, hpid⟩ := (hcase.fate q).live hi.sound (hi.live hq) hd
        exact ⟨hlive, hpid⟩
      intro hd
      cases hd with
      | left hc => cases hown hq hc
      | @killed cur hc hshare =>
        by_cases hne : q = cur
        · subst hne
          cases hown hq hc
        · exact hrule.2 q hne hshare hq
      | freed hshare hv =>
        obtain ⟨hne, i, -, hthere, hthread⟩ := hv
        exact hrule.2 _ hshare i hthere q hthread hne hq
    refine ⟨hi.sound.step hcase hrule.1, ?_, ?_, ?_⟩
    · intro q hq
      exact (hlives (.inl (enroll_pos hq))).1
    · intro lk q pid hlk
      have hold : s.holder lk = some (q, pid) := by
        cases e₁ <;> exact hlk
      obtain ⟨-, hpid⟩ := hi.held hold
      have hq : s.Engaged q := .inr ⟨lk, hold.trans (by rw [hpid])⟩
      exact ⟨(hlives hq).1, (hlives hq).2.trans hpid⟩
    · have hsame : (s.enroll e₁).inOps = s.inOps := by
        cases e₁ with
        | handedOut np =>
          refine inOps_setPos_same nofun fun hpos => ?_
          exact (hi.trans hpos).ne.2.2 hcase.handedOut
        | _ => rfl
      have hout : (s.enroll e₁).outstanding = s.outstanding := by
        cases e₁ <;> rfl
      show (s.enroll e₁).outstanding = ((s.enroll e₁).inOps.card : Int)
      rw [hsame, hout]
      exact hi.counted

theorem Inv.call {op : Op} (hi : s.Inv) (hp : (s.kernel.proc p).state = .running)
    (h : s.call p op = some s') : s'.Inv := by
  have hlive : (s.kernel.proc p).Live := .inr (.inl hp)
  have htrans : ∀ {x q}, (s.setPos p x).pos q = .inOp → (s.kernel.proc q).Live := by
    intro x q hq
    by_cases hqp : q = p
    · rw [hqp]
      exact hlive
    · exact hi.trans ((update_of_ne hqp _ _).symm.trans hq)
  cases op with
  | kernel op => cases h
  | beginOp =>
    simp only [State.call] at h
    split at h
    · rename_i hpos
      cases h
      refine ⟨hi.sound, htrans, hi.held, ?_⟩
      have hcard := inOps_setPos_in (s := s) (p := p) (by rw [hpos.1]; nofun)
      show s.outstanding + 1 = ((s.setPos p .inOp).inOps.card : Int)
      rw [hcard, hi.counted]
      rfl
    · cases h
  | logWrite absorbed =>
    simp only [State.call] at h
    split at h
    · cases h
      exact ⟨hi.sound, hi.trans, hi.held, hi.counted⟩
    · cases h
  | endOp =>
    have hcount : ∀ {x}, x ≠ .inOp → s.pos p = .inOp →
        s.outstanding - 1 = ((s.setPos p x).inOps.card : Int) := by
      intro x hx hpos
      have hcard := inOps_setPos_out hx hpos
      rw [hi.counted]
      omega
    simp only [State.call] at h
    split at h
    · rename_i hpos
      split at h
      · cases h
        exact ⟨hi.sound, htrans, hi.held, hcount nofun hpos.1⟩
      · cases h
        exact ⟨hi.sound, htrans, hi.held, hcount nofun hpos.1⟩
    · cases h
  | committed =>
    simp only [State.call] at h
    split at h
    · rename_i hpos
      cases h
      refine ⟨hi.sound, htrans, hi.held, ?_⟩
      have hsame := inOps_setPos_same (s := s) (p := p) (x := .out) nofun (by rw [hpos]; nofun)
      show s.outstanding = ((s.setPos p .out).inOps.card : Int)
      rw [hsame]
      exact hi.counted
    · cases h
  | acquiresleep lk =>
    simp only [State.call] at h
    split at h
    · cases h
      refine ⟨hi.sound, hi.trans, fun {lk' q pid} hlk => ?_, hi.counted⟩
      by_cases hl : lk' = lk
      · subst hl
        have hval := (update_self ..).symm.trans hlk
        cases hval
        exact ⟨hlive, rfl⟩
      · exact hi.held ((update_of_ne hl _ _).symm.trans hlk)
    · cases h
  | releasesleep lk =>
    simp only [State.call] at h
    split at h
    · cases h
    · split at h
      · cases h
        refine ⟨hi.sound, hi.trans, fun {lk' q pid} hlk => ?_, hi.counted⟩
        by_cases hl : lk' = lk
        · subst hl
          cases (update_self ..).symm.trans hlk
        · exact hi.held ((update_of_ne hl _ _).symm.trans hlk)
      · cases h

theorem Inv.step (hi : s.Inv) {l : (Nat × Op) × Event} (h : Guarded Taken Clean s l s') : s'.Inv := by
  obtain ⟨⟨c, op⟩, e⟩ := l
  obtain ⟨hstep, hrule⟩ := h
  simp only [Taken, State.step] at hstep
  have hcall : ∀ {p k}, s.kernel.running c = some (p, k) →
      (s.call p op).map (fun s' => (s', Event.quiet)) = some (s', e) → s'.Inv := by
    intro p k hrun hmap
    obtain ⟨s₁, hs, heq⟩ := Option.map_eq_some_iff.mp hmap
    cases heq
    have hproc : (s.kernel.cpu c).proc = some p := by
      unfold running at hrun
      split at hrun
      · rename_i hproc _
        cases hrun
        exact hproc
      · cases hrun
    exact hi.call (hi.sound.running hproc) hs
  cases op with
  | kernel op => exact hi.table hrule hstep
  | _ =>
    dsimp only at hstep
    split at hstep
    · exact hcall (by assumption) hstep
    · exact hcall (by assumption) hstep
    · exact hcall (by assumption) hstep
    · cases hstep

theorem inv_boot : boot.Inv where
  sound := boot_sound
  trans := fun h => by cases h
  held := fun h => by cases h
  counted := by decide +kernel

end State

/-- In a run in which `exit` and `exec` find siblings as `Clean` asks, no sleep lock is held by
a proc that is `ZOMBIE` or `UNUSED`, and `log.outstanding` is the number of procs that are
neither and are between `begin_op` and `end_op`. -/
theorem none_left_behind {h : List ((Nat × Op) × Event)}
    (hr : Run (Guarded Taken Clean) State.boot h s) :
    (∀ lk p pid, s.holder lk = some (p, pid) → (s.kernel.proc p).pid = pid ∧
      (s.kernel.proc p).state ≠ .zombie ∧ (s.kernel.proc p).state ≠ .unused) ∧
    s.outstanding = (Finset.univ.filter fun p => s.pos p = .inOp ∧
      (s.kernel.proc p).state ≠ .zombie ∧ (s.kernel.proc p).state ≠ .unused).card := by
  have hi : s.Inv := hr.invariant (fun _ s => s.Inv) State.inv_boot fun _ _ _ _ _ hi hs => hi.step hs
  refine ⟨fun lk p pid hlk => ?_, ?_⟩
  · obtain ⟨hlive, hpid⟩ := hi.held hlk
    exact ⟨hpid, hlive.ne.2⟩
  · have hset : (Finset.univ.filter fun p => s.pos p = .inOp ∧
        (s.kernel.proc p).state ≠ .zombie ∧ (s.kernel.proc p).state ≠ .unused) = s.inOps := by
      refine Finset.filter_congr fun p _ => and_iff_left_of_imp fun hpos => ?_
      exact (hi.trans hpos).ne.2
    rw [hset]
    exact hi.counted

def tableOps (ops : List ThreadKernel.Op) : List (Nat × Op) := ops.map fun op => (0, .kernel op)

/-- Slot 1, a child of `init`, has started a thread on slot 2, which begins a transaction,
locks an inode and sleeps. -/
def asleepInside : List (Nat × Op) :=
  tableOps (Op.childRuns ++ Op.creates ++ Op.preempted) ++
    [(0, Op.beginOp), (0, .acquiresleep (.inl 7))] ++ tableOps ([ThreadKernel.Op.sleep (.addr 9)] ++ Op.rescan)

/-- The thread is woken and comes to the end of its call; then slot 1 exits. -/
theorem none_left_behind_exit : ∃ h s, Run (Guarded Taken Clean) State.boot h s ∧
    (.beginOp ∈ h.map (·.1.2) ∧ .exited 1 ∈ h.map (·.2) ∧ (s.kernel.proc 2).state = .zombie) ∧
    (∀ lk p pid, s.holder lk = some (p, pid) → (s.kernel.proc p).pid = pid ∧
      (s.kernel.proc p).state ≠ .zombie ∧ (s.kernel.proc p).state ≠ .unused) ∧
    s.outstanding = (Finset.univ.filter fun p => s.pos p = .inOp ∧
      (s.kernel.proc p).state ≠ .zombie ∧ (s.kernel.proc p).state ≠ .unused).card := by
  have hrun : ∃ h s, Run (Guarded Taken Clean) State.boot h s ∧
      .beginOp ∈ h.map (·.1.2) ∧ .exited 1 ∈ h.map (·.2) ∧ (s.kernel.proc 2).state = .zombie :=
    Run.exists_of_named Clean
      (asleepInside ++ tableOps ([ThreadKernel.Op.wakeup (.addr 9)] ++ Op.preempted ++ Op.preempted) ++
        [(0, Op.logWrite false), (0, .releasesleep (.inl 7)), (0, .endOp), (0, .committed)] ++
        tableOps (Op.preempted ++ [ThreadKernel.Op.schedule, .schedule] ++ Op.preempted ++
          [ThreadKernel.Op.exit])) (by decide +kernel)
  obtain ⟨h, s, hr, hp⟩ := hrun
  exact ⟨h, s, hr, hp, none_left_behind hr⟩

/-- The same, but slot 1 exits while the thread is asleep: the thread is a zombie with the
inode locked and `outstanding` is 1, with nobody left to end the transaction. -/
theorem exit_inside_transaction : ∃ h s, Run Taken State.boot h s ∧
    s.holder (.inl 7) = some (2, (s.kernel.proc 2).pid) ∧ (s.kernel.proc 2).state = .zombie ∧
    s.outstanding = 1 ∧ ∀ p, s.pos p = .inOp → (s.kernel.proc p).state = .zombie :=
  Run.exists_of_acts (asleepInside ++ tableOps (Op.preempted ++ [ThreadKernel.Op.exit]))
    (by decide +kernel)

end ThreadKernel.Log
