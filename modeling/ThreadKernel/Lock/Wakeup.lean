import ThreadKernel.Library.Run
import ThreadKernel.Proc.State

/-! `sleep` and `wakeup` by the steps of their locks.

Processes wait with `acquire(lk); while(!cond) sleep(chan, lk); ...; release(lk)`, and wakers
change the condition under `lk` and then call `wakeup(chan)`, before or after they release
`lk`. A lock is taken or given up in one step, and what is done between two such steps under
`ptable.lock` is one step too. `lk` may be `ptable.lock` itself; a waker that still has it then
calls `wakeup1`, as `exit` does. `sched` hands the lock to a scheduler, which releases it or
switches to a process that is `RUNNABLE`. -/
namespace ThreadKernel.Wakeup

open Lts Function

/-- Where a process is: the step that it takes next. -/
inductive Pc where
  | out
  /-- `acquire(lk)`. -/
  | enter
  /-- `while(!cond)`, with `lk`. -/
  | test
  /-- In `sleep`, `acquire(&ptable.lock)`. -/
  | sleep
  /-- `release(lk)`, with both. -/
  | unlock
  /-- `p->chan = chan; p->state = SLEEPING`, with `ptable.lock`. -/
  | mark
  | sched
  /-- In `swtch`. -/
  | off
  /-- `p->chan = 0; release(&ptable.lock)`. -/
  | back
  /-- After the loop, with `lk`. -/
  | use
  /-- A waker's `acquire(lk)`; `early` if it is to call `wakeup` before it releases `lk`. -/
  | raise (early : Bool)
  | change (early : Bool)
  /-- About to call `wakeup`. -/
  | ready (early : Bool)
  /-- In `wakeup`, `acquire(&ptable.lock)`. -/
  | call (early : Bool)
  | wakeup1 (early : Bool)
  /-- `release(&ptable.lock)`. -/
  | done (early : Bool)
  /-- `release(lk)`. -/
  | leave
  deriving DecidableEq, Repr

/-- Whether or not they are two locks. -/
inductive Lk where
  | lk | ptable
  deriving DecidableEq, Repr

/-- `holder` says who has a lock: a process, or a scheduler for `some none`. -/
structure State (P : Type) where
  pc : P → Pc
  state : P → ProcState
  chan : P → Chan
  cond : Bool
  holder : Lk → Option (Option P)

inductive Event (P : Type) where
  /-- The condition was tested. -/
  | test (p : P)
  /-- A waker changed it. -/
  | change (p : P)
  /-- A call of `wakeup` started. -/
  | start (p : P) (early : Bool)
  | finish (p : P)
  | other
  deriving DecidableEq, Repr

inductive Action (P : Type) where
  | wait (p : P)
  | wake (p : P) (early : Bool)
  /-- The next step of `p`; `b` is the condition that it leaves, if it changes it. -/
  | go (p : P) (b : Bool)
  | kill (p : P)
  /-- A scheduler takes the lock. -/
  | scheduler
  | switch (p : P)
  | release
  deriving DecidableEq, Repr

/-- The arguments of `sleep`: `lk` may be `ptable.lock`. -/
structure Setup where
  chan : Chan
  lk : Lk

section
variable {P : Type} [DecidableEq P] (u : Setup)

namespace State

def goto (s : State P) (p : P) (x : Pc) : State P := {s with pc := update s.pc p x}

def give (s : State P) (l : Lk) (who : Option (Option P)) : State P :=
  {s with holder := update s.holder l who}

def acquire (s : State P) (l : Lk) (p : P) : Option (State P) :=
  if s.holder l = none then some (s.give l (some (some p))) else none

def release (s : State P) (l : Lk) : State P := s.give l none

def wakeup1 (s : State P) : State P :=
  {s with state := fun q =>
    if s.state q = .sleeping ∧ s.chan q = u.chan then .runnable else s.state q}

def go (s : State P) (p : P) (b : Bool) : Option (State P × Event P) :=
  match s.pc p with
  | .out | .off => none
  | .enter => (s.acquire u.lk p).map fun s => (s.goto p .test, .other)
  | .test =>
    some (s.goto p (if s.cond then .use else if u.lk = .ptable then .mark else .sleep), .test p)
  | .sleep => (s.acquire .ptable p).map fun s => (s.goto p .unlock, .other)
  | .unlock => some ((s.release u.lk).goto p .mark, .other)
  | .mark =>
    some ({s.goto p .sched with
      chan := update s.chan p u.chan,
      state := update s.state p .sleeping}, .other)
  | .sched => some ((s.give .ptable (some none)).goto p .off, .other)
  | .back =>
    let s := {s with chan := update s.chan p (.addr 0)}
    some (if u.lk = .ptable then s.goto p .test else (s.release .ptable).goto p .enter, .other)
  | .use => some ({s.release u.lk with cond := b}.goto p .out, .other)
  | .raise early => (s.acquire u.lk p).map fun s => (s.goto p (.change early), .other)
  | .change early =>
    let s := {s with cond := b}
    some ((if early then s else s.release u.lk).goto p (.ready early), .change p)
  | .ready early =>
    some (s.goto p (if u.lk = .ptable ∧ early then .wakeup1 early else .call early), .start p early)
  | .call early => (s.acquire .ptable p).map fun s => (s.goto p (.wakeup1 early), .other)
  | .wakeup1 early => some ((s.wakeup1 u).goto p (.done early), .other)
  | .done early =>
    let s := if u.lk = .ptable ∧ early then s else s.release .ptable
    some (s.goto p (if early then .leave else .out), .finish p)
  | .leave => some ((s.release u.lk).goto p .out, .other)

def step (s : State P) : Action P → Option (State P × Event P)
  | .wait p => if s.pc p = .out then some (s.goto p .enter, .other) else none
  | .wake p early => if s.pc p = .out then some (s.goto p (.raise early), .other) else none
  | .go p b => s.go u p b
  | .kill p =>
    if s.holder .ptable = none ∧ s.state p = .sleeping then
      some ({s with state := update s.state p .runnable}, .other)
    else none
  | .scheduler =>
    if s.holder .ptable = none then some (s.give .ptable (some none), .other) else none
  | .switch p =>
    if s.holder .ptable = some none ∧ s.state p = .runnable ∧ s.pc p = .off then
      some ({(s.give .ptable (some (some p))).goto p .back with
        state := update s.state p .running}, .other)
    else none
  | .release =>
    if s.holder .ptable = some none then some (s.release .ptable, .other) else none

def Step (s : State P) (e : Event P) (s' : State P) : Prop := ∃ a, s.step u a = some (s', e)

end State

end

/-! ### What a sleeper may have missed -/

section
variable {P : Type} [DecidableEq P]

def Event.changes (q : P) (e : Event P) : Bool := e = .change q

def Event.starts (q : P) (e : Event P) : Bool := e = .start q true || e = .start q false

variable (did : P → Event P → Bool)

/-- `q` did such a step after `p` last tested the condition. -/
def since (p q : P) : List (Event P) → Bool
  | [] => false
  | e :: h => e ≠ .test p && (did q e || since p q h)

/-- A call of `wakeup` by one that did such a step after `p` last tested the condition has
finished since. -/
def missed (p : P) : List (Event P) → Bool
  | [] => false
  | .test q :: h => q ≠ p && missed p h
  | .finish q :: h => since did p q h || missed p h
  | _ :: h => missed p h

def start (cond : Bool) : State P :=
  ⟨fun _ => .out, fun _ => .running, fun _ => .addr 0, cond, fun _ => none⟩

end

/-! ### Who has the locks -/

def Pc.holds (u : Setup) (l : Lk) : Pc → Bool
  | .test | .sleep | .use | .change _ | .ready true | .call true | .leave => l = u.lk
  | .unlock | .wakeup1 true | .done true => l = u.lk ∨ l = .ptable
  | .mark | .sched | .back | .wakeup1 false | .done false => l = .ptable
  | .out | .enter | .off | .raise _ | .ready false | .call false => false

section
variable {P : Type} [DecidableEq P] {u : Setup} {s s' : State P} {e : Event P} {h : List (Event P)}
  {p q : P} {x y : Pc} {l : Lk} {did : P → Event P → Bool} {b early cond : Bool} {who : Option (Option P)}

/-- A process has the locks that its step says; who takes `ptable.lock` beside `lk` knows that
they are two. -/
structure Held (u : Setup) (s : State P) : Prop where
  locks : ∀ l p, s.holder l = some (some p) ↔ (s.pc p).holds u l = true
  apart : ∀ p, s.pc p = .sleep ∨ s.pc p = .unlock ∨ s.pc p = .call true → u.lk ≠ .ptable

namespace Held

omit [DecidableEq P] in
theorem has (H : Held u s) (l : Lk) (hpc : s.pc p = x) (hx : x.holds u l = true) :
    s.holder l = some (some p) := by
  rw [H.locks, hpc, hx]

omit [DecidableEq P] in
theorem unique (H : Held u s) (hp : (s.pc p).holds u l = true) (hq : (s.pc q).holds u l = true) :
    p = q := by
  have hholder := (H.locks l p).mpr hp
  rw [(H.locks l q).mpr hq] at hholder
  cases hholder
  rfl

theorem goto (H : Held u s) (hlocks : ∀ l, y.holds u l = (s.pc p).holds u l)
    (hapart : y = .sleep ∨ y = .unlock ∨ y = .call true → u.lk ≠ .ptable) :
    Held u (s.goto p y) where
  locks l q := by
    simp only [State.goto, update_apply, H.locks l q]
    split
    · next heq => rw [heq, hlocks]
    · rfl
  apart q := by
    simp only [State.goto, update_apply]
    split
    · exact hapart
    · exact H.apart q

omit [DecidableEq P] in
theorem passed (H : Held u s) (hfree : ∀ q, s.holder l ≠ some (some q))
    (hwho : ∀ q, who ≠ some (some q)) (k : Lk) (q : P) :
    (s.give l who).holder k = some (some q) ↔ (s.pc q).holds u k = true := by
  simp only [State.give, update_apply, ← H.locks k q]
  split
  · next heq =>
    subst heq
    exact iff_of_false (hwho q) (hfree q)
  · rfl

/-- `p` goes on, and a lock that no other process has changes hands. -/
theorem give (H : Held u s) (hfree : ∀ q, q ≠ p → s.holder l ≠ some (some q))
    (hwho : ∀ q, who = some (some q) → q = p)
    (hlocks : ∀ k, y.holds u k = if k = l then decide (who = some (some p)) else (s.pc p).holds u k)
    (hapart : y = .sleep ∨ y = .unlock ∨ y = .call true → u.lk ≠ .ptable) :
    Held u ((s.give l who).goto p y) where
  locks k q := by
    have hold := H.locks k q
    simp only [State.goto, State.give, update_apply]
    grind
  apart q := by
    simp only [State.goto, State.give, update_apply]
    split
    · exact hapart
    · exact H.apart q

theorem acquire (H : Held u s) (hs : s.acquire l p = some s')
    (hlocks : ∀ k, y.holds u k = if k = l then true else (s.pc p).holds u k)
    (hapart : y = .sleep ∨ y = .unlock ∨ y = .call true → u.lk ≠ .ptable) :
    Held u (s'.goto p y) := by
  unfold State.acquire at hs
  split at hs
  · next hfree =>
    cases hs
    refine H.give (fun q _ hq => ?_) (fun q hq => ?_) (fun k => ?_) hapart
    · rw [hfree] at hq
      cases hq
    · cases hq
      rfl
    · rw [hlocks, decide_eq_true rfl]
  · cases hs

theorem release (H : Held u s) (hl : (s.pc p).holds u l = true)
    (hlocks : ∀ k, y.holds u k = if k = l then false else (s.pc p).holds u k)
    (hapart : y = .sleep ∨ y = .unlock ∨ y = .call true → u.lk ≠ .ptable) :
    Held u ((s.release l).goto p y) := by
  refine H.give (fun q hne hq => ?_) nofun (fun k => ?_) hapart
  · rw [(H.locks l p).mpr hl] at hq
    cases hq
    exact hne rfl
  · rw [hlocks]
    simp only [reduceCtorEq, decide_false]

theorem go (H : Held u s) (hs : s.go u p b = some (s', e)) : Held u s' := by
  have hap := H.apart p
  unfold State.go at hs
  split at hs
  · cases hs
  · cases hs
  · next hpc =>
    obtain ⟨t, ht, heq⟩ := Option.map_eq_some_iff.mp hs
    cases heq
    exact H.acquire ht (by simp [hpc, Pc.holds]) nofun
  · next hpc =>
    cases hs
    exact H.goto (by grind [Pc.holds]) (by grind)
  · next hpc =>
    obtain ⟨t, ht, heq⟩ := Option.map_eq_some_iff.mp hs
    cases heq
    exact H.acquire ht (by grind [Pc.holds]) fun _ => hap (.inl hpc)
  · next hpc =>
    cases hs
    exact H.release (by simp [hpc, Pc.holds]) (by grind [Pc.holds]) nofun
  · next hpc =>
    cases hs
    have H' : Held u (s.goto p .sched) := H.goto (by simp [hpc, Pc.holds]) nofun
    exact ⟨H'.locks, H'.apart⟩
  · next hpc =>
    cases hs
    have hhas := H.has .ptable hpc (by simp [Pc.holds])
    exact H.give (by grind) nofun (by simp [hpc, Pc.holds]) nofun
  · next hpc =>
    cases hs
    have Hchan : Held u {s with chan := update s.chan p (.addr 0)} := ⟨H.locks, H.apart⟩
    split
    · exact Hchan.goto (by grind [Pc.holds]) nofun
    · exact Hchan.release (by simp [hpc, Pc.holds]) (by simp [hpc, Pc.holds]) nofun
  · next hpc =>
    cases hs
    have H' : Held u ((s.release u.lk).goto p .out) :=
      H.release (by simp [hpc, Pc.holds]) (by simp [hpc, Pc.holds]) nofun
    exact ⟨H'.locks, H'.apart⟩
  · next hpc =>
    obtain ⟨t, ht, heq⟩ := Option.map_eq_some_iff.mp hs
    cases heq
    exact H.acquire ht (by simp [hpc, Pc.holds]) nofun
  · next early hpc =>
    cases hs
    have Hcond : Held u {s with cond := b} := ⟨H.locks, H.apart⟩
    cases early
    · exact Hcond.release (by simp [hpc, Pc.holds]) (by simp [hpc, Pc.holds]) nofun
    · exact Hcond.goto (by simp [hpc, Pc.holds]) nofun
  · next early hpc =>
    cases hs
    cases early <;> exact H.goto (by grind [Pc.holds]) (by grind)
  · next early hpc =>
    obtain ⟨t, ht, heq⟩ := Option.map_eq_some_iff.mp hs
    cases heq
    cases early <;> exact H.acquire ht (by grind [Pc.holds]) nofun
  · next early hpc =>
    cases hs
    have H' : Held u (s.goto p (.done early)) :=
      H.goto (by cases early <;> simp [hpc, Pc.holds]) nofun
    exact ⟨H'.locks, H'.apart⟩
  · next early hpc =>
    cases hs
    by_cases hown : u.lk = .ptable ∧ early = true
    · obtain ⟨hlk, rfl⟩ := hown
      have H' : Held u (s.goto p .leave) := H.goto (by simp [hpc, Pc.holds, hlk]) nofun
      simpa [hlk] using H'
    · simp only [if_neg hown]
      exact H.release (by cases early <;> simp [hpc, Pc.holds])
        (by cases early <;> grind [Pc.holds]) (by grind)
  · next hpc =>
    cases hs
    exact H.release (by simp [hpc, Pc.holds]) (by simp [hpc, Pc.holds]) nofun

theorem step (H : Held u s) (hs : s.Step u e s') : Held u s' := by
  obtain ⟨a, ha⟩ := hs
  cases a with
  | go p b => exact H.go ha
  | wait p | wake p early =>
    obtain ⟨hpc, heq⟩ := Option.ite_none_right_eq_some.mp ha
    cases heq
    exact H.goto (by simp [hpc, Pc.holds]) nofun
  | kill p =>
    obtain ⟨-, heq⟩ := Option.ite_none_right_eq_some.mp ha
    cases heq
    exact ⟨H.locks, H.apart⟩
  | scheduler =>
    obtain ⟨hfree, heq⟩ := Option.ite_none_right_eq_some.mp ha
    cases heq
    exact ⟨H.passed (by simp [hfree]) nofun, H.apart⟩
  | switch p =>
    obtain ⟨⟨hheld, -, hpc⟩, heq⟩ := Option.ite_none_right_eq_some.mp ha
    cases heq
    have H' : Held u ((s.give .ptable (some (some p))).goto p .back) :=
      H.give (by simp [hheld]) (by simp) (by simp [hpc, Pc.holds]) nofun
    exact ⟨H'.locks, H'.apart⟩
  | release =>
    obtain ⟨hheld, heq⟩ := Option.ite_none_right_eq_some.mp ha
    cases heq
    exact ⟨H.passed (by simp [hheld]) nofun, H.apart⟩

end Held

/-! ### What a sleeper has not missed -/

/-- A call of `wakeup` that is over has left nobody asleep, and who sleeps, or is about to,
has missed none. -/
structure Kept (did : P → Event P → Bool) (u : Setup) (h : List (Event P)) (s : State P) :
    Prop where
  asleep : ∀ p, s.state p = .sleeping → (s.pc p = .sched ∨ s.pc p = .off) ∧ s.chan p = u.chan
  woken : ∀ q early, s.pc q = .done early → ∀ p, s.state p ≠ .sleeping
  fresh : ∀ p, s.pc p = .sleep → ∀ q, since did p q h = false
  kept : ∀ p, s.pc p = .sleep ∨ s.pc p = .unlock ∨ s.pc p = .mark ∨ s.state p = .sleeping →
    missed did p h = false

@[simp]
theorem missed_test (did : P → Event P → Bool) (p : P) (h : List (Event P)) :
    missed did p (.test p :: h) = false := by
  simp [missed]

/-- Only the end of a call is missed. -/
theorem missed_cons (he : ∀ q, e = .finish q → since did p q h = false)
    (hm : missed did p h = false) : missed did p (e :: h) = false := by
  cases e with
  | finish q => simp [missed, hm, he q rfl]
  | test q => simp [missed, hm]
  | change q => exact hm
  | start q early => exact hm
  | other => exact hm

namespace Kept

section

variable (H : Held u s) (K : Kept did u h s)
include H K

/-- Who is about to sleep has `lk`, so nobody else does what needs it. -/
theorem still (hlk : u.lk ≠ .ptable → ∀ q, did q e = true → (s.pc p).holds u u.lk = true)
    (hne : q ≠ p) (hq : s.pc q = .sleep) (r : P) : since did q r (e :: h) = false := by
  have hnot : did r e = false := by
    by_contra hdid
    have hhas : (s.pc q).holds u u.lk = true := by simp [hq, Pc.holds]
    have hlk' := hlk (H.apart q (.inl hq)) r (Bool.eq_true_of_not_eq_false hdid)
    exact hne (H.unique hhas hlk')
  simp [since, hnot, K.fresh q hq r]

/-- `p` goes on, does not end a call of `wakeup` and leaves each process in its state. -/
theorem goto (hpc : s'.pc = update s.pc p y)
    (hstate : ∀ q, s'.state q = .sleeping → s.state q = .sleeping)
    (hchan : s'.chan = s.chan ∨ s.pc p = .back ∧ ∀ q ≠ p, s'.chan q = s.chan q)
    (hlk : u.lk ≠ .ptable → ∀ q, did q e = true → (s.pc p).holds u u.lk = true)
    (he : ∀ q, e ≠ .finish q) (hdone : ∀ early, y ≠ .done early) (hsleep : y = .sleep → e = .test p)
    (hmark : y = .unlock ∨ y = .mark → s.pc p = .sleep ∨ s.pc p = .unlock ∨ e = .test p)
    (hoff : s.pc p = .sched ∨ s.pc p = .off → y = .off ∨ s'.state p ≠ .sleeping) :
    Kept did u (e :: h) s' := by
  have hmissed : ∀ q, missed did q h = false → missed did q (e :: h) = false := fun q =>
    missed_cons fun r hr => absurd hr (he r)
  refine ⟨fun q hq => ?_, fun q early hq => ?_, fun q hq r => ?_, fun q hq => ?_⟩
  · obtain ⟨hwhere, hon⟩ := K.asleep q (hstate q hq)
    rw [hpc, update_apply]
    grind
  · rw [hpc, update_apply] at hq
    split at hq
    · exact absurd hq (hdone early)
    · exact fun r hr => K.woken q early hq r (hstate r hr)
  · rw [hpc, update_apply] at hq
    split at hq
    · next heq =>
      rw [hsleep hq, heq]
      simp [since]
    · next hne => exact K.still H hlk hne hq r
  · have hsame := hstate q
    rw [hpc, update_apply] at hq
    split at hq
    · next heq =>
      by_cases htest : e = .test q
      · rw [htest]
        exact missed_test did q h
      · refine hmissed q (K.kept q ?_)
        grind
    · exact hmissed q (K.kept q (by grind))

theorem acquire (hs : s.acquire l p = some s')
    (hlk : u.lk ≠ .ptable → ∀ q, did q .other = true → (s.pc p).holds u u.lk = true)
    (hdone : ∀ early, y ≠ .done early) (hsleep : y ≠ .sleep) (hmark : y ≠ .mark)
    (hunlock : y = .unlock → s.pc p = .sleep) (hon : s.pc p ≠ .sched ∧ s.pc p ≠ .off) :
    Kept did u (.other :: h) (s'.goto p y) := by
  unfold State.acquire at hs
  split at hs
  · cases hs
    refine K.goto H rfl (fun _ => id) (.inl rfl) hlk nofun hdone (absurd · hsleep) (fun hy => ?_)
      fun hoff => absurd hoff (not_or_intro hon.1 hon.2)
    exact .inl (hunlock (hy.resolve_right hmark))
  · cases hs

theorem mark (hpc : s.pc p = .mark)
    (hlk : u.lk ≠ .ptable → ∀ q, did q .other = true → (s.pc p).holds u u.lk = true) :
    Kept did u (.other :: h) {s.goto p .sched with
      chan := update s.chan p u.chan, state := update s.state p .sleeping} := by
  have hhas : (s.pc p).holds u .ptable = true := by simp [hpc, Pc.holds]
  refine ⟨fun q hq => ?_, fun q early hq => ?_, fun q hq r => ?_, fun q hq => ?_⟩
  · have hold := K.asleep q
    simp only [State.goto, update_apply] at hq ⊢
    grind
  · -- it would have `ptable.lock` too
    simp only [State.goto, update_apply] at hq
    split at hq
    · cases hq
    · next hne =>
      have hq' : (s.pc q).holds u .ptable = true := by cases early <;> simp [hq, Pc.holds]
      exact absurd (H.unique hq' hhas) hne
  · simp only [State.goto, update_apply] at hq
    split at hq
    · cases hq
    · next hne => exact K.still H hlk hne hq r
  · refine missed_cons nofun (K.kept q ?_)
    simp only [State.goto, update_apply] at hq
    grind

end

section
variable (H : Held u s) (K : Kept did u h s)
include H K

theorem wakeup1 (hlk : u.lk ≠ .ptable → ∀ q, did q .other = true → (s.pc p).holds u u.lk = true) :
    Kept did u (.other :: h) ((s.wakeup1 u).goto p (.done early)) := by
  have hnone : ∀ q, ((s.wakeup1 u).goto p (.done early)).state q ≠ .sleeping := by
    intro q
    have hold := K.asleep q
    simp only [State.goto, State.wakeup1]
    grind
  refine ⟨fun q hq => absurd hq (hnone q), fun _ _ _ => hnone, fun q hq r => ?_, fun q hq => ?_⟩
  · simp only [State.goto, State.wakeup1, update_apply] at hq
    split at hq
    · cases hq
    · next hne => exact K.still H hlk hne hq r
  · have hasleep := hnone q
    refine missed_cons nofun (K.kept q ?_)
    simp only [State.goto, State.wakeup1, update_apply] at hq hasleep
    grind

/-- Who sleeps when a call ends has not seen its start. -/
theorem done (hpc : s.pc p = .done early)
    (hlk : u.lk ≠ .ptable → ∀ q, did q (.finish p) = true → (s.pc p).holds u u.lk = true)
    (hpcs : s'.pc = update s.pc p (if early then .leave else .out))
    (hstate : s'.state = s.state) : Kept did u (.finish p :: h) s' := by
  have hhas : (s.pc p).holds u .ptable = true := by cases early <;> simp [hpc, Pc.holds]
  have hnone := K.woken p early hpc
  refine ⟨fun q hq => ?_, fun q b hq => ?_, fun q hq r => ?_, fun q hq => ?_⟩
  · rw [hstate] at hq
    exact absurd hq (hnone q)
  · rw [hstate]
    exact hnone
  · rw [hpcs, update_apply] at hq
    split at hq
    · grind
    · next hne => exact K.still H hlk hne hq r
  · rw [hpcs, hstate, update_apply] at hq
    have hwhere : q ≠ p ∧ (s.pc q = .sleep ∨ (s.pc q).holds u .ptable = true) := by
      grind [Pc.holds]
    obtain ⟨hne, hsleep | hq'⟩ := hwhere
    · refine missed_cons (fun r hr => ?_) (K.kept q (.inl hsleep))
      exact K.fresh q hsleep r
    · exact absurd (H.unique hq' hhas) hne

theorem go (hs : s.go u p b = some (s', e))
    (hlk : u.lk ≠ .ptable → ∀ q, did q e = true → (s.pc p).holds u u.lk = true) :
    Kept did u (e :: h) s' := by
  unfold State.go at hs
  split at hs
  · cases hs
  · cases hs
  · next hpc =>
    obtain ⟨t, ht, heq⟩ := Option.map_eq_some_iff.mp hs
    cases heq
    exact K.acquire H ht hlk nofun nofun nofun nofun (by simp [hpc])
  · next hpc =>
    cases hs
    exact K.goto H rfl (fun _ => id) (.inl rfl) hlk nofun (by grind) (by grind) (by grind)
      (by simp [hpc])
  · next hpc =>
    obtain ⟨t, ht, heq⟩ := Option.map_eq_some_iff.mp hs
    cases heq
    exact K.acquire H ht hlk nofun nofun nofun (fun _ => hpc) (by simp [hpc])
  · next hpc =>
    cases hs
    exact K.goto H rfl (fun _ => id) (.inl rfl) hlk nofun nofun nofun
      (fun _ => .inr (.inl hpc)) (by simp [hpc])
  · next hpc =>
    cases hs
    exact K.mark H hpc hlk
  · next hpc =>
    cases hs
    exact K.goto H rfl (fun _ => id) (.inl rfl) hlk nofun nofun nofun nofun fun _ => .inl rfl
  · next hpc =>
    cases hs
    have hchan : ∀ q ≠ p, update s.chan p (.addr 0) q = s.chan q := fun q hne =>
      update_of_ne hne _ _
    split <;>
      exact K.goto H rfl (fun _ => id) (.inr ⟨hpc, hchan⟩) hlk nofun nofun nofun nofun
        (by simp [hpc])
  · next hpc =>
    cases hs
    exact K.goto H rfl (fun _ => id) (.inl rfl) hlk nofun nofun nofun nofun (by simp [hpc])
  · next hpc =>
    obtain ⟨t, ht, heq⟩ := Option.map_eq_some_iff.mp hs
    cases heq
    exact K.acquire H ht hlk nofun nofun nofun nofun (by simp [hpc])
  · next early hpc =>
    cases hs
    cases early <;>
      exact K.goto H rfl (fun _ => id) (.inl rfl) hlk nofun nofun nofun nofun (by simp [hpc])
  · next early hpc =>
    cases hs
    exact K.goto H rfl (fun _ => id) (.inl rfl) hlk nofun (by grind) (by grind) (by grind)
      (by simp [hpc])
  · next early hpc =>
    obtain ⟨t, ht, heq⟩ := Option.map_eq_some_iff.mp hs
    cases heq
    exact K.acquire H ht hlk nofun nofun nofun nofun (by simp [hpc])
  · next early hpc =>
    cases hs
    exact K.wakeup1 H hlk
  · next early hpc =>
    cases hs
    split
    · exact K.done H hpc hlk rfl rfl
    · exact K.done H hpc hlk rfl rfl
  · next hpc =>
    cases hs
    exact K.goto H rfl (fun _ => id) (.inl rfl) hlk nofun nofun nofun nofun (by simp [hpc])

end

/-- Others than the processes have a step that puts nobody to sleep. -/
theorem awake (K : Kept did u h s) (hother : ∀ q, did q .other = false) (hpc : s'.pc = s.pc)
    (hchan : s'.chan = s.chan) (hstate : ∀ q, s'.state q = .sleeping → s.state q = .sleeping) :
    Kept did u (.other :: h) s' where
  asleep q hq := by
    rw [hpc, hchan]
    exact K.asleep q (hstate q hq)
  woken q early hq r hr := by
    rw [hpc] at hq
    exact K.woken q early hq r (hstate r hr)
  fresh q hq r := by
    rw [hpc] at hq
    simp [since, hother, K.fresh q hq r]
  kept q hq := by
    rw [hpc] at hq
    refine missed_cons nofun (K.kept q ?_)
    exact hq.imp_right (Or.imp_right (Or.imp_right (hstate q)))

theorem step (H : Held u s) (K : Kept did u h s) (hother : ∀ q, did q .other = false)
    (hs : s.Step u e s')
    (hlk : u.lk ≠ .ptable → ∀ p b, s.go u p b = some (s', e) → ∀ q, did q e = true →
      (s.pc p).holds u u.lk = true) :
    Kept did u (e :: h) s' := by
  have hnever : ∀ {x : Prop} q, did q .other = true → x := fun q hq => by
    rw [hother q] at hq
    cases hq
  obtain ⟨a, ha⟩ := hs
  cases a with
  | go p b => exact K.go H ha fun hne => hlk hne p b ha
  | wait p | wake p early =>
    obtain ⟨hpc, heq⟩ := Option.ite_none_right_eq_some.mp ha
    cases heq
    exact K.goto H rfl (fun _ => id) (.inl rfl) (fun _ => hnever) nofun nofun nofun nofun
      (by simp [hpc])
  | kill p =>
    obtain ⟨-, heq⟩ := Option.ite_none_right_eq_some.mp ha
    cases heq
    refine K.awake hother rfl rfl fun q hq => ?_
    grind
  | scheduler | release =>
    obtain ⟨-, heq⟩ := Option.ite_none_right_eq_some.mp ha
    cases heq
    exact K.awake hother rfl rfl fun q hq => hq
  | switch p =>
    obtain ⟨⟨-, hrun, hpc⟩, heq⟩ := Option.ite_none_right_eq_some.mp ha
    cases heq
    refine K.goto H rfl (fun q hq => ?_) (.inl rfl) (fun _ => hnever) nofun nofun nofun nofun
      fun _ => ?_
    · simp only [update_apply] at hq
      grind
    · simp

end Kept

/-! ### Every run -/

omit [DecidableEq P] in
theorem held_start (u : Setup) (cond : Bool) : Held u (start cond : State P) where
  locks _ _ := iff_of_false nofun nofun
  apart _ := by simp [start]

theorem held_run (hr : Run (State.Step u) (start cond) h s) : Held u s :=
  hr.invariant (fun _ s => Held u s) (held_start u cond) fun _ _ _ _ _ H hs => H.step hs

theorem kept_start (did : P → Event P → Bool) (u : Setup) (cond : Bool) :
    Kept did u [] (start cond : State P) where
  asleep _ := nofun
  woken _ _ := nofun
  fresh _ := nofun
  kept _ _ := rfl

/-- `good` steps are those that need `lk` if they count. -/
theorem kept_run (good : Event P → Prop) (hother : ∀ q, did q .other = false)
    (hlk : ∀ {s s' : State P} {e p b}, u.lk ≠ .ptable → good e → s.go u p b = some (s', e) →
      ∀ q, did q e = true → (s.pc p).holds u u.lk = true)
    (hr : Run (State.Step u) (start cond) h s) : (∀ e ∈ h, good e) → Kept did u h s := by
  refine hr.invariant (fun h s => (∀ e ∈ h, good e) → Kept did u h s)
    (fun _ => kept_start did u cond) fun h s e s' hr K hs hgood => ?_
  obtain ⟨hnew, hold⟩ := List.forall_mem_cons.mp hgood
  exact (K hold).step (held_run hr) hother hs fun hne _ _ hgo => hlk hne hnew hgo

theorem holds_of_change (hs : s.go u p b = some (s', .change q)) :
    (s.pc p).holds u u.lk = true := by
  unfold State.go at hs
  split at hs <;> simp_all [Pc.holds, Option.map_eq_some_iff]

theorem holds_of_start (hs : s.go u p b = some (s', .start q true)) :
    (s.pc p).holds u u.lk = true := by
  unfold State.go at hs
  split at hs <;> simp_all [Pc.holds, Option.map_eq_some_iff]

/-- A process does not sleep when one that changed the condition after its last test has
ended its call of `wakeup`. If `lk` is `ptable.lock`, or if all call `wakeup` before they
release `lk`, nor does it when a call that started after its last test has ended. -/
theorem no_lost_wakeup {cond : Bool} (hr : Run (State.Step u) (start cond) h s)
    (hasleep : s.state p = .sleeping ∧ s.chan p = u.chan) :
    missed Event.changes p h = false ∧
    (u.lk = .ptable ∨ (∀ q, .start q false ∉ h) → missed Event.starts p h = false) := by
  have hkept : s.pc p = .sleep ∨ s.pc p = .unlock ∨ s.pc p = .mark ∨ s.state p = .sleeping :=
    .inr (.inr (.inr hasleep.1))
  constructor
  · have K : Kept Event.changes u h s := by
      refine kept_run (fun _ => True) (fun _ => rfl) ?_ hr fun _ _ => trivial
      intro s s' e p b _ _ hgo q hq
      cases of_decide_eq_true hq
      exact holds_of_change hgo
    exact K.kept p hkept
  · intro hearly
    have K : Kept Event.starts u h s := by
      refine kept_run (fun e => u.lk ≠ .ptable → ∀ q, e ≠ .start q false) (fun _ => rfl) ?_ hr ?_
      · intro s s' e p b hne hgood hgo q hq
        obtain heq | heq : e = .start q true ∨ e = .start q false := by
          simpa [Event.starts] using hq
        · subst heq
          exact holds_of_start hgo
        · exact absurd heq (hgood hne q)
      · intro e he hne q heq
        subst heq
        exact hearly.elim hne fun hnone => hnone q he
    exact K.kept p hkept

end

/-- Process 2 sleeps while a waker that has changed the condition starts its call. -/
theorem no_lost_wakeup_started : ∃ h, ∃ s : State (Fin 3),
    Run (State.Step ⟨.addr 8, .lk⟩) (start false) h s ∧ s.state 2 = .sleeping ∧
    since Event.changes 2 0 h = true ∧ missed Event.changes 2 h = false ∧
    missed Event.starts 2 h = false := by
  have hrun := Run.exists_of_steps (start false : State (Fin 3))
    (fun s a s' e hs => (⟨a, hs⟩ : s.Step ⟨.addr 8, .lk⟩ e s'))
    [.wait 2, .go 2 false, .go 2 false, .go 2 false, .go 2 false, .go 2 false, .go 2 false,
      .release, .wake 0 true, .go 0 false, .go 0 true, .go 0 false]
    (P := fun h s => (s.state 2 = .sleeping ∧ s.chan 2 = .addr 8) ∧ since Event.changes 2 0 h = true ∧
      ∀ q, .start q false ∉ h)
    (by decide +kernel)
  obtain ⟨h, s, hr, hasleep, hsince, hearly⟩ := hrun
  obtain ⟨hchanges, hstarts⟩ := no_lost_wakeup hr hasleep
  exact ⟨h, s, hr, hasleep.1, hsince, hchanges, hstarts (.inr hearly)⟩

/-- A waker changes the condition, another process changes it back, and process 2 tests it;
then the waker calls `wakeup` while process 2 is on its way to `ptable.lock`. -/
theorem wakeup_before_sleep : ∃ h, ∃ s : State (Fin 3),
    Run (State.Step ⟨.addr 8, .lk⟩) (start false) h s ∧ s.state 2 = .sleeping ∧
    s.chan 2 = .addr 8 ∧ missed Event.starts 2 h = true :=
  Run.exists_of_steps (start false) (fun s a s' e hs => (⟨a, hs⟩ : s.Step ⟨.addr 8, .lk⟩ e s'))
    [.wake 0 false, .go 0 false, .go 0 true,
      .wait 1, .go 1 false, .go 1 false, .go 1 false,
      .wait 2, .go 2 false, .go 2 false,
      .go 0 false, .go 0 false, .go 0 false, .go 0 false,
      .go 2 false, .go 2 false, .go 2 false]
    (by decide +kernel)

end ThreadKernel.Wakeup
