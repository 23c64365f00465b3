import ThreadKernel.Proc.Table
import ThreadKernel.Library.Run

/-! One step of the kernel.

A step is one CPU running one critical section of `ptable.lock`, or one of the
unlocked pieces of `fork`, `thread_create` and `exec` between two of them. CPUs take
steps in any order; `none` means that this CPU cannot take this step here (it waits
for the lock, is elsewhere in its code, or would panic).

The timer reads the state of the proc before `yield` takes the lock, so it is a
step of its own (`tick`). Kernel code outside the table (the file system, pipes,
the console) shows only as calls of `sleep` and `wakeup`, at any time. -/
namespace ThreadKernel

/-- What a CPU is asked to do next. -/
inductive Op where
  /-- `scheduler`: take the lock, or switch to the next `RUNNABLE` proc, or let go. -/
  | schedule
  /-- A timer interrupt finds the proc `RUNNING`. -/
  | tick
  | yield
  | sleep (ch : Chan)
  | wakeup (ch : Chan)
  /-- `fork`, up to the end of `allocproc`'s section. -/
  | fork
  /-- `thread_create`, up to the end of `allocproc`'s section. -/
  | threadCreate
  /-- The rest of `allocproc`; whether `kalloc` succeeds. -/
  | allocKstack (ok : Bool)
  | forkPage (ok : Bool)
  | forkCopy (ok : Bool)
  | forkPublish
  /-- The section of `thread_create`; whether `allocuvm` and `copyout` succeed. -/
  | createFinish (ok : Bool)
  | threadExit (v : Word)
  | threadJoin (t : Nat)
  | wait
  | exit
  /-- `sys_kill`; `none` if its argument cannot be fetched. -/
  | kill (pid : Option Word)
  /-- `exec`, up to the end of `kill_other_threads`. -/
  | exec
  /-- The rest of `exec`; whether the new image can be built. -/
  | execFinish (ok : Bool)
  deriving DecidableEq, Repr

/-- Interrupts run on every CPU that does not hold the lock. -/
def Mode.interruptible : Mode → Bool
  | .scan _ => false
  | _ => true

namespace Kernel

/-- `sleep(ch, ..)` with `ptable.lock` held. -/
def sleep (s : Kernel) (c : Nat) (p : Slot) (ch : Chan) (r : Resume) : Kernel :=
  (s.setProc p fun x => {x with chan := ch, state := .sleeping, context := some r}).sched c p

/-- The loop of `wait`, `ptable.lock` held. -/
def waitBody (s : Kernel) (c : Nat) (cur : Slot) : Option (Kernel × Event) :=
  match Fin.find? (s.waitable cur) with
  | some child =>
    match (s.proc child).sharePtr with
    | some own => some ((s.reap child own).release c .user, .waited cur child (s.proc child).pid)
    | none => none
  | none =>
    if (∀ p, (s.proc p).parent ≠ some cur) ∨ (s.proc cur).killed then some (s.release c .user, .quiet)
    else some (s.sleep c cur (.proc cur) .waitLoop, .quiet)

/-- The loop of `thread_join`, `ptable.lock` held. `kfree` panics on a null stack. -/
def joinBody (s : Kernel) (c : Nat) (cur : Slot) (t : Nat) : Option (Kernel × Event) :=
  match Fin.find? (s.joinable cur t) with
  | some p =>
    match (s.proc p).kstack, (s.proc cur).sharePtr with
    | some _, some own =>
      some ((s.joinReap p own).release c .user, .joined cur p t (s.proc p).retval)
    | _, _ => none
  | none => some (s.sleep c cur (.proc cur) (.joinLoop t), .quiet)

/-- A saved context goes on, `ptable.lock` held. -/
def resume (s : Kernel) (c : Nat) (p : Slot) : Resume → Option (Kernel × Event)
  | .release k => some (s.release c k, .quiet)
  | .slept k => some ((s.setProc p fun x => {x with chan := .addr 0}).release c k, .quiet)
  | .waitLoop => (s.setProc p fun x => {x with chan := .addr 0}).waitBody c p
  | .joinLoop t =>
    let s' := s.setProc p fun x => {x with chan := .addr 0}
    if (s'.proc p).killed then some (s'.release c .user, .quiet) else s'.joinBody c p t

/-- `scheduler` switches to `p`: `switchuvm` panics without a stack or a directory. -/
def switchTo (s : Kernel) (c : Nat) (p : Slot) : Option (Kernel × Event) :=
  match (s.proc p).kstack, (s.proc p).sharePtr, (s.proc p).context with
  | some _, some own, some r =>
    if (s.shared own).pgdir.isSome then
      ((s.setCpu c ⟨some p, .run .user⟩).setProc p fun x => {x with state := .running}).resume c p r
    else none
  | _, _, _ => none

/-- The next `RUNNABLE` proc from slot `i` on. -/
def nextRunnable (s : Kernel) (i : Nat) : Option Slot :=
  Fin.find? fun p => i ≤ p.val ∧ (s.proc p).state = .runnable

/-- The proc on CPU `c` and where its code stands, when it is not in an interrupt. -/
def running (s : Kernel) (c : Nat) : Option (Slot × Ctx) :=
  match (s.cpu c).proc, (s.cpu c).mode with
  | some p, .run k => some (p, k)
  | _, _ => none

/-- Go on as `k` without having touched the lock. -/
def goto (s : Kernel) (c : Nat) (k : Ctx) : Kernel :=
  s.setCpu c ⟨(s.cpu c).proc, .run k⟩

/-- `allocproc` on behalf of a call that goes on as `k`. -/
def alloc (s : Kernel) (c : Nat) (k : Slot → Ctx) : Kernel × Event :=
  match s.allocproc with
  | some (np, s') => (s'.goto c (k np), .handedOut np)
  | none => (s, .quiet)

/-! ### The calls of the proc on a CPU

`cur` is the proc on CPU `c` and `k` is where its code stands. -/

section
variable (s : Kernel) (c : Nat) (cur : Slot) (k : Ctx)

def sleepCall (ch : Chan) : Option (Kernel × Event) :=
  match k with
  | .user | .initcode | .execing _ => some (s.sleep c cur ch (.slept k), .quiet)
  | _ => none

def allocKstackCall (ok : Bool) : Option (Kernel × Event) :=
  match k with
  | .forkAlloc np =>
    if ok then some ((s.allocKstack np).goto c (.forkPage np), .quiet)
    else some ((s.abandon np none).goto c .user, .quiet)
  | .createAlloc np =>
    if ok then some ((s.allocKstack np).goto c (.createFinish np), .quiet)
    else some ((s.abandon np none).goto c .user, .quiet)
  | _ => none

def forkPageCall (ok : Bool) : Option (Kernel × Event) :=
  match k with
  | .forkPage np =>
    if ok then some ((s.forkPage np).goto c (.forkCopy np), .quiet)
    else some ((s.abandon np (s.proc np).kstack).goto c .user, .quiet)
  | _ => none

def forkCopyCall (ok : Bool) : Option (Kernel × Event) :=
  match k, (s.proc cur).sharePtr with
  | .forkCopy np, some _ =>
    match (s.proc np).sharePtr with
    | some own =>
      if ok then some ((s.forkCopy cur np own).goto c (.forkPublish np), .quiet)
      else some ((s.forkCopyFail np).goto c .user, .quiet)
    | none => none
  | _, _ => none

def forkPublishCall : Option (Kernel × Event) :=
  match k with
  | .forkPublish np =>
    match (s.proc np).sharePtr with
    | some own => some ((s.forkPublish np own).goto c .user, .forked cur np)
    | none => none
  | _ => none

def createFinishCall (ok : Bool) : Option (Kernel × Event) :=
  match k, (s.proc cur).sharePtr with
  | .createFinish np, some own =>
    if ok then
      let s' := s.create cur np own
      some (s'.goto c .user, .created cur np own (s'.proc np).orderOfThread)
    else some ((s.createFail cur np).goto c .user, .quiet)
  | _, _ => none

def threadExitCall (v : Word) : Option (Kernel × Event) :=
  match k, (s.proc cur).sharePtr with
  | .user, some own => some ((s.threadExit cur own v).sched c cur, .threadExited cur v)
  | _, _ => none

/-- Only a master joins. -/
def threadJoinCall (t : Nat) : Option (Kernel × Event) :=
  if k = .user then
    if (s.proc cur).imMaster then s.joinBody c cur t else some (s, .quiet)
  else none

/-- `initproc` panics. -/
def exitCall : Option (Kernel × Event) :=
  match k, (s.proc cur).sharePtr with
  | .user, some _ => if cur = s.initproc then none else some ((s.exit cur).sched c cur, .exited cur)
  | _, _ => none

def killCall (arg : Option Word) : Option (Kernel × Event) :=
  if k = .user then
    match arg with
    | some pid =>
      match Fin.find? fun p => (s.proc p).pid = pid with
      | some p => some (s.kill p, .quiet)
      | none => some (s, .quiet)
    -- the early return keeps the lock
    | none => some ({s with lock := some c}, .quiet)
  else none

def execCall : Option (Kernel × Event) :=
  match k, (s.proc cur).sharePtr with
  | .user, some own =>
    (s.killOtherThreads cur own).map fun s' => (s'.goto c (.execing false), .killedOthers cur)
  | .initcode, some own =>
    (s.killOtherThreads cur own).map fun s' => (s'.goto c (.execing true), .killedOthers cur)
  | _, _ => none

def execFinishCall (ok : Bool) : Option (Kernel × Event) :=
  match k, (s.proc cur).sharePtr with
  | .execing init, some own =>
    if ok then some ((s.execCommit cur own).goto c .user, .execed cur)
    else some (s.goto c (if init then .initcode else .user), .quiet)
  | _, _ => none

/-- The calls that need `ptable.lock`. -/
def locked : Op → Option (Kernel × Event)
  | .fork => if k = .user then some (s.alloc c .forkAlloc) else none
  | .threadCreate => if k = .user then some (s.alloc c .createAlloc) else none
  | .sleep ch => s.sleepCall c cur k ch
  | .forkPublish => s.forkPublishCall c cur k
  | .createFinish ok => s.createFinishCall c cur k ok
  | .threadExit v => s.threadExitCall c cur k v
  | .threadJoin t => s.threadJoinCall c cur k t
  | .wait => if k = .user then s.waitBody c cur else none
  | .exit => s.exitCall c cur k
  | .kill arg => s.killCall c k arg
  | .exec => s.execCall c cur k
  | .schedule | .tick | .yield | .wakeup _ | .allocKstack _ | .forkPage _ | .forkCopy _
  | .execFinish _ => none

/-- The pieces that run without it. -/
def unlocked : Op → Option (Kernel × Event)
  | .tick => if (s.proc cur).state = .running then some (s.setCpu c ⟨some cur, .tick k⟩, .quiet) else none
  | .allocKstack ok => s.allocKstackCall c k ok
  | .forkPage ok => s.forkPageCall c k ok
  | .forkCopy ok => s.forkCopyCall c cur k ok
  | .execFinish ok => s.execFinishCall c cur k ok
  | .schedule | .yield | .sleep _ | .wakeup _ | .fork | .threadCreate | .forkPublish | .createFinish _
  | .threadExit _ | .threadJoin _ | .wait | .exit | .kill _ | .exec => none

end

/-- The steps of `scheduler`, and the switch of `yield` into it. -/
def scheduling (s : Kernel) (c : Nat) : Op → Option (Kernel × Event)
  | .schedule =>
    match (s.cpu c).mode with
    | .idle => if s.lock = none then some ({s.setCpu c ⟨none, .scan 0⟩ with lock := some c}, .quiet) else none
    | .scan i =>
      match s.nextRunnable i with
      | some p => s.switchTo c p
      | none => some ({s.setCpu c ⟨none, .idle⟩ with lock := none}, .quiet)
    | _ => none
  | .yield =>
    match (s.cpu c).proc, (s.cpu c).mode with
    | some p, .tick k =>
      if s.lock = none then
        some ((s.setProc p fun x => {x with state := .runnable, context := some (.release k)}).sched c p,
          .quiet)
      else none
    | _, _ => none
  | .wakeup ch =>
    if s.lock = none ∧ (s.cpu c).mode.interruptible then some (s.wakeup1 ch, .quiet) else none
  | _ => none

def step (s : Kernel) (c : Nat) (op : Op) : Option (Kernel × Event) :=
  match s.scheduling c op with
  | some r => some r
  | none =>
    match s.running c with
    | some (cur, k) =>
      match s.unlocked c cur k op with
      | some r => some r
      | none => if s.lock = none then s.locked c cur k op else none
    | none => none

/-- The state `userinit` leaves: slot 0 is the first process, about to run
`initcode.S`. `imMaster` is not set there. -/
def boot : Kernel where
  proc := fun p =>
    if p = 0 then
      ⟨some 0, .runnable, 1, none, some (.release .initcode), .addr 0, false, some 1, 0, 0, false⟩
    else ⟨none, .unused, 0, none, none, .addr 0, false, none, 0, 0, false⟩
  shared := fun a =>
    if a = 1 then ⟨some 2, 1, Function.update (fun _ => none) 0 (some 0), fun i => i = 0⟩
    else ⟨none, 0, fun _ => none, fun _ => false⟩
  cpu := fun _ => ⟨none, .idle⟩
  lock := none
  nextpid := 2
  nextPage := 3
  freed := []
  initproc := 0

end Kernel

/-- Some CPU takes a step from `s` to `s'`, seen as `e`. -/
def Step (s : Kernel) (e : Event) (s' : Kernel) : Prop :=
  ∃ c op, s.step c op = some (s', e)

/-- A step as an action of a computed run: which CPU does what. -/
def Kernel.act (s : Kernel) (a : Nat × Op) : Option (Kernel × Event) :=
  s.step a.1 a.2

theorem Kernel.step_of_act (s : Kernel) (a : Nat × Op) (s' : Kernel) (e : Event)
    (h : s.act a = some (s', e)) : Step s e s' :=
  ⟨a.1, a.2, h⟩

namespace Kernel

variable {P : List Event → Kernel → Prop} [∀ h s, Decidable (P h s)]
  {Q : List Event → Kernel → Kernel → Prop} [∀ h s s', Decidable (Q h s s')] {e : Event}

theorem reached (rule : Kernel → Event → Prop) [∀ s e, Decidable (rule s e)] (as : List (Nat × Op))
    (h : (Lts.trace act rule as [] boot).any (fun r => P r.1 r.2) = true) :
    ∃ h s, Lts.Run (Lts.Guarded Step rule) boot h s ∧ P h s :=
  Lts.Run.exists_of_trace step_of_act as h

theorem reached_step (rule : Kernel → Event → Prop) [∀ s e, Decidable (rule s e)]
    (as : List (Nat × Op)) (c : Nat) (op : Op)
    (h : (Lts.trace act rule as [] boot).any
      (fun r => (r.2.step c op).any fun q => q.2 = e ∧ Q r.1 r.2 q.1) = true) :
    ∃ h s s', Lts.Run (Lts.Guarded Step rule) boot h s ∧ s.step c op = some (s', e) ∧ Q h s s' := by
  obtain ⟨h, s, hr, hany⟩ := reached rule as
    (P := fun h s => (s.step c op).any (fun q => q.2 = e ∧ Q h s q.1) = true) (by simpa using h)
  obtain ⟨s', hs, hq⟩ := Lts.exists_of_any hany
  exact ⟨h, s, s', hr, hs, hq⟩

theorem reaches (as : List (Nat × Op))
    (h : (Lts.trace act (fun _ _ => True) as [] boot).any (fun r => P r.1 r.2) = true) :
    ∃ h s, Lts.Run Step boot h s ∧ P h s :=
  Lts.Run.exists_of_steps boot step_of_act as h

theorem reaches_step (as : List (Nat × Op)) (c : Nat) (op : Op)
    (h : (Lts.trace act (fun _ _ => True) as [] boot).any
      (fun r => (r.2.step c op).any fun q => q.2 = e ∧ Q r.1 r.2 q.1) = true) :
    ∃ h s s', Lts.Run Step boot h s ∧ s.step c op = some (s', e) ∧ Q h s s' := by
  obtain ⟨h, s, s', hr, hs⟩ := reached_step _ as c op h
  exact ⟨h, s, s', hr.unguarded, hs⟩

end Kernel

/-! ### Pieces of schedules -/

def onCpu (c : Nat) (ops : List Op) : List (Nat × Op) :=
  ops.map fun op => (c, op)

namespace Op

/-- `init` is switched to and has run its first `exec`. -/
def started : List Op := [.schedule, .schedule, .exec, .execFinish true]

def forks : List Op := [.fork, .allocKstack true, .forkPage true, .forkCopy true, .forkPublish]

def creates : List Op := [.threadCreate, .allocKstack true, .createFinish true]

/-- The timer takes the CPU away, and the scheduler switches to the next proc. -/
def preempted : List Op := [.tick, .yield, .schedule]

/-- `init` runs, forks and is preempted: slot 1 runs. -/
def childRuns : List Op := started ++ forks ++ preempted

/-- The scheduler has come to the end of the table and starts over. -/
def rescan : List Op := [.schedule, .schedule, .schedule]

end Op

end ThreadKernel
