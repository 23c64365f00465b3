import ThreadKernel.Proc.State
import ThreadKernel.Library.Run

/-! Open files, statement by statement.

The descriptor table `sharePtr->ofile` is shared by the threads of a process, and `open`,
`dup`, `pipe`, `close`, `fork` and `exit` read and write it without a lock. A step is one
such access, or one section of `ftable.lock`; between any two of them other threads may
run. A thread is in one of the calls below or in none, with the values that its local
variables have there.

Processes have numbers that are not used again; `live` says that the shared data of one
has not been given up by `exit`. The inodes and pipes behind the files are not here. -/
namespace ThreadKernel.File

open Function

abbrev NFILE : Nat := 100
abbrev NOFILE : Nat := 16

/-- An entry of `ftable.file`. -/
abbrev FileId := Fin NFILE

/-- An index into `ofile`. -/
abbrev Fd := Fin NOFILE

/-- Who has called `fdalloc(f)`. -/
inductive Origin where
  /-- `sys_dup`, for the file of `old`. -/
  | dup (old : Fd)
  | opens
  /-- `sys_pipe`, for its read end; the write end is `wf`. -/
  | pipeRead (wf : FileId)
  /-- `sys_pipe`, for its write end; the read end has got `fd0`. -/
  | pipeWrite (rf : FileId) (fd0 : Fd)
  deriving DecidableEq, Repr

/-- Where a thread stands. -/
inductive Call where
  | idle
  /-- `fdalloc(f)`, about to test `ofile[fd]`. -/
  | fdalloc (k : Origin) (f : FileId) (fd : Nat)
  /-- `fdalloc(f)` has found `ofile[fd]` null. -/
  | fdstore (k : Origin) (f : FileId) (fd : Fd)
  /-- `sys_dup` has stored `f` in `new` and is about to call `filedup`. -/
  | dupRef (f : FileId) (old new : Fd)
  /-- `sys_close` has read `f` in `ofile[fd]`. -/
  | closeClear (fd : Fd) (f : FileId)
  /-- About to call `fileclose` on each. -/
  | closing (fs : List FileId)
  /-- `pipealloc` has its first file. -/
  | pipeSecond (f0 : FileId)
  /-- `pipealloc` has both and is about to call `kalloc`. -/
  | pipePage (f0 f1 : FileId)
  /-- `sys_pipe` has no second descriptor: about to clear the first. -/
  | pipeClear (rf wf : FileId) (fd0 : Fd)
  /-- `fork`, about to test `ofile[i]`; the child's table is that of `np`. -/
  | forkTest (np i : Nat)
  /-- `fork` has found `f` in `ofile[i]` and is about to read it again. -/
  | forkRead (np : Nat) (i : Fd) (f : FileId)
  /-- About to call `filedup(f)`. -/
  | forkDup (np : Nat) (i : Fd) (f : FileId)
  | forkStore (np : Nat) (i : Fd) (f : FileId)
  /-- `exit`, about to test `ofile[i]`. -/
  | exitTest (i : Nat)
  /-- `exit` has found `f` in `ofile[i]` and is about to read it again. -/
  | exitRead (i : Fd) (f : FileId)
  /-- About to call `fileclose(f)`. -/
  | exitClose (i : Fd) (f : FileId)
  /-- About to clear `ofile[i]`. -/
  | exitClear (i : Fd) (f : FileId)
  deriving DecidableEq, Repr

inductive Panic where
  | filedup
  | fileclose
  /-- No panic: a null `struct file *` is followed. -/
  | null
  deriving DecidableEq, Repr

structure State where
  ref : FileId → Nat
  ofile : Nat × Fd → Option FileId
  live : Nat → Bool
  next : Nat
  /-- The threads that run: their process, and where they stand. -/
  thread : Slot → Option (Nat × Call)
  panic : Option Panic

inductive Event where
  | quiet
  /-- `ofile[fd]` of the process is filled. -/
  | stored (p : Nat) (fd : Fd)
  /-- `ofile[fd]` of the process is cleared. -/
  | cleared (p : Nat) (fd : Fd)
  deriving DecidableEq, Repr

/-- What a thread does next. -/
inductive Op where
  | threadCreate (q : Slot)
  | threadExit
  | opens
  | dup (fd : Fd)
  | close (fd : Fd)
  | pipe
  | fork
  | exit
  /-- The next step of the call it is in. -/
  | go
  /-- The `kalloc` of `pipealloc`; whether it succeeds. -/
  | page (ok : Bool)
  /-- `fork` makes the child `RUNNABLE`, on slot `q`. -/
  | publish (q : Slot)
  /-- The section at the end of `exit`, which stops the siblings in `gone`: one that runs on
  another CPU goes on. -/
  | leave (gone : List Slot)
  deriving DecidableEq, Repr

/-- What `fdalloc` returns to when the table is full. -/
def Origin.full (f : FileId) : Origin → Call
  | dup _ => .idle
  | opens => .closing [f]
  | pipeRead wf => .closing [f, wf]
  | pipeWrite rf fd0 => .pipeClear rf f fd0

/-- What it returns to when it has stored `f` in `fd`. -/
def Origin.stored (f : FileId) (fd : Fd) : Origin → Call
  | dup old => .dupRef f old fd
  | opens => .idle
  | pipeRead wf => .fdalloc (.pipeWrite f fd) wf 0
  | pipeWrite _ _ => .idle

namespace State

def setCall (s : State) (t : Slot) (p : Nat) (k : Call) : State :=
  {s with thread := update s.thread t (some (p, k))}

def setRef (s : State) (f : FileId) (n : Nat) : State :=
  {s with ref := update s.ref f n}

def setFile (s : State) (p : Nat) (fd : Fd) (v : Option FileId) : State :=
  {s with ofile := update s.ofile (p, fd) v}

/-- `filealloc`: the first file without a reference. -/
def filealloc (s : State) : Option FileId := Fin.find? fun f => s.ref f = 0

/-- `filedup(f)`, and on as `k`. -/
def filedup (s : State) (t : Slot) (p : Nat) (f : FileId) (k : Call) : State :=
  if s.ref f < 1 then {s with panic := some .filedup}
  else (s.setCall t p k).setRef f (s.ref f + 1)

/-- `fileclose(f)`, as far as the count goes, and on as `k`. -/
def fileclose (s : State) (t : Slot) (p : Nat) (f : FileId) (k : Call) : State :=
  if s.ref f < 1 then {s with panic := some .fileclose}
  else (s.setCall t p k).setRef f (s.ref f - 1)

/-- A call of `filealloc`: on with the file as `k`, or without one as `k'`. -/
def alloc (s : State) (t : Slot) (p : Nat) (k : FileId → Call) (k' : Call) : State :=
  match s.filealloc with
  | some f => (s.setCall t p (k f)).setRef f 1
  | none => s.setCall t p k'

/-- A test of `ofile[fd]`: on with the file found as `k`, or as `null`. -/
def test (s : State) (t : Slot) (p : Nat) (fd : Fd) (k : FileId → Call) (null : Call) : State :=
  match s.ofile (p, fd) with
  | some f => s.setCall t p (k f)
  | none => s.setCall t p null

/-- `ofile[fd]` is read for a function that follows the pointer. -/
def reread (s : State) (t : Slot) (p : Nat) (fd : Fd) (k : FileId → Call) : State :=
  match s.ofile (p, fd) with
  | some f => s.setCall t p (k f)
  | none => {s with panic := some .null}

/-- A round of a loop over `ofile`, at index `i`. -/
def round (s : State) (t : Slot) (p i : Nat) (k : Fd → FileId → Call) (null : Fd → Call) :
    Option State :=
  if h : i < NOFILE then some (s.test t p ⟨i, h⟩ (k ⟨i, h⟩) (null ⟨i, h⟩)) else none

/-- The table of a child, in a page that is zeroed. -/
def forkStart (s : State) (t : Slot) (p : Nat) : State :=
  {s.setCall t p (.forkTest s.next 0) with
    ofile := fun e => if e.1 = s.next then none else s.ofile e
    live := update s.live s.next true
    next := s.next + 1}

def start (s : State) (t : Slot) (p : Nat) : Op → Option (State × Event)
  | .threadCreate q => if s.thread q = none then some (s.setCall q p .idle, .quiet) else none
  | .threadExit => some ({s with thread := update s.thread t none}, .quiet)
  | .opens => some (s.alloc t p (.fdalloc .opens · 0) .idle, .quiet)
  | .dup old => some (s.test t p old (.fdalloc (.dup old) · 0) .idle, .quiet)
  | .close fd => some (s.test t p fd (.closeClear fd) .idle, .quiet)
  | .pipe => some (s.alloc t p .pipeSecond .idle, .quiet)
  | .fork => some (s.forkStart t p, .quiet)
  | .exit => some (s.setCall t p (.exitTest 0), .quiet)
  | .go | .page _ | .publish _ | .leave _ => none

def go (s : State) (t : Slot) (p : Nat) : Call → Option (State × Event)
  | .fdalloc k f i =>
    match s.round t p i (fun _ _ => .fdalloc k f (i + 1)) (.fdstore k f) with
    | some s' => some (s', .quiet)
    | none => some (s.setCall t p (k.full f), .quiet)
  | .fdstore k f fd => some ((s.setCall t p (k.stored f fd)).setFile p fd (some f), .stored p fd)
  | .dupRef f _ _ => some (s.filedup t p f .idle, .quiet)
  | .closeClear fd f => some ((s.setCall t p (.closing [f])).setFile p fd none, .cleared p fd)
  | .closing [] => some (s.setCall t p .idle, .quiet)
  | .closing (f :: fs) => some (s.fileclose t p f (.closing fs), .quiet)
  | .pipeSecond f0 => some (s.alloc t p (.pipePage f0) (.closing [f0]), .quiet)
  | .pipeClear rf wf fd0 =>
    some ((s.setCall t p (.closing [rf, wf])).setFile p fd0 none, .cleared p fd0)
  | .forkTest np i =>
    (s.round t p i (.forkRead np) fun _ => .forkTest np (i + 1)).map fun s' => (s', .quiet)
  | .forkRead np i _ => some (s.reread t p i (.forkDup np i), .quiet)
  | .forkDup np i f => some (s.filedup t p f (.forkStore np i f), .quiet)
  | .forkStore np i f =>
    some ((s.setCall t p (.forkTest np (i + 1))).setFile np i (some f), .stored np i)
  | .exitTest i => (s.round t p i .exitRead fun _ => .exitTest (i + 1)).map fun s' => (s', .quiet)
  | .exitRead i _ => some (s.reread t p i (.exitClose i), .quiet)
  | .exitClose i f => some (s.fileclose t p f (.exitClear i f), .quiet)
  | .exitClear i _ => some ((s.setCall t p (.exitTest (i + 1))).setFile p i none, .cleared p i)
  | .idle | .pipePage _ _ => none

/-- The threads of `p` among `gone`, and `t`, are no more, and the shared data of `p` is
given up. -/
def exited (s : State) (t : Slot) (p : Nat) (gone : List Slot) : State :=
  {s with
    live := update s.live p false
    thread := fun q =>
      if q = t ∨ (q ∈ gone ∧ (s.thread q).map Prod.fst = some p) then none else s.thread q}

def act (s : State) (t : Slot) (p : Nat) (k : Call) : Op → Option (State × Event)
  | .go => s.go t p k
  | .page ok =>
    match k with
    | .pipePage f0 f1 =>
      some (s.setCall t p (if ok then .fdalloc (.pipeRead f1) f0 0 else .closing [f0, f1]), .quiet)
    | _ => none
  | .publish q =>
    match k with
    | .forkTest np i =>
      if NOFILE ≤ i ∧ s.thread q = none then
        some ((s.setCall t p .idle).setCall q np .idle, .quiet)
      else none
    | _ => none
  | .leave gone =>
    match k with
    | .exitTest i => if NOFILE ≤ i then some (s.exited t p gone, .quiet) else none
    | _ => none
  | op => if k = .idle then s.start t p op else none

def step (s : State) (a : Slot × Op) : Option (State × Event) :=
  match s.panic, s.thread a.1 with
  | none, some (p, k) => s.act a.1 p k a.2
  | _, _ => none

def boot : State where
  ref := fun _ => 0
  ofile := fun _ => none
  live := fun p => p = 0
  next := 1
  thread := fun t => if t = 0 then some (0, .idle) else none
  panic := none

end State

/-- A step, with who took it and what it did to a table. -/
def Taken (s : State) (l : (Slot × Op) × Event) (s' : State) : Prop :=
  s.step l.1 = some (s', l.2)

end ThreadKernel.File
