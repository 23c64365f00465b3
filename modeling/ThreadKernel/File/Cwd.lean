import ThreadKernel.Proc.State
import ThreadKernel.Library.Run
import ThreadKernel.Library.Sharing

/-! The current directory, statement by statement.

`sharePtr->cwd` is shared by the threads of a process. `sys_chdir` puts the old directory
and stores the new one only after `end_op`, `exit` puts it and clears it after `end_op`,
and `namex` and `fork` read it and then take a reference; nothing locks it. A step is one
access to `cwd`, or one section of `icache.lock`; between any two of them other threads
may run.

Of an inode there is its place in the cache, its number and its count. What is on the disk
is not here: which number a path element has, and whether an inode is a directory, is told
to a step. -/
namespace ThreadKernel.Cwd

open Refcount Lts Function

abbrev NINODE : Nat := 50
abbrev ROOTINO : Nat := 1

abbrev Inode := Fin NINODE

instance : NeZero NINODE := ⟨by decide⟩

/-- Who has called `namex`: `sys_chdir`, or a call that puts the inode it gets. -/
inductive Purpose where
  | chdir
  | other
  deriving DecidableEq, Repr

/-- Where a thread stands. -/
inductive Call where
  | idle
  /-- `namex` has read `cwd` and is about to call `idup`. -/
  | nameDup (k : Purpose) (old : Inode)
  /-- The loop of `namex`, at its head. -/
  | walk (k : Purpose) (ip : Inode)
  /-- About to call `iput(ip)`, and then on with `next`, or to return. -/
  | walkPut (k : Purpose) (ip : Inode) (next : Option Inode)
  /-- `sys_chdir` has found `ip` and is about to lock it. -/
  | chdirCheck (ip : Inode)
  /-- About to read `cwd` for `iput`. -/
  | chdirRead (ip : Inode)
  | chdirPut (ip old : Inode)
  /-- About to store `ip` in `cwd`. -/
  | chdirStore (ip old : Inode)
  /-- `fork` has read `cwd` and is about to call `idup`; the child is `np`. -/
  | forkDup (np : Nat) (old : Inode)
  | forkStore (np : Nat) (old : Inode)
  /-- About to make the child `RUNNABLE`. -/
  | forkPublish (np : Nat)
  /-- `exit` has read `cwd` and is in `iput`. -/
  | exitPut (old : Inode)
  /-- About to clear `cwd`. -/
  | exitStore (old : Inode)
  /-- About to take `ptable.lock`, never to return. -/
  | exitLeave
  deriving DecidableEq, Repr

inductive Fault where
  /-- No panic: a null `struct inode *` is followed. -/
  | null
  /-- No panic: the count of an inode that has no reference is decremented. -/
  | under
  | ilock
  /-- `iget: no inodes` -/
  | iget
  deriving DecidableEq, Repr

structure State where
  ref : Inode → Nat
  inum : Inode → Nat
  cwd : Nat → Option Inode
  live : Nat → Bool
  next : Nat
  /-- The threads that run: their process, and where they stand. -/
  thread : Slot → Option (Nat × Call)
  fault : Option Fault

inductive Event where
  | quiet
  /-- `cwd` of the process gets `ip`. -/
  | set (p : Nat) (ip : Inode)
  /-- `iput(cwd)` for the process. -/
  | put (p : Nat) (ip : Inode)
  deriving DecidableEq, Repr

/-- What a thread does next. -/
inductive Op where
  | threadCreate (q : Slot)
  | threadExit
  /-- A call that looks up a path, which may start with `/`. -/
  | name (k : Purpose) (absolute : Bool)
  /-- The next element of the path has this number. -/
  | elem (inum : Nat)
  /-- `ip` is no directory, or the element is not in it. -/
  | miss
  /-- The path is at its end. -/
  | last
  /-- Whether what `sys_chdir` has found is a directory. -/
  | dir (ok : Bool)
  | fork
  | exit
  /-- The next step of the call it is in. -/
  | go
  /-- `fork` makes the child `RUNNABLE`, on slot `q`. -/
  | publish (q : Slot)
  /-- The section at the end of `exit`, which stops the siblings in `gone`. -/
  | leave (gone : List Slot)
  deriving DecidableEq, Repr

namespace State

def setCall (s : State) (t : Slot) (p : Nat) (k : Call) : State :=
  {s with thread := update s.thread t (some (p, k))}

def setRef (s : State) (ip : Inode) (n : Nat) : State :=
  {s with ref := update s.ref ip n}

def setCwd (s : State) (p : Nat) (v : Option Inode) : State :=
  {s with cwd := update s.cwd p v}

/-- `iget`: an inode that is cached, or a cache entry that nobody uses. -/
def iget (s : State) (t : Slot) (p n : Nat) (k : Inode → Call) : State :=
  match Fin.find? fun ip => 0 < s.ref ip ∧ s.inum ip = n with
  | some ip => (s.setCall t p (k ip)).setRef ip (s.ref ip + 1)
  | none =>
    match Fin.find? fun ip => s.ref ip = 0 with
    | some ip => {(s.setCall t p (k ip)).setRef ip 1 with inum := update s.inum ip n}
    | none => {s with fault := some .iget}

def idup (s : State) (t : Slot) (p : Nat) (ip : Inode) (k : Call) : State :=
  (s.setCall t p k).setRef ip (s.ref ip + 1)

/-- `iput`, as far as the count goes. -/
def iput (s : State) (t : Slot) (p : Nat) (ip : Inode) (k : Call) : State :=
  if s.ref ip = 0 then {s with fault := some .under}
  else (s.setCall t p k).setRef ip (s.ref ip - 1)

/-- `cwd` is read for a function that follows the pointer. -/
def readCwd (s : State) (t : Slot) (p : Nat) (k : Inode → Call) : State :=
  match s.cwd p with
  | some ip => s.setCall t p (k ip)
  | none => {s with fault := some .null}

/-- `ilock(ip)` first. -/
def ilock (s : State) (ip : Inode) (s' : State) : State :=
  if s.ref ip < 1 then {s with fault := some .ilock} else s'

/-- The shared data of a child, in a page that is zeroed, and the read of `cwd`. -/
def forkStart (s : State) (t : Slot) (p : Nat) : State :=
  match s.cwd p with
  | some ip =>
    {s.setCall t p (.forkDup s.next ip) with
      cwd := update s.cwd s.next none
      live := update s.live s.next true
      next := s.next + 1}
  | none => {s with fault := some .null}

/-- The threads of `p` among `gone`, and `t`, are no more, and the shared data of `p` is
given up. -/
def exited (s : State) (t : Slot) (p : Nat) (gone : List Slot) : State :=
  {s with
    live := update s.live p false
    thread := fun q =>
      if q = t ∨ (q ∈ gone ∧ (s.thread q).map Prod.fst = some p) then none else s.thread q}

/-- The next step of a call that needs not be told anything. -/
def go (s : State) (t : Slot) (p : Nat) : Call → Option (State × Event)
  | .nameDup k old => some (s.idup t p old (.walk k old), .quiet)
  | .walkPut k ip (some next) => some (s.iput t p ip (.walk k next), .quiet)
  | .walkPut _ ip none => some (s.iput t p ip .idle, .quiet)
  | .chdirRead ip => some (s.readCwd t p (.chdirPut ip), .quiet)
  | .chdirPut ip old => some (s.iput t p old (.chdirStore ip old), .put p old)
  | .chdirStore ip _ => some ((s.setCall t p .idle).setCwd p (some ip), .set p ip)
  | .forkDup np old => some (s.idup t p old (.forkStore np old), .quiet)
  | .forkStore np old => some ((s.setCall t p (.forkPublish np)).setCwd np (some old), .set np old)
  | .exitPut old => some (s.iput t p old (.exitStore old), .put p old)
  | .exitStore _ => some ((s.setCall t p .exitLeave).setCwd p none, .quiet)
  | .idle | .walk _ _ | .chdirCheck _ | .forkPublish _ | .exitLeave => none

def start (s : State) (t : Slot) (p : Nat) : Op → Option (State × Event)
  | .threadCreate q => if s.thread q = none then some (s.setCall q p .idle, .quiet) else none
  | .threadExit => some ({s with thread := update s.thread t none}, .quiet)
  | .name k true => some (s.iget t p ROOTINO (.walk k), .quiet)
  | .name k false => some (s.readCwd t p (.nameDup k), .quiet)
  | .fork => some (s.forkStart t p, .quiet)
  | .exit => some (s.readCwd t p .exitPut, .quiet)
  | _ => none

/-- A round of the loop of `namex`, or what follows it. -/
def lookup (s : State) (t : Slot) (p : Nat) (k : Purpose) (ip : Inode) : Op → Option State
  | .elem n => some (s.ilock ip (s.iget t p n fun next => .walkPut k ip (some next)))
  | .miss => some (s.ilock ip (s.setCall t p (.walkPut k ip none)))
  | .last =>
    match k with
    | .chdir => some (s.setCall t p (.chdirCheck ip))
    | .other => some (s.setCall t p (.walkPut .other ip none))
  | _ => none

def act (s : State) (t : Slot) (p : Nat) (k : Call) (op : Op) : Option (State × Event) :=
  match k with
  | .idle => s.start t p op
  | .walk k ip => (s.lookup t p k ip op).map fun s' => (s', .quiet)
  | .chdirCheck ip =>
    match op with
    | .dir true => some (s.ilock ip (s.setCall t p (.chdirRead ip)), .quiet)
    | .dir false => some (s.ilock ip (s.setCall t p (.walkPut .chdir ip none)), .quiet)
    | _ => none
  | .forkPublish np =>
    match op with
    | .publish q =>
      if s.thread q = none then some ((s.setCall t p .idle).setCall q np .idle, .quiet) else none
    | _ => none
  | .exitLeave =>
    match op with
    | .leave gone => some (s.exited t p gone, .quiet)
    | _ => none
  | k => if op = .go then s.go t p k else none

def step (s : State) (a : Slot × Op) : Option (State × Event) :=
  match s.fault, s.thread a.1 with
  | none, some (p, k) => s.act a.1 p k a.2
  | _, _ => none

/-- One process with one thread, in the root directory. -/
def boot : State where
  ref := fun ip => if ip = 0 then 1 else 0
  inum := fun ip => if ip = 0 then ROOTINO else 0
  cwd := fun p => if p = 0 then some 0 else none
  live := fun p => p = 0
  next := 1
  thread := fun t => if t = 0 then some (0, .idle) else none
  fault := none

end State

/-- A step, with who took it and what it did to a `cwd`. -/
def Taken (s : State) (l : (Slot × Op) × Event) (s' : State) : Prop :=
  s.step l.1 = some (s', l.2)

/-! ### What a call has in hand -/

namespace Call

/-- What a call has read in `cwd` and still relies on. -/
def seen : Call → List (Unit × Option Inode)
  | nameDup _ old | chdirPut _ old | chdirStore _ old | forkDup _ old | exitPut old | exitStore old =>
    [((), some old)]
  | _ => []

/-- The directory has been put, and `cwd` still points at it. -/
def gap : Call → Option Unit
  | chdirStore _ _ | exitStore _ => some ()
  | _ => none

/-- The references a call has obtained and not yet stored or put. -/
def refs : Call → List Inode
  | walk _ ip | chdirCheck ip | chdirRead ip | chdirPut ip _ | chdirStore ip _ => [ip]
  | walkPut _ ip next => ip :: next.toList
  | forkStore _ old => [old]
  | _ => []

def child : Call → Option Nat
  | forkDup np _ | forkStore np _ | forkPublish np => some np
  | _ => none

def todo : Call → Unit → Prop
  | forkPublish _, _ => False
  | _, _ => True

/-- Whether the next step reads `cwd`. -/
def reads : Call → Op → Bool
  | idle, .name _ false | idle, .fork | idle, .exit | chdirRead _, .go => true
  | _, _ => false

/-- Whether the next step is that of `exit` which clears `cwd`. -/
def clears : Call → Bool
  | exitStore _ => true
  | _ => false

end Call

def script : Script Call Inode Unit where
  seen := Call.seen
  gap := Call.gap
  refs := Call.refs
  child := Call.child
  todo := Call.todo
  apt := fun _ => True

namespace State

def world (s : State) : World Call Inode Unit Slot :=
  ⟨s.ref, fun e => s.cwd e.1, s.live, s.next, s.thread⟩

/-- A call reads `cwd` only when no call of a sibling relies on it, and `exit` clears it only
when there are no siblings. -/
def Undisturbed (s : State) (l : (Slot × Op) × Event) : Prop :=
  match s.thread l.1.1 with
  | some (p, k) => (k.reads l.1.2 = true → s.world.Alone script l.1.1 p ()) ∧
      (k.clears = true → ∀ q, s.world.sibling l.1.1 p q = none)
  | none => True

instance (s : State) (l : (Slot × Op) × Event) : Decidable (s.Undisturbed l) := by
  unfold Undisturbed
  split <;> infer_instance

end State

end ThreadKernel.Cwd
