import ThreadKernel.File.Counts

/-! What is behind a descriptor.

The machine of the descriptor tables, together with what a `struct file` says: its type,
its modes and the pipe or the inode it stands for. `sys_open` fills the struct after
`fdalloc` has put it into the table; `read`, `write` and `fstat` take it out of the table
with `argfd`, which counts nothing, and use it until they return; and the `fileclose` that
drops the last reference goes on, without a lock, to close the end of the pipe or to put
the inode.

A pipe is there as long as one of its ends is open. Of an inode there are here the
references that open files have and that calls of `open` and `close` have in hand; the
stores of `sys_open` are one step. -/
namespace ThreadKernel.File

open Function

/-- `FD_NONE`, `FD_PIPE`, `FD_INODE`. -/
inductive FileType where
  | none
  | pipe
  | inode
  deriving DecidableEq, Repr

/-- `struct file` without its count and its offset. -/
structure Desc where
  type : FileType
  readable : Bool
  writable : Bool
  pipe : Option Nat
  ip : Option Nat
  deriving DecidableEq, Repr

/-- What a file keeps open: a reference to an inode, or one end of a pipe. -/
inductive Object where
  | inode (ip : Nat)
  | side (pipe : Nat) (writable : Bool)
  deriving DecidableEq, Repr

def Desc.object (d : Desc) : Option Object :=
  match d.type with
  | .none => none
  | .pipe => d.pipe.map (.side · d.writable)
  | .inode => d.ip.map .inode

/-- `struct pipe`, as far as `pipeclose` goes; `present` until its page is freed. -/
structure Pipe where
  present : Bool
  readopen : Bool
  writeopen : Bool
  deriving DecidableEq, Repr

def Pipe.isOpen (x : Pipe) : Bool → Bool
  | true => x.writeopen
  | false => x.readopen

def Pipe.close (x : Pipe) (writable : Bool) : Pipe :=
  let y : Pipe := if writable then {x with writeopen := false} else {x with readopen := false}
  if y.readopen = false ∧ y.writeopen = false then {y with present := false} else y

inductive Kind where
  | read
  | write
  | fstat
  deriving DecidableEq, Repr

/-- The test after which the call returns -1. -/
def Desc.allows (d : Desc) : Kind → Bool
  | .read => d.readable
  | .write => d.writable
  | .fstat => d.type = .inode

/-- What a thread is in, besides the calls that the machine of the tables knows. -/
inductive Doing where
  | table
  /-- `sys_open` has the descriptor `fd` for `f` and is about to fill `f`. -/
  | fill (fd : Fd) (f : FileId)
  /-- A call has got `f` from `argfd(fd)`; `inside` when it has looked at the type. -/
  | uses (kind : Kind) (fd : Fd) (f : FileId) (inside : Bool)
  /-- The last `fileclose` of a file, or `iunlockput` in `sys_open`. -/
  | release (o : Object)
  deriving DecidableEq, Repr

def Doing.fills (fd : Fd) : Doing → Bool
  | .fill fd' _ => fd' = fd
  | _ => false

def Doing.isUsing (fd : Fd) : Doing → Bool
  | .uses _ fd' _ _ => fd' = fd
  | _ => false

structure Local where
  /-- The inode that `sys_open` has a reference to. -/
  ip : Option Nat
  doing : Doing
  deriving DecidableEq, Repr

def Local.none : Local := ⟨.none, .table⟩

/-- What `argfd` has returned to a call in progress. -/
structure Got where
  f : FileId
  gen : Nat
  desc : Desc
  deriving DecidableEq, Repr

structure Files where
  table : State
  desc : FileId → Desc
  /-- How often the struct has been allocated. -/
  gen : FileId → Nat
  pipe : Nat → Pipe
  nextPipe : Nat
  iref : Nat → Nat
  here : Slot → Local
  got : Slot → Option Got
  /-- Which of `fileread` and `filewrite` has panicked. -/
  panic : Option Kind

inductive Act where
  | table (op : Op)
  /-- `sys_open`, with the reference that `namei` or `create` has returned. -/
  | opens (ip : Nat)
  | fill (omode : Nat)
  | release
  /-- `argfd(fd)` of a call. -/
  | fetch (kind : Kind) (fd : Fd)
  /-- The call looks at the modes and the type. -/
  | access
  | finish
  deriving DecidableEq, Repr

/-- What a step of the table means for the structs. -/
inductive Outcome where
  | nothing
  /-- `pipealloc` has its page. -/
  | piped (f0 f1 : FileId)
  /-- `sys_open` has put `f` into `fd`. -/
  | opened (f : FileId) (fd : Fd)
  /-- A call has closed what it had to; it may be a `sys_open` that has failed. -/
  | finished
  /-- `fileclose(f)` has counted. -/
  | dropped (f : FileId)
  deriving DecidableEq, Repr

namespace Call

def outcome : Call → Op → Outcome
  | pipePage f0 f1, .page true => .piped f0 f1
  | fdstore .opens f fd, .go => .opened f fd
  | closing [], .go => .finished
  | closing (f :: _), .go | exitClose _ f, .go => .dropped f
  | _, _ => .nothing

/-- The file that `dup` and `close` have from `argfd`. -/
def fetched : Call → Option FileId
  | fdalloc (.dup _) f _ | fdstore (.dup _) f _ | dupRef f _ _ | closeClear _ f => some f
  | _ => none

/-- The entry whose file the next step takes. -/
def fetches : Call → Op → Option Fd
  | idle, .dup fd | idle, .close fd => some fd
  | forkTest _ i, .go | exitTest i, .go => if h : i < NOFILE then some ⟨i, h⟩ else none
  | _, _ => none

/-- The entry that the call is about to empty. -/
def drops : Call → Op → Option Fd
  | idle, .close fd => some fd
  | exitTest i, .go => if h : i < NOFILE then some ⟨i, h⟩ else none
  | _, _ => none

/-- The entries that the call may still empty, or that it has filled ahead of the
reference. -/
def transit : Call → List Fd
  | fdalloc (.pipeWrite _ fd0) _ _ | fdstore (.pipeWrite _ fd0) _ _ => [fd0]
  | dupRef _ _ new => [new]
  | closeClear fd _ => [fd]
  | pipeClear _ _ fd0 => [fd0]
  | exitRead i _ | exitClose i _ | exitClear i _ => [i]
  | _ => []

end Call

namespace Files

def setDoing (s : Files) (t : Slot) (d : Doing) : Files :=
  {s with here := update s.here t ⟨(s.here t).ip, d⟩}

/-- The end of `pipealloc`, for which `kalloc` has found a page. -/
def pipealloc (s : Files) (f0 f1 : FileId) : Files :=
  {s with
    desc := update
      (update s.desc f0 ⟨.pipe, true, false, some s.nextPipe, (s.desc f0).ip⟩)
      f1 ⟨.pipe, false, true, some s.nextPipe, (s.desc f1).ip⟩
    pipe := update s.pipe s.nextPipe ⟨true, true, true⟩
    nextPipe := s.nextPipe + 1}

/-- `fileclose(f)` after it has counted. -/
def closed (s : Files) (t : Slot) (f : FileId) : Files :=
  if s.table.ref f = 0 then
    {s.setDoing t ((s.desc f).object.elim (s.here t).doing .release) with
      desc := update s.desc f {s.desc f with type := .none}}
  else s

/-- `sys_open` has failed: `iunlockput(ip)`. -/
def abandon (s : Files) (t : Slot) : Files :=
  {s with
    here := update s.here t
      ((s.here t).ip.elim (s.here t) fun ip => ⟨none, .release (.inode ip)⟩)}

def dropObject (s : Files) : Object → Files
  | .inode ip => {s with iref := update s.iref ip (s.iref ip - 1)}
  | .side i writable => {s with pipe := update s.pipe i ((s.pipe i).close writable)}

/-- What the thread has from `argfd` after a step of the table. -/
def gotAfter (s : Files) (t : Slot) (p : Nat) (k : Call) (op : Op) (table' : State) : Option Got :=
  match k, op with
  | .idle, .dup fd | .idle, .close fd =>
    (s.table.ofile (p, fd)).map fun f => ⟨f, s.gen f, s.desc f⟩
  | _, _ => (s.got t).filter fun x => (table'.thread t).bind (fun y => y.2.fetched) = some x.f

/-- The table has taken a step: a struct whose count was zero and is not has been
allocated, and a thread that is no more has no locals. -/
def setTable (s : Files) (table' : State) : Files :=
  {s with
    table := table'
    gen := fun f => if s.table.ref f = 0 ∧ table'.ref f ≠ 0 then s.gen f + 1 else s.gen f
    here := fun q => if table'.thread q = none then .none else s.here q
    got := fun q => if table'.thread q = none then none else s.got q}

def settle (s : Files) (t : Slot) : Outcome → Files
  | .nothing => s
  | .piped f0 f1 => s.pipealloc f0 f1
  | .opened f fd => s.setDoing t (.fill fd f)
  | .finished => s.abandon t
  | .dropped f => s.closed t f

/-- The step that the table has taken, before its outcome. -/
def moved (s : Files) (t : Slot) (p : Nat) (k : Call) (op : Op) (table' : State) : Files :=
  {s.setTable table' with
    got := update (s.setTable table').got t (s.gotAfter t p k op table')}

def finish (s : Files) (t : Slot) : Files :=
  {s.setDoing t .table with got := update s.got t none}

/-- `fileread`, `filewrite` and `filestat` up to what they do with the pipe or the inode. -/
def access (s : Files) (t : Slot) (kind : Kind) (fd : Fd) (f : FileId) : Files :=
  if (s.desc f).allows kind = false then s.finish t
  else if (s.desc f).type = .none then {s with panic := some kind}
  else s.setDoing t (.uses kind fd f true)

/-- `sys_open` has called `filealloc`; `l` is what it has then. -/
def opening (s : Files) (t : Slot) (ip : Nat) (table' : State) (l : Local) : Files :=
  {s.setTable table' with
    iref := update s.iref ip (s.iref ip + 1)
    here := update (s.setTable table').here t l}

/-- The end of `sys_open`; `O_WRONLY` is 1 and `O_RDWR` is 2. -/
def fill (s : Files) (t : Slot) (f : FileId) (ip omode : Nat) : Files :=
  {s with
    desc := update s.desc f
      ⟨.inode, omode % 2 = 0, omode % 4 ≠ 0, (s.desc f).pipe, some ip⟩
    here := update s.here t .none}

/-- `argfd(fd)` has returned `f`. -/
def fetch (s : Files) (t : Slot) (kind : Kind) (fd : Fd) (f : FileId) : Files :=
  {s.setDoing t (.uses kind fd f false) with
    got := update s.got t (some ⟨f, s.gen f, s.desc f⟩)}

def act (s : Files) (t : Slot) (p : Nat) (k : Call) : Act → Option Files
  | .table op =>
    if (s.here t).doing = .table ∧ op ≠ .opens then
      (s.table.step (t, op)).map fun r => (s.moved t p k op r.1).settle t (k.outcome op)
    else none
  | .opens ip =>
    if s.here t = .none ∧ k = .idle then
      (s.table.step (t, .opens)).map fun r =>
        -- `filealloc` may find no struct
        s.opening t ip r.1 (if r.1.thread t = some (p, .idle) then ⟨none, .release (.inode ip)⟩
          else ⟨some ip, .table⟩)
    else none
  | .fill omode =>
    match s.here t with
    | ⟨some ip, .fill _ f⟩ => some (s.fill t f ip omode)
    | _ => none
  | .release =>
    match (s.here t).doing with
    | .release o => some ((s.dropObject o).setDoing t .table)
    | _ => none
  | .fetch kind fd =>
    if s.here t = .none ∧ k = .idle then
      match s.table.ofile (p, fd) with
      | some f => some (s.fetch t kind fd f)
      | none => some s
    else none
  | .access =>
    match (s.here t).doing with
    | .uses kind fd f false => some (s.access t kind fd f)
    | _ => none
  | .finish =>
    match (s.here t).doing with
    | .uses _ _ _ true => some (s.finish t)
    | _ => none

def step (s : Files) (a : Slot × Act) : Option Files :=
  match s.panic, s.table.panic, s.table.thread a.1 with
  | none, none, some (p, k) => s.act a.1 p k a.2
  | _, _, _ => none

def boot : Files where
  table := State.boot
  desc := fun _ => ⟨.none, false, false, none, none⟩
  gen := fun _ => 0
  pipe := fun _ => ⟨false, false, false⟩
  nextPipe := 0
  iref := fun _ => 0
  here := fun _ => .none
  got := fun _ => none
  panic := none

def Step (s : Files) (a : Slot × Act) (s' : Files) : Prop := s.step a = some s'

/-! ### What keeps a file open -/

/-- Another thread of `p` is filling the struct in `fd`. -/
def Filled (s : Files) (t : Slot) (p : Nat) (fd : Fd) : Prop :=
  ∃ q, (s.table.world.sibling t p q).isSome ∧ (s.here q).doing.fills fd

/-- Another thread of `p` uses the file it has got from `fd`. -/
def InUse (s : Files) (t : Slot) (p : Nat) (fd : Fd) : Prop :=
  ∃ q, (s.table.world.sibling t p q).isSome ∧ (s.here q).doing.isUsing fd

/-- No call takes a file out of an entry whose struct a sibling is filling; `close` and
`exit` do not take one that a sibling is using; the other calls do not take one out of an
entry that a sibling is about to empty; and the tables are undisturbed. -/
def Quiet (s : Files) (a : Slot × Act) : Prop :=
  match s.table.thread a.1, a.2 with
  | some (p, k), .table op =>
    s.table.Undisturbed ((a.1, op), .quiet) ∧
      (∀ fd ∈ k.fetches op, ¬ s.Filled a.1 p fd) ∧ ∀ fd ∈ k.drops op, ¬ s.InUse a.1 p fd
  | some (p, _), .fetch _ fd =>
    ¬ s.Filled a.1 p fd ∧ ∀ q, ∀ k ∈ s.table.world.sibling a.1 p q, fd ∉ k.transit
  | _, _ => True

instance (s : Files) (t : Slot) (p : Nat) (fd : Fd) : Decidable (s.Filled t p fd) :=
  inferInstanceAs (Decidable (∃ _, _ ∧ _))

instance (s : Files) (t : Slot) (p : Nat) (fd : Fd) : Decidable (s.InUse t p fd) :=
  inferInstanceAs (Decidable (∃ _, _ ∧ _))

instance (s : Files) (a : Slot × Act) : Decidable (s.Quiet a) := by
  unfold Quiet
  split <;> infer_instance

end Files

end ThreadKernel.File
