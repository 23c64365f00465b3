import ThreadKernel.Library.Linked
import ThreadKernel.Library.Run

/-! The queue of the disk driver.

`iderw` up to `sleep`, a check of the flags after it, and `ideintr` are sections of `idelock`,
and each is a step; so are the drive's completion of the command it was given, and what the
holder of a buffer's sleep lock and `bget` do to a buffer. The drive completes one command at
a time, without errors, and interrupts when it has; it is not told which buffer a command is
for. The queue is linked through `qnext`. A step that panics is not taken. -/
namespace ThreadKernel.Ide

open Lts Linked Function

abbrev FSSIZE : Nat := 1000
abbrev BSIZE : Nat := 512
abbrev SECTOR_SIZE : Nat := 512

structure Buf (D : Type) where
  /-- `B_VALID` -/
  valid : Bool
  /-- `B_DIRTY` -/
  dirty : Bool
  dev : Nat
  blockno : Nat
  data : D
  deriving DecidableEq, Repr

/-- What the drive is told: the number of sectors, the bytes of the sector number, the one
with the drive in it, and the data of a write. -/
structure Command (D : Type) where
  count : Nat
  lba0 : Nat
  lba1 : Nat
  lba2 : Nat
  select : Nat
  out : Option D
  deriving DecidableEq, Repr

/-- The drive and the sector that a command is for. -/
def Command.loc {D : Type} (c : Command D) : Nat × Nat :=
  ((c.select >>> 4) &&& 1,
    c.lba0 + 2 ^ 8 * c.lba1 + 2 ^ 16 * c.lba2 + 2 ^ 24 * (c.select &&& 0x0f))

/-- The `outb`s of `idestart`. -/
def Buf.command {D : Type} (b : Buf D) : Command D :=
  let sector_per_block := BSIZE / SECTOR_SIZE
  let sector := b.blockno * sector_per_block
  { count := sector_per_block
    lba0 := sector &&& 0xff
    lba1 := (sector >>> 8) &&& 0xff
    lba2 := (sector >>> 16) &&& 0xff
    select := 0xe0 ||| ((b.dev &&& 1) <<< 4) ||| ((sector >>> 24) &&& 0x0f)
    out := if b.dirty then some b.data else none }

/-- The condition of the loop of `iderw`, negated. -/
def Buf.synced {D : Type} (b : Buf D) : Bool := b.valid && !b.dirty

inductive Drive (D : Type) where
  | idle
  | busy (c : Command D)
  /-- The command is done, with the data that went over, and the interrupt is to come. -/
  | ready (c : Command D) (data : D)
  deriving DecidableEq, Repr

/-- `calls` has the buffer of the `iderw` that a task is in. -/
structure State (B T D : Type) where
  buf : B → Buf D
  lock : B → Option T
  qnext : B → Option B
  idequeue : Option B
  drive : Drive D
  disk : Nat × Nat → D
  calls : T → Option B

inductive Event (B T D : Type) where
  /-- `iderw(b)` has queued `b`, for this command, and started it or not. -/
  | call (t : T) (b : B) (c : Command D) (started : Bool)
  /-- The drive has moved the data; the head of the queue at that time. -/
  | transfer (head : Option B) (c : Command D) (data : D)
  /-- `ideintr` has finished a request, and started the next. -/
  | intr (done : Option B) (next : Option B)
  /-- `iderw(b)` returns. -/
  | ret (t : T) (b : B)
  | other
  deriving DecidableEq, Repr

inductive Action (B T D : Type) where
  | iderw (t : T) (b : B)
  /-- `sleep` returns to a task in `iderw`. -/
  | wake (t : T)
  | complete
  | ideintr
  | acquiresleep (t : T) (b : B)
  | releasesleep (t : T) (b : B)
  /-- The holder of the lock changes the data and the flags. -/
  | modify (t : T) (b : B) (valid dirty : Bool) (data : D)
  /-- `bget` takes a buffer that is not locked for another block. -/
  | bget (b : B) (dev blockno : Nat)

section
variable {B T D : Type} [Fintype B] [DecidableEq B] [DecidableEq T]

namespace State

def setBuf (s : State B T D) (b : B) (x : Buf D) : State B T D :=
  {s with buf := update s.buf b x}

/-- `none` is a panic, or `idewait` that waits for the drive. -/
def idestart (s : State B T D) (b : B) : Option (State B T D) :=
  if FSSIZE ≤ (s.buf b).blockno then none
  else
    match s.drive with
    | .busy _ => none
    | _ => some {s with drive := .busy (s.buf b).command}

def iderw (havedisk1 : Bool) (s : State B T D) (t : T) (b : B) :
    Option (State B T D × Event B T D) :=
  let x := s.buf b
  if s.lock b ≠ some t ∨ x.synced ∨ (x.dev ≠ 0 ∧ havedisk1 = false) then none
  else
    match Linked.append s.qnext s.idequeue (Fintype.card B) b with
    | none => none
    | some (qnext, head) =>
      let s := {s with
        qnext := qnext, idequeue := head, calls := update s.calls t (some b)}
      if head = some b then (s.idestart b).map fun s => (s, .call t b x.command true)
      else some (s, .call t b x.command false)

def ideintr (s : State B T D) (insl : D) : Option (State B T D × Event B T D) :=
  match s.idequeue with
  | none => some (s, .intr none none)
  | some b =>
    let x := s.buf b
    let s := {s with idequeue := s.qnext b}.setBuf b
      {x with data := if x.dirty then x.data else insl, valid := true, dirty := false}
    match s.idequeue with
    | none => some (s, .intr (some b) none)
    | some next => (s.idestart next).map fun s => (s, .intr (some b) (some next))

/-- The drive does what it was told. -/
def complete (s : State B T D) (c : Command D) : State B T D × Event B T D :=
  match c.out with
  | some d =>
    ({s with drive := .ready c d, disk := update s.disk c.loc d}, .transfer s.idequeue c d)
  | none => ({s with drive := .ready c (s.disk c.loc)}, .transfer s.idequeue c (s.disk c.loc))

def step (havedisk1 : Bool) (s : State B T D) : Action B T D → Option (State B T D × Event B T D)
  | .iderw t b => if s.calls t = none then s.iderw havedisk1 t b else none
  | .wake t =>
    match s.calls t with
    | none => none
    | some b =>
      if (s.buf b).synced then
        some ({s with calls := update s.calls t none}, .ret t b)
      else some (s, .other)
  | .complete =>
    match s.drive with
    | .busy c => some (s.complete c)
    | _ => none
  | .ideintr =>
    match s.drive with
    | .ready _ data => {s with drive := .idle}.ideintr data
    | _ => none
  | .acquiresleep t b =>
    if s.calls t = none ∧ s.lock b = none then
      some ({s with lock := update s.lock b (some t)}, .other)
    else none
  | .releasesleep t b =>
    if s.calls t = none ∧ s.lock b = some t then
      some ({s with lock := update s.lock b none}, .other)
    else none
  | .modify t b valid dirty data =>
    if s.calls t = none ∧ s.lock b = some t then
      some (s.setBuf b {s.buf b with valid := valid, dirty := dirty, data := data}, .other)
    else none
  | .bget b dev blockno =>
    if s.lock b = none then
      some (s.setBuf b
        {s.buf b with dev := dev, blockno := blockno, valid := false, dirty := false}, .other)
    else none

def Step (havedisk1 : Bool) (s : State B T D) (e : Event B T D) (s' : State B T D) : Prop :=
  ∃ a, s.step havedisk1 a = some (s', e)

end State

/-- Nothing is queued, and nobody has a lock. -/
def start (buf : B → Buf D) (qnext : B → Option B) (disk : Nat × Nat → D) : State B T D :=
  ⟨buf, fun _ => none, qnext, none, .idle, disk, fun _ => none⟩

/-! ### What has been queued, started and finished -/

section
variable {B T D : Type}

def Event.queued : Event B T D → List B
  | .call _ b _ _ => [b]
  | _ => []

def Event.started : Event B T D → List B
  | .call _ b _ started => if started then [b] else []
  | .intr _ next => next.toList
  | _ => []

def Event.completed : Event B T D → List B
  | .intr done _ => done.toList
  | _ => []

/-- What the events of a history have, oldest first. -/
def collect (f : Event B T D → List B) : List (Event B T D) → List B
  | [] => []
  | e :: h => collect f h ++ f e

end

/-- `iderw(b)` has been called, and `ideintr` has not finished its request. -/
def unfinished (b : B) : List (Event B T D) → Bool
  | [] => false
  | .call _ b' _ _ :: h => b' = b || unfinished b h
  | .intr done _ :: h => done ≠ some b && unfinished b h
  | _ :: h => unfinished b h

/-- The last call for `b`. -/
def request (b : B) : List (Event B T D) → Option (T × Command D)
  | [] => none
  | .call t b' c _ :: h => if b' = b then some (t, c) else request b h
  | _ :: h => request b h

/-- What the drive has moved for `b` since the last call for it. -/
def transferred (b : B) : List (Event B T D) → Option (Command D × D)
  | [] => none
  | .call _ b' _ _ :: h => if b' = b then none else transferred b h
  | .transfer head c d :: h => if head = some b then some (c, d) else transferred b h
  | _ :: h => transferred b h

end

end ThreadKernel.Ide
