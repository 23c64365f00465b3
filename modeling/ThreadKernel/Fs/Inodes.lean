import ThreadKernel.Proc.State
import ThreadKernel.Library.Interleave

/-! Inodes, their cache and their locks, one operation at a time.

An inode is its type, its link count and, for a directory, its entries; what is in a file
is not here. The cache is by inode number: `iget` never makes a second entry for one
number. The copy in the cache and the one on the disk are one here: every change is made
under the lock of the inode, and `iupdate` follows it before the lock is given up.

An operation is one section of a spin lock, or what is done to a locked inode between two
such sections. `acquiresleep` is two: the lock is asked for, and it is got when it is free.
Of a thread the state has what it waits for, whether it relies on what it has read in
`cwd`, and which inode it has unlocked in `iput` and not yet counted down. -/
namespace ThreadKernel.Fs

open Interleave Function

abbrev NINODES : Nat := 200
abbrev NINODE : Nat := 50

abbrev Inum := Fin NINODES

instance : NeZero NINODES := ⟨by decide⟩

abbrev ROOTINO : Inum := 1

/-- How many entries a directory of `MAXFILE` blocks has. -/
abbrev MAXENTRIES : Nat := 4480

/-- The number of a `sharedData`. -/
abbrev Share := Fin NPROC

/-- A path element, cut to `DIRSIZ` bytes. -/
inductive Name where
  | dot
  | dotdot
  | plain (n : Nat)
  deriving DecidableEq, Repr

def Name.isPlain : Name → Bool
  | .plain _ => true
  | .dot | .dotdot => false

/-- `T_DIR`, `T_FILE`, `T_DEV`. -/
inductive Kind where
  | dir
  | file
  | dev
  deriving DecidableEq, Repr

structure Dirent where
  name : Name
  inum : Inum
  deriving DecidableEq, Repr

structure Dinode where
  type : Option Kind
  nlink : Nat
  dirents : List Dirent
  deriving DecidableEq, Repr

/-- The loop of `dirlookup`: the offset and the number of the first entry with the name. -/
def scan (name : Name) : List Dirent → Option (Nat × Inum)
  | [] => none
  | e :: es =>
    if e.inum ≠ 0 ∧ e.name = name then some (0, e.inum)
    else (scan name es).map fun r => (r.1 + 1, r.2)

namespace Dinode

/-- The loop of `dirlink`. -/
def emptySlot (x : Dinode) : Nat := x.dirents.findIdx fun e => e.inum = 0

/-- `writei` of one entry, inside the directory or right after it. -/
def setDirent (x : Dinode) (off : Nat) (e : Dirent) : Dinode :=
  {x with dirents := if off < x.dirents.length then x.dirents.set off e else x.dirents ++ [e]}

/-- `isdirempty` -/
def isEmpty (x : Dinode) : Bool := (x.dirents.drop 2).all fun e => e.inum = 0

end Dinode

/-- Who calls `acquiresleep` and `releasesleep`: `ilock` and `iunlock`, or `iput`. -/
inductive Site where
  | ilock
  | iput
  deriving DecidableEq, Repr

inductive Panic where
  /-- `iget: no inodes` -/
  | iget
  | ilock
  /-- `ilock: no type` -/
  | noType
  | iunlock
  /-- `dirlookup not DIR` -/
  | dirlookup
  | dirlink
  /-- `ialloc: no inodes` -/
  | ialloc
  /-- `unlink: nlink < 1` -/
  | unlink
  /-- `create dots` -/
  | dots
  /-- `create: dirlink` -/
  | create
  /-- A trap in the kernel: `cwd` is null. -/
  | null
  deriving DecidableEq, Repr

structure State where
  inode : Inum → Dinode
  /-- When the inode was allocated. -/
  born : Inum → Nat
  clock : Nat
  ref : Inum → Nat
  valid : Inum → Bool
  lock : Inum → Option Slot
  /-- The lock that a thread is in `acquiresleep` for. -/
  wants : Slot → Option (Inum × Site)
  /-- The inode that `iput` has unlocked and not yet counted down. -/
  leaving : Slot → Option Inum
  /-- The process of a thread. -/
  owner : Slot → Option Share
  cwd : Share → Option Inum
  /-- Whether the thread relies on what it has read in `cwd`. -/
  reading : Slot → Bool
  /-- The inodes of the open files. -/
  opened : List Inum
  panic : Option Panic

inductive Op where
  | readCwd
  | idup (ip : Inum)
  | setCwd (v : Option Inum)
  | iget (inum : Inum)
  | request (site : Site) (ip : Inum)
  | grant (ip : Inum)
  /-- `ilock` reads the inode unless it is valid. -/
  | load (ip : Inum)
  | stat (ip : Inum)
  /-- `ip->valid && ip->nlink == 0` -/
  | unlinked (ip : Inum)
  | readRef (ip : Inum)
  /-- `itrunc`, `ip->type = 0`, `iupdate`, `ip->valid = 0`. -/
  | free (ip : Inum)
  | release (site : Site) (ip : Inum)
  | decRef (ip : Inum)
  | nlinkInit (ip : Inum)
  | nlinkIncr (ip : Inum)
  | nlinkDecr (ip : Inum)
  | writei (dp : Inum) (off : Nat) (e : Dirent)
  /-- One round of the loop of `ialloc`. -/
  | tryAlloc (inum : Inum) (kind : Kind)
  /-- `f->ip = ip` in `sys_open`. -/
  | openFile (ip : Inum)
  /-- The last `fileclose` of a file. -/
  | closeFile (ip : Inum)
  /-- `fork` has the `cwd` of the child, which gets slot `q`. -/
  | fork (np : Share) (q : Slot) (ip : Inum)
  | spawn (q : Slot)
  | leave
  deriving DecidableEq, Repr

@[reducible]
def Op.Ans : Op → Type
  | readCwd => Option Inum
  | iget _ | request _ _ | load _ | unlinked _ | release _ _ | tryAlloc _ _ | closeFile _ => Bool
  | stat _ => Dinode
  | readRef _ => Nat
  | idup _ | setCwd _ | grant _ | free _ | decRef _ | nlinkInit _ | nlinkIncr _ | nlinkDecr _
  | writei _ _ _ | openFile _ | fork _ _ _ | spawn _ | leave => Unit

namespace State

def setInode (s : State) (i : Inum) (x : Dinode) : State :=
  {s with inode := update s.inode i x}

def setNlink (s : State) (i : Inum) (n : Nat) : State := s.setInode i {s.inode i with nlink := n}

def setRef (s : State) (i : Inum) (n : Nat) : State := {s with ref := update s.ref i n}

def setLock (s : State) (i : Inum) (v : Option Slot) : State :=
  {s with lock := update s.lock i v}

def setReading (s : State) (t : Slot) (b : Bool) : State :=
  {s with reading := update s.reading t b}

/-- How many entries of the cache are in use. -/
def cached (s : State) : Nat := (List.finRange NINODES).countP fun i => 0 < s.ref i

/-- An entry that is in use gets a reference; one that is not is recycled. -/
def iget (s : State) (i : Inum) : State :=
  if s.ref i = 0 then {s.setRef i 1 with valid := update s.valid i false}
  else s.setRef i (s.ref i + 1)

def request (s : State) (t : Slot) (site : Site) (i : Inum) : State :=
  {s with wants := update s.wants t (some (i, site))}

def grant (s : State) (t : Slot) (i : Inum) : State :=
  {s.setLock i (some t) with wants := update s.wants t none}

/-- `itrunc` has emptied the inode. -/
def free (s : State) (i : Inum) : State :=
  {s.setInode i ⟨none, (s.inode i).nlink, []⟩ with valid := update s.valid i false}

/-- `releasesleep` of `iput`. -/
def iputRelease (s : State) (t : Slot) (i : Inum) : State :=
  {s.setLock i none with leaving := update s.leaving t (some i)}

def decRef (s : State) (t : Slot) (i : Inum) : State :=
  {s.setRef i (s.ref i - 1) with leaving := update s.leaving t none}

/-- `memset(dip, 0, sizeof(*dip))`, `dip->type = type`. -/
def ialloc (s : State) (i : Inum) (kind : Kind) : State :=
  {s.setInode i ⟨some kind, 0, []⟩ with
    born := update s.born i s.clock
    clock := s.clock + 1}

def run (s : State) (t : Slot) : (o : Op) → Option (o.Ans × State)
  | .readCwd => (s.owner t).map fun p => (s.cwd p, s.setReading t true)
  | .idup ip => some ((), (s.setRef ip (s.ref ip + 1)).setReading t false)
  | .setCwd v => (s.owner t).map fun p =>
    ((), {s.setReading t false with cwd := update s.cwd p v})
  | .iget i => if 0 < s.ref i ∨ s.cached < NINODE then some (true, s.iget i) else some (false, s)
  | .request site i =>
    -- `ilock` panics when the inode has no reference
    if site = .ilock ∧ s.ref i < 1 then some (false, s) else some (true, s.request t site i)
  | .grant i => if s.lock i = none then some ((), s.grant t i) else none
  | .load i =>
    some (s.valid i || (s.inode i).type.isSome, {s with valid := update s.valid i true})
  | .stat i => some (s.inode i, s)
  | .unlinked i => some (s.valid i && (s.inode i).nlink == 0, s)
  | .readRef i => some (s.ref i, s)
  | .free i => some ((), s.free i)
  | .release .ilock i =>
    if s.lock i = some t ∧ 1 ≤ s.ref i then some (true, s.setLock i none) else some (false, s)
  | .release .iput i => some (true, s.iputRelease t i)
  | .decRef i => some ((), s.decRef t i)
  | .nlinkInit i => some ((), s.setNlink i 1)
  | .nlinkIncr i => some ((), s.setNlink i ((s.inode i).nlink + 1))
  | .nlinkDecr i => some ((), s.setNlink i ((s.inode i).nlink - 1))
  | .writei d off e => some ((), s.setInode d ((s.inode d).setDirent off e))
  | .tryAlloc i kind =>
    if (s.inode i).type = none then some (true, s.ialloc i kind) else some (false, s)
  | .openFile i => some ((), {s with opened := i :: s.opened})
  | .closeFile i =>
    if i ∈ s.opened then some (true, {s with opened := s.opened.erase i}) else some (false, s)
  | .fork np q i =>
    if s.cwd np = none ∧ (∀ r, s.owner r ≠ some np) ∧ s.owner q = none then
      some ((), {s with
        cwd := update s.cwd np (some i)
        owner := update s.owner q (some np)})
    else none
  | .spawn q =>
    if s.owner q = none then some ((), {s with owner := update s.owner q (s.owner t)})
    else none
  | .leave => some ((), {s with owner := update s.owner t none})

/-- A panic stops every thread. -/
def exec (t : Slot) (o : Op) (s : State) : Option (o.Ans × State) :=
  if s.panic = none then s.run t o else none

def halt (w : Panic) (s : State) : Option State :=
  if s.panic = none then some {s with panic := some w} else none

end State

/-! ### The functions of `fs.c` -/

abbrev Code := Prog Op Op.Ans Panic

def panic {α : Type} (w : Panic) : Code α := .halt w

def act (o : Op) : Code o.Ans := .perform o

def stat (ip : Inum) : Code Dinode := act (.stat ip)

def readCwd : Code (Option Inum) := act .readCwd

def iget (inum : Inum) : Code Unit := do
  let found : Bool ← act (.iget inum)
  if found then pure () else panic .iget

def ilock (ip : Inum) : Code Unit := do
  let referenced : Bool ← act (.request .ilock ip)
  if referenced then
    act (.grant ip)
    let typed : Bool ← act (.load ip)
    if typed then pure () else panic .noType
  else panic .ilock

def iunlock (ip : Inum) : Code Unit := do
  let held : Bool ← act (.release .ilock ip)
  if held then pure () else panic .iunlock

/-- The part of `iput` that is under the lock. -/
def iputTest (ip : Inum) : Code Unit := do
  let unlinked : Bool ← act (.unlinked ip)
  if unlinked then
    let r : Nat ← act (.readRef ip)
    if r = 1 then act (.free ip) else pure ()
  else pure ()

def iput (ip : Inum) : Code Unit := do
  let _ : Bool ← act (.request .iput ip)
  act (.grant ip)
  iputTest ip
  let _ : Bool ← act (.release .iput ip)
  act (.decRef ip)

def iunlockput (ip : Inum) : Code Unit := do
  iunlock ip
  iput ip

/-- The entry's number and its offset. -/
def dirlookup (dp : Inum) (name : Name) : Code (Option (Inum × Nat)) := do
  let x ← stat dp
  if x.type = some .dir then
    match scan name x.dirents with
    | some (off, inum) => do
      iget inum
      pure (some (inum, off))
    | none => pure none
  else panic .dirlookup

def dirlink (dp : Inum) (name : Name) (inum : Inum) : Code Bool := do
  match ← dirlookup dp name with
  | some (ip, _) => do
    iput ip
    pure false
  | none => do
    let x ← stat dp
    if x.emptySlot < MAXENTRIES then
      act (.writei dp x.emptySlot ⟨name, inum⟩)
      pure true
    else panic .dirlink

/-- The loop of `ialloc`, over the inodes that are left. -/
def ialloc (kind : Kind) : List Inum → Code Inum
  | [] => panic .ialloc
  | inum :: rest => do
    let free : Bool ← act (.tryAlloc inum kind)
    if free then
      iget inum
      pure inum
    else ialloc kind rest

def inodes : List Inum := (List.finRange NINODES).tail

structure Path where
  absolute : Bool
  elems : List Name
  deriving DecidableEq, Repr

/-- Where `namex` starts. -/
def namexStart (absolute : Bool) : Code Inum := do
  if absolute then
    iget ROOTINO
    pure ROOTINO
  else
    match ← readCwd with
    | none => panic .null
    | some ip => do
      act (.idup ip)
      pure ip

/-- The loop of `namei`. -/
def nameiWalk (ip : Inum) : List Name → Code (Option Inum)
  | [] => pure (some ip)
  | name :: path => do
    ilock ip
    let x ← stat ip
    if x.type = some .dir then
      match ← dirlookup ip name with
      | some (next, _) => do
        iunlockput ip
        nameiWalk next path
      | none => do
        iunlockput ip
        pure none
    else
      iunlockput ip
      pure none

/-- The loop of `nameiparent`, which stops one element early. -/
def nameiparentWalk (ip : Inum) : List Name → Code (Option (Inum × Name))
  | [] => do
    iput ip
    pure none
  | name :: path => do
    ilock ip
    let x ← stat ip
    if x.type = some .dir then
      if path = [] then
        iunlock ip
        pure (some (ip, name))
      else
        match ← dirlookup ip name with
        | some (next, _) => do
          iunlockput ip
          nameiparentWalk next path
        | none => do
          iunlockput ip
          pure none
    else
      iunlockput ip
      pure none

def namei (path : Path) : Code (Option Inum) := do
  let ip ← namexStart path.absolute
  nameiWalk ip path.elems

def nameiparent (path : Path) : Code (Option (Inum × Name)) := do
  let ip ← namexStart path.absolute
  nameiparentWalk ip path.elems

end ThreadKernel.Fs
