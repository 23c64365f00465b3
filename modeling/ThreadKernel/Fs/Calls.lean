import ThreadKernel.Fs.Inodes

/-! The calls of `sysfile.c` that look up and change names, and the image of `mkfs`.

Of `open` there is what it does to inodes; whether there is a file and a descriptor for
the inode is told to the call. A last `close` of a file may come from any thread. Of
`exec`, `fork` and `exit` there is what they do to inodes and to `cwd`. -/
namespace ThreadKernel.Fs

open Interleave

/-- `create` has a new inode, and writes `.` and `..` into a directory. -/
def createDots (dp ip : Inum) (kind : Kind) : Code Unit := do
  if kind = .dir then
    act (.nlinkIncr dp)
    let dot ← dirlink ip .dot ip
    if dot then
      let dotdot ← dirlink ip .dotdot dp
      if dotdot then pure () else panic .dots
    else panic .dots
  else pure ()

def create (path : Path) (kind : Kind) : Code (Option Inum) := do
  match ← nameiparent path with
  | none => pure none
  | some (dp, name) => do
    ilock dp
    match ← dirlookup dp name with
    | some (ip, _) => do
      iunlockput dp
      ilock ip
      let x ← stat ip
      if kind = .file ∧ x.type = some .file then pure (some ip)
      else
        iunlockput ip
        pure none
    | none => do
      let ip ← ialloc kind inodes
      ilock ip
      act (.nlinkInit ip)
      createDots dp ip kind
      let linked ← dirlink dp name ip
      if linked then
        iunlockput dp
        pure (some ip)
      else panic .create

/-- `sys_open` has the inode locked; whether there is a file and a descriptor for it. -/
def openInode (ip : Inum) (ok : Bool) : Code Unit := do
  if ok then
    iunlock ip
    act (.openFile ip)
  else iunlockput ip

def sysOpen (path : Path) (creates rdonly ok : Bool) : Code Unit := do
  if creates then
    match ← create path .file with
    | none => pure ()
    | some ip => openInode ip ok
  else
    match ← namei path with
    | none => pure ()
    | some ip => do
      ilock ip
      let x ← stat ip
      if x.type = some .dir ∧ rdonly = false then iunlockput ip else openInode ip ok

/-- `sys_mkdir` and `sys_mknod`. -/
def sysMake (path : Path) (kind : Kind) : Code Unit := do
  match ← create path kind with
  | none => pure ()
  | some ip => iunlockput ip

/-- The label `bad` of `sys_link`. -/
def linkBad (ip : Inum) : Code Unit := do
  ilock ip
  act (.nlinkDecr ip)
  iunlockput ip

def sysLink (old new : Path) : Code Unit := do
  match ← namei old with
  | none => pure ()
  | some ip => do
    ilock ip
    let x ← stat ip
    if x.type = some .dir then iunlockput ip
    else
      act (.nlinkIncr ip)
      iunlock ip
      match ← nameiparent new with
      | none => linkBad ip
      | some (dp, name) => do
        ilock dp
        let linked ← dirlink dp name ip
        if linked then
          iunlockput dp
          iput ip
        else
          iunlockput dp
          linkBad ip

/-- `sys_unlink` has the directory and the inode locked. -/
def unlinkInode (dp ip : Inum) (off : Nat) : Code Unit := do
  let x ← stat ip
  if x.nlink < 1 then panic .unlink
  else if x.type = some .dir ∧ x.isEmpty = false then
    iunlockput ip
    iunlockput dp
  else
    act (.writei dp off ⟨.plain 0, 0⟩)
    if x.type = some .dir then act (.nlinkDecr dp) else pure ()
    iunlockput dp
    act (.nlinkDecr ip)
    iunlockput ip

def sysUnlink (path : Path) : Code Unit := do
  match ← nameiparent path with
  | none => pure ()
  | some (dp, name) => do
    ilock dp
    if name = .dot ∨ name = .dotdot then iunlockput dp
    else
      match ← dirlookup dp name with
      | none => iunlockput dp
      | some (ip, off) => do
        ilock ip
        unlinkInode dp ip off

def sysChdir (path : Path) : Code Unit := do
  match ← namei path with
  | none => pure ()
  | some ip => do
    ilock ip
    let x ← stat ip
    if x.type = some .dir then
      iunlock ip
      match ← readCwd with
      | none => panic .null
      | some old => do
        iput old
        act (.setCwd (some ip))
    else iunlockput ip

/-- The last `fileclose` of a file that stands for `ip`. -/
def fileclose (ip : Inum) : Code Unit := do
  let isOpen : Bool ← act (.closeFile ip)
  if isOpen then iput ip else pure ()

/-- `exec`, as far as the inode goes. -/
def sysExec (path : Path) : Code Unit := do
  match ← namei path with
  | none => pure ()
  | some ip => do
    ilock ip
    iunlockput ip

/-- `fork`, as far as `cwd` goes. -/
def fork (np : Share) (q : Slot) : Code Unit := do
  match ← readCwd with
  | none => panic .null
  | some ip => do
    act (.idup ip)
    act (.fork np q ip)

/-- `exit` after the files. -/
def exit : Code Unit := do
  match ← readCwd with
  | none => panic .null
  | some ip => do
    iput ip
    act (.setCwd none)
    act .leave

inductive Call where
  | opens (path : Path) (creates rdonly ok : Bool)
  | mkdir (path : Path)
  | mknod (path : Path)
  | link (old new : Path)
  | unlink (path : Path)
  | chdir (path : Path)
  | close (ip : Inum)
  | exec (path : Path)
  | fork (np : Share) (q : Slot)
  | exit
  | threadCreate (q : Slot)
  | threadExit
  deriving DecidableEq, Repr

def Call.code : Call → Code Unit
  | opens path creates rdonly ok => sysOpen path creates rdonly ok
  | mkdir path => sysMake path .dir
  | mknod path => sysMake path .dev
  | link old new => sysLink old new
  | unlink path => sysUnlink path
  | chdir path => sysChdir path
  | close ip => fileclose ip
  | exec path => sysExec path
  | fork np q => Fs.fork np q
  | exit => Fs.exit
  | threadCreate q => act (.spawn q)
  | threadExit => act .leave

def system : System Op Op.Ans Panic State Slot Call where
  exec := State.exec
  halt := State.halt
  ready := fun s t => (s.owner t).isSome && s.panic.isNone
  code := Call.code

/-! ### The image -/

/-- The files that `mkfs` is given. -/
structure Image where
  files : List Nat
  fits : files.length + 2 ≤ NINODES

namespace Image

/-- `mkfs` numbers the files from 2 on. -/
def dirents : Nat → List Nat → List Dirent
  | _, [] => []
  | i, n :: ns => ⟨.plain n, Fin.ofNat NINODES i⟩ :: dirents (i + 1) ns

/-- Empty entries up to the end of the block after the one that is written to. -/
def padding (entries : Nat) : Nat := 32 - entries % 32

def root (img : Image) : Dinode where
  type := some .dir
  nlink := 1
  dirents := ⟨.dot, ROOTINO⟩ :: ⟨.dotdot, ROOTINO⟩ :: dirents 2 img.files ++
    List.replicate (padding (img.files.length + 2)) ⟨.plain 0, 0⟩

def inode (img : Image) (i : Inum) : Dinode :=
  if i = ROOTINO then img.root
  else if 2 ≤ i.val ∧ i.val < img.files.length + 2 then ⟨some .file, 1, []⟩
  else ⟨none, 0, []⟩

/-- One process with one thread, in the root directory. -/
def boot (img : Image) : State where
  inode := img.inode
  born := fun _ => 0
  clock := 1
  ref := fun i => if i = ROOTINO then 1 else 0
  valid := fun _ => false
  lock := fun _ => none
  wants := fun _ => none
  leaving := fun _ => none
  owner := fun t => if t = 0 then some 0 else none
  cwd := fun p => if p = 0 then some ROOTINO else none
  reading := fun _ => false
  opened := []
  panic := none

end Image

end ThreadKernel.Fs
