import ThreadKernel.File.Cwd
import ThreadKernel.Fs.Inodes

/-! The inode cache entry by entry, over the inodes on the disk.

An operation is one section of `icache.lock` or of a buffer's lock, with the writes to the
locked inode before it: `iupdate` follows each of these. The state also says which references
each thread has been given and has not dropped, and in which function a sleep lock was got.

The test in `iput` that there is no other reference is not one step with the freeing. `iget`
does not ask for the sleep lock, so it may hand out the entry in between. -/
namespace ThreadKernel.Icache

open Interleave Fs Function

abbrev Ix := Fin NINODE

/-- `struct dinode`; a free inode has no type. -/
structure Dinode where
  type : Option Kind
  major : Nat
  minor : Nat
  nlink : Nat
  size : Nat
  addrs : List Nat
  deriving DecidableEq, Repr

/-- `memset(dip, 0, sizeof(*dip))`, with the type. -/
def Dinode.blank (type : Option Kind) : Dinode := ⟨type, 0, 0, 0, 0, List.replicate 13 0⟩

structure Inode where
  dev : Nat
  inum : Nat
  ref : Nat
  valid : Bool
  lock : Option (Slot × Site)
  copy : Dinode
  deriving DecidableEq, Repr

structure State where
  inode : Ix → Inode
  disk : Nat → Nat → Dinode
  held : Slot → List Ix
  panic : Option Panic

inductive Op where
  | iget (dev inum : Nat)
  | idup (ip : Ix)
  /-- The first test of `ilock`. -/
  | referenced (ip : Ix)
  | acquiresleep (site : Site) (ip : Ix)
  /-- `ilock` reads the inode unless it is valid. -/
  | load (ip : Ix)
  | iunlock (ip : Ix)
  /-- `ip->valid && ip->nlink == 0` -/
  | unlinked (ip : Ix)
  | readRef (ip : Ix)
  /-- `itrunc`, with the `iupdate` at its end. -/
  | itrunc (ip : Ix)
  /-- `ip->type = 0`, `iupdate`. -/
  | clearType (ip : Ix)
  /-- `ip->valid = 0` -/
  | invalidate (ip : Ix)
  | releasesleep (ip : Ix)
  | decRef (ip : Ix)
  /-- A caller sets `ip->nlink` and calls `iupdate`. -/
  | setNlink (ip : Ix) (n : Nat)
  /-- One round of the loop of `ialloc`. -/
  | tryAlloc (dev inum : Nat) (kind : Kind)
  deriving DecidableEq, Repr

@[reducible]
def Op.Ans : Op → Type
  | iget _ _ => Option Ix
  | referenced _ | load _ | iunlock _ | unlinked _ | tryAlloc _ _ _ => Bool
  | readRef _ => Nat
  | idup _ | acquiresleep _ _ | itrunc _ | clearType _ | invalidate _ | releasesleep _ | decRef _
  | setNlink _ _ => Unit

namespace State

def setInode (s : State) (ip : Ix) (x : Inode) : State :=
  {s with inode := update s.inode ip x}

def setHeld (s : State) (t : Slot) (l : List Ix) : State :=
  {s with held := update s.held t l}

def setDisk (s : State) (dev inum : Nat) (x : Dinode) : State :=
  {s with disk := fun d i => if d = dev ∧ i = inum then x else s.disk d i}

/-- What is on the disk of the inode in an entry. -/
def stored (s : State) (ip : Ix) : Dinode := s.disk (s.inode ip).dev (s.inode ip).inum

/-- The inode in memory is changed to `x` and written back. -/
def iupdate (s : State) (ip : Ix) (x : Dinode) : State :=
  (s.setDisk (s.inode ip).dev (s.inode ip).inum x).setInode ip {s.inode ip with copy := x}

/-- The entry that the loop of `iget` returns. -/
def find (s : State) (dev inum : Nat) : Option Ix :=
  (List.finRange NINODE).find? fun ip =>
    0 < (s.inode ip).ref ∧ (s.inode ip).dev = dev ∧ (s.inode ip).inum = inum

/-- The empty entry that it remembers. -/
def empty (s : State) : Option Ix := (List.finRange NINODE).find? fun ip => (s.inode ip).ref = 0

theorem find_some {s : State} {dev inum : Nat} {ip : Ix} (h : s.find dev inum = some ip) :
    0 < (s.inode ip).ref ∧ (s.inode ip).dev = dev ∧ (s.inode ip).inum = inum := by
  have hfind := List.find?_some h
  exact of_decide_eq_true hfind

theorem find_none {s : State} {dev inum : Nat} (h : s.find dev inum = none) {ip : Ix}
    (hpos : 0 < (s.inode ip).ref) : ¬ ((s.inode ip).dev = dev ∧ (s.inode ip).inum = inum) := fun heq =>
  List.find?_eq_none.mp h ip (List.mem_finRange ip) (decide_eq_true ⟨hpos, heq⟩)

theorem empty_some {s : State} {ip : Ix} (h : s.empty = some ip) : (s.inode ip).ref = 0 := by
  have hfind := List.find?_some h
  exact of_decide_eq_true hfind

def setRef (s : State) (ip : Ix) (n : Nat) : State := s.setInode ip {s.inode ip with ref := n}

def iget (s : State) (t : Slot) (dev inum : Nat) : Option Ix × State :=
  match s.find dev inum with
  | some ip => (some ip, (s.setRef ip ((s.inode ip).ref + 1)).setHeld t (ip :: s.held t))
  | none =>
    match s.empty with
    | some ip => (some ip, (s.setInode ip {s.inode ip with
        dev := dev, inum := inum, ref := 1, valid := false}).setHeld t (ip :: s.held t))
    | none => (none, s)

def run (s : State) (t : Slot) : (o : Op) → Option (o.Ans × State)
  | .iget dev inum => some (s.iget t dev inum)
  | .idup ip => some ((), (s.setRef ip ((s.inode ip).ref + 1)).setHeld t (ip :: s.held t))
  | .referenced ip => some (1 ≤ (s.inode ip).ref, s)
  | .acquiresleep site ip =>
    if (s.inode ip).lock = none then
      some ((), s.setInode ip {s.inode ip with lock := some (t, site)})
    else none
  | .load ip =>
    if (s.inode ip).valid = true then some (true, s)
    else some ((s.stored ip).type.isSome,
      s.setInode ip {s.inode ip with valid := true, copy := s.stored ip})
  | .iunlock ip =>
    if (s.inode ip).lock.map Prod.fst = some t ∧ 1 ≤ (s.inode ip).ref then
      some (true, s.setInode ip {s.inode ip with lock := none})
    else some (false, s)
  | .unlinked ip => some ((s.inode ip).valid && (s.inode ip).copy.nlink == 0, s)
  | .readRef ip => some ((s.inode ip).ref, s)
  | .itrunc ip => some ((), s.iupdate ip {(s.inode ip).copy with
      addrs := List.replicate 13 0, size := 0})
  | .clearType ip => some ((), s.iupdate ip {(s.inode ip).copy with type := none})
  | .invalidate ip => some ((), s.setInode ip {s.inode ip with valid := false})
  | .releasesleep ip => some ((), s.setInode ip {s.inode ip with lock := none})
  | .decRef ip => some ((), (s.setRef ip ((s.inode ip).ref - 1)).setHeld t ((s.held t).erase ip))
  | .setNlink ip n => some ((), s.iupdate ip {(s.inode ip).copy with nlink := n})
  | .tryAlloc dev inum kind =>
    if (s.disk dev inum).type = none then some (true, s.setDisk dev inum (.blank (some kind)))
    else some (false, s)

/-- A panic stops every thread. -/
def exec (t : Slot) (o : Op) (s : State) : Option (o.Ans × State) :=
  if s.panic = none then s.run t o else none

def halt (w : Panic) (s : State) : Option State :=
  if s.panic = none then some {s with panic := some w} else none

end State

/-! ### The functions -/

abbrev Code := Prog Op Op.Ans Panic

def panic {α : Type} (w : Panic) : Code α := .halt w

def act (o : Op) : Code o.Ans := .perform o

def iget (dev inum : Nat) : Code Ix := do
  match ← act (.iget dev inum) with
  | some ip => pure ip
  | none => panic .iget

def ilock (ip : Ix) : Code Unit := do
  let referenced : Bool ← act (.referenced ip)
  if referenced then
    act (.acquiresleep .ilock ip)
    let typed : Bool ← act (.load ip)
    if typed then pure () else panic .noType
  else panic .ilock

def iunlock (ip : Ix) : Code Unit := do
  let held : Bool ← act (.iunlock ip)
  if held then pure () else panic .iunlock

/-- The part of `iput` that is under the lock. -/
def iputTest (ip : Ix) : Code Unit := do
  let unlinked : Bool ← act (.unlinked ip)
  if unlinked then
    let r : Nat ← act (.readRef ip)
    if r = 1 then
      act (.itrunc ip)
      act (.clearType ip)
      act (.invalidate ip)
    else pure ()
  else pure ()

def iput (ip : Ix) : Code Unit := do
  act (.acquiresleep .iput ip)
  iputTest ip
  act (.releasesleep ip)
  act (.decRef ip)

/-- The loop of `ialloc`, over the inodes that are left. -/
def ialloc (dev : Nat) (kind : Kind) : List Nat → Code Ix
  | [] => panic .ialloc
  | inum :: rest => do
    let free : Bool ← act (.tryAlloc dev inum kind)
    if free then iget dev inum else ialloc dev kind rest

inductive Call where
  | iget (dev inum : Nat)
  | idup (ip : Ix)
  | ilock (ip : Ix)
  | iunlock (ip : Ix)
  | iput (ip : Ix)
  | ialloc (dev : Nat) (kind : Kind)
  | setNlink (ip : Ix) (n : Nat)
  deriving DecidableEq, Repr

/-- `ninodes` is that of the superblock. -/
def Call.code (ninodes : Nat) : Call → Code Unit
  | iget dev inum => do
    let _ ← Icache.iget dev inum
    pure ()
  | idup ip => act (.idup ip)
  | ilock ip => Icache.ilock ip
  | iunlock ip => Icache.iunlock ip
  | iput ip => Icache.iput ip
  | ialloc dev kind => do
    let _ ← Icache.ialloc dev kind (List.range ninodes).tail
    pure ()
  | setNlink ip n => act (.setNlink ip n)

def system (ninodes : Nat) : System Op Op.Ans Panic State Slot Call where
  exec := State.exec
  halt := State.halt
  ready := fun s _ => s.panic.isNone
  code := Call.code ninodes

/-- `iinit`, over any disk. -/
def boot (disk : Nat → Nat → Dinode) : State where
  inode := fun _ => ⟨0, 0, 0, false, none, .blank none⟩
  disk := disk
  held := fun _ => []
  panic := none

/-! ### Rules -/

/-- A caller uses the references it has, and changes an inode that it has locked. -/
def uses (s : State) (t : Slot) : Op → Prop
  | .idup ip | .referenced ip | .acquiresleep _ ip => ip ∈ s.held t
  | .setNlink ip _ => (s.inode ip).lock = some (t, .ilock)
  | _ => True

instance (s : State) (t : Slot) (o : Op) : Decidable (uses s t o) := by
  apply @Op.casesOn _ o <;> intros <;> dsimp only [uses] <;> infer_instance

/-- `iput` has the only reference to the inode, with the lock, and will free it. -/
def Doomed (s : State) (ip : Ix) : Prop :=
  (s.inode ip).ref = 1 ∧ (s.inode ip).lock.map Prod.snd = some .iput ∧ (s.inode ip).valid = true ∧
    (s.inode ip).copy.type ≠ none ∧ (s.inode ip).copy.nlink = 0

instance (s : State) (ip : Ix) : Decidable (Doomed s ip) :=
  inferInstanceAs (Decidable (_ ∧ _))

/-- Nobody asks for an inode that is about to be freed. -/
def waits (s : State) : Op → Prop
  | .iget dev inum => ∀ ip, (s.inode ip).dev = dev → (s.inode ip).inum = inum → ¬ Doomed s ip
  | _ => True

instance (s : State) (o : Op) : Decidable (waits s o) := by
  apply @Op.casesOn _ o <;> intros <;> dsimp only [waits] <;> infer_instance

def useRule : Rule Op State Slot Call := ⟨uses, fun _ _ _ => True⟩

def soleRule : Rule Op State Slot Call := ⟨fun s t o => uses s t o ∧ waits s o, fun _ _ _ => True⟩

instance (s : State) (t : Slot) (o : Op) : Decidable (useRule.op s t o) :=
  inferInstanceAs (Decidable (uses s t o))

instance (s : State) (t : Slot) (c : Call) : Decidable (useRule.call s t c) :=
  inferInstanceAs (Decidable True)

instance (s : State) (t : Slot) (o : Op) : Decidable (soleRule.op s t o) :=
  inferInstanceAs (Decidable (uses s t o ∧ waits s o))

instance (s : State) (t : Slot) (c : Call) : Decidable (soleRule.call s t c) :=
  inferInstanceAs (Decidable True)

end ThreadKernel.Icache
