import ThreadKernel.Proc.State
import ThreadKernel.Library.Registry

/-! The thread registry as a machine of its own.

What `fork`, `thread_create`, `thread_exit`, `thread_join`, `exit`, `wait` and `exec`
do to who is a thread of which process, without CPUs, locks, sleeping or the
scheduler: an entry is free, being set up, live or a zombie, and a live one is in user
code, in `initcode.S` or in the middle of an `exec`. `Refine` shows that the kernel's
steps are moves of this machine. -/
namespace ThreadKernel

open Function

/-- Where the code of a live proc stands, as far as the registry can tell. -/
inductive Stage where
  | user
  /-- `initcode.S`, before its `exec` has succeeded. -/
  | boot
  /-- Between `kill_other_threads` and the end of `exec`; from `initcode.S` or not. -/
  | exec (init : Bool)
  deriving DecidableEq

inductive Phase where
  | free
  /-- Handed out by `allocproc`. -/
  | embryo
  /-- The same, with a page of its own from `fork`. -/
  | paged
  | live (m : Stage)
  | zombie
  deriving DecidableEq

def Phase.isLive : Phase → Bool
  | .live _ => true
  | .free | .embryo | .paged | .zombie => false

/-- Handed out and not published or given up yet. -/
def Phase.isEmbryo : Phase → Bool
  | .embryo | .paged => true
  | .free | .live _ | .zombie => false

/-- `initcode.S` has not got its `exec` through. -/
def Phase.booting : Phase → Bool
  | .live .boot | .live (.exec true) => true
  | .live .user | .live (.exec false) | .free | .embryo | .paged | .zombie => false

structure Entry where
  phase : Phase
  share : Option Page
  order : Index
  master : Bool
  retval : Word

/-- The registry half of `struct sharedData`. -/
abbrev Reg := Registry.Reg Slot Index

structure Table where
  entry : Slot → Entry
  reg : Page → Reg
  next : Page

namespace Table

def set (t : Table) (p : Slot) (x : Entry) : Table :=
  {t with entry := update t.entry p x}

def setReg (t : Table) (a : Page) (r : Reg) : Table :=
  {t with reg := update t.reg a r}

section
variable (t : Table) (p q : Slot) (x : Entry) (a b : Page) (r : Reg)

theorem set_entry : (t.set p x).entry q = if q = p then x else t.entry q := by
  simp only [set, update_apply]

@[simp] theorem set_same : (t.set p x).entry p = x := by
  rw [set_entry, if_pos rfl]

theorem set_self : t.set p (t.entry p) = t := by
  simp only [set, update_eq_self]

@[simp] theorem set_reg : (t.set p x).reg = t.reg := rfl
@[simp] theorem set_next : (t.set p x).next = t.next := rfl

theorem setReg_reg : (t.setReg a r).reg b = if b = a then r else t.reg b := by
  simp only [setReg, update_apply]

@[simp] theorem setReg_same : (t.setReg a r).reg a = r := by
  rw [setReg_reg, if_pos rfl]

@[simp] theorem setReg_entry : (t.setReg a r).entry = t.entry := rfl

end

/-- `q` is `RUNNABLE`, `RUNNING` or `SLEEPING`. -/
def Live (t : Table) (q : Slot) : Prop := (t.entry q).phase.isLive = true

/-- `q` is live and a thread of the process with page `a`. -/
def Member (t : Table) (q : Slot) (a : Page) : Prop := t.Live q ∧ (t.entry q).share = some a

instance (t : Table) (q : Slot) : Decidable (t.Live q) :=
  inferInstanceAs (Decidable (_ = true))

/-- The state in which `kill_other_threads` by `cur` leaves the table: the procs in
`gone` are freed. -/
def freed (t : Table) (gone : Slot → Prop) [DecidablePred gone] : Table :=
  {t with entry := fun q =>
    if gone q then {t.entry q with phase := .free, share := none, order := 0, retval := 0}
    else t.entry q}

/-- `wait` has given back the zombies in `gone`: their `sharePtr` stays. -/
def reaped (t : Table) (gone : Slot → Prop) [DecidablePred gone] : Table :=
  {t with entry := fun q => if gone q then {t.entry q with phase := .free} else t.entry q}

/-- `exit` in the process with page `a`. -/
def killed (t : Table) (a : Page) : Table :=
  {t with entry := fun q =>
    if (t.entry q).share = some a then {t.entry q with phase := .zombie} else t.entry q}

/-- `kill_other_threads` frees what the flags and `threads` say, the caller excepted. -/
def Victim (t : Table) (cur : Slot) (a : Page) (q : Slot) : Prop :=
  q ≠ cur ∧ ∃ i, (t.reg a).isThere i = true ∧ (t.reg a).threads i = some q

instance (t : Table) (cur : Slot) (a : Page) : DecidablePred (t.Victim cur a) :=
  fun q => inferInstanceAs (Decidable (q ≠ cur ∧ ∃ _, _ ∧ _))

end Table

/-- The moves, with what a caller sees of them. -/
inductive Move (t : Table) : Event → Table → Prop where
  | stay : Move t .quiet t
  /-- A page other than a shared one. -/
  | alloc : Move t .quiet {t with next := t.next + 1}
  | handOut {np : Slot} : (t.entry np).phase = .free →
      Move t (.handedOut np) (t.set np {t.entry np with phase := .embryo})
  | page {np : Slot} : (t.entry np).phase.isEmbryo = true →
      Move t .quiet {(t.set np {t.entry np with phase := .paged, share := some t.next}).setReg t.next
        .blank with next := t.next + 1}
  | drop {np : Slot} : (t.entry np).phase.isEmbryo = true →
      Move t .quiet (t.set np {t.entry np with phase := .free})
  | publish {cur np : Slot} {a : Page} : (t.entry np).phase = .paged → (t.entry np).share = some a →
      Move t (.forked cur np)
        ((t.set np {t.entry np with phase := .live .user, order := 0, master := true}).setReg a
          ⟨1, update (t.reg a).threads 0 (some np), fun i => i = 0⟩)
  | create {cur np : Slot} {a : Page} {i : Index} : (t.entry cur).phase = .live .user →
      (t.entry cur).share = some a → (t.entry np).phase.isEmbryo = true → (t.reg a).free = some i →
      Move t (.created cur np a i)
        ((t.set np
          {t.entry np with phase := .live .user, share := some a, order := i, master := false}).setReg a
          ((t.reg a).add i np))
  /-- All flags are set: the thread is started and not registered. -/
  | createFull {cur np : Slot} {a : Page} : (t.entry cur).phase = .live .user →
      (t.entry cur).share = some a → (t.entry np).phase.isEmbryo = true → (t.reg a).free = none →
      Move t (.created cur np a (t.entry np).order)
        (t.set np {t.entry np with phase := .live .user, share := some a, master := false})
  | createFail {cur np : Slot} : (t.entry cur).phase = .live .user →
      (t.entry np).phase.isEmbryo = true →
      Move t .quiet (t.set np {t.entry np with phase := .free, share := (t.entry cur).share})
  | threadExit {cur : Slot} {a : Page} {v : Word} : (t.entry cur).phase = .live .user →
      (t.entry cur).share = some a →
      Move t (.threadExited cur v)
        ((t.setReg a ((t.reg a).clear (t.entry cur).order)).set cur
          {t.entry cur with phase := .zombie, retval := v})
  | exit {cur : Slot} {a : Page} : (t.entry cur).phase = .live .user →
      (t.entry cur).share = some a → Move t (.exited cur) (t.killed a)
  | reap {cur child : Slot} {a : Page} {pid : Word} {n : Int} (gone : Slot → Prop)
      [DecidablePred gone] : (t.entry child).phase = .zombie → (t.entry child).master = true →
      (t.entry child).share = some a →
      (∀ q, gone q → (t.entry q).phase = .zombie ∧ ∃ i, (t.reg a).threads i = some q) →
      n = (t.reg a).count - (Finset.univ.filter gone).card →
      Move t (.waited cur child pid) ((t.reaped gone).setReg a {t.reg a with count := n})
  | join {cur p : Slot} {a : Page} : (t.entry cur).phase = .live .user →
      (t.entry cur).share = some a → (t.entry p).phase = .zombie → (t.entry p).master = false →
      Move t (.joined cur p (t.entry p).order (t.entry p).retval)
        ((t.set p ⟨.free, none, 0, false, 0⟩).setReg a {t.reg a with count := (t.reg a).count - 1})
  | killOthers {cur : Slot} {a : Page} {init : Bool} :
      (t.entry cur).phase = .live (if init then .boot else .user) → (t.entry cur).share = some a →
      Move t (.killedOthers cur)
        ((t.freed (t.Victim cur a)).set cur {t.entry cur with phase := .live (.exec init)})
  | commit {cur : Slot} {a : Page} {init : Bool} : (t.entry cur).phase = .live (.exec init) →
      (t.entry cur).share = some a →
      Move t (.execed cur)
        {t.set cur {t.entry cur with phase := .live .user, master := true} with next := t.next + 1}
  | execFail {cur : Slot} {a : Page} {init : Bool} : (t.entry cur).phase = .live (.exec init) →
      (t.entry cur).share = some a →
      Move t .quiet (t.set cur {t.entry cur with phase := .live (if init then .boot else .user)})

end ThreadKernel
