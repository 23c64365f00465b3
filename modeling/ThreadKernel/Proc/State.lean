import Mathlib

/-! The process table and what hangs off it.

`struct proc`, the registry half of `struct sharedData` and the part of
`struct cpu` that the table code reads, as `proc.h` declares them. A pointer into
the table is a slot; a page the allocator handed out is a number that is never
handed out again, so two `sharePtr`s are equal exactly when they are the same
page. `sz` and the contents of the page directory are in `Vm`; `tf`, `name` and
`stack` are read by none of the code modelled here.

What the kernel stack of a proc will do next is data too (`Ctx`, `Resume`):
`swtch` saves it in `p->context`, and a CPU executes it. -/
namespace ThreadKernel

open Function

abbrev Word := BitVec 32

/-- `param.h`. -/
abbrev NPROC : Nat := 64

abbrev Slot := Fin NPROC

abbrev Index := Fin 6

instance : NeZero NPROC := ⟨by decide⟩
instance Index.neZero : NeZero 6 := ⟨by decide⟩
instance : LawfulBEq Slot := inferInstance

abbrev Page := Nat

/-- `enum procstate`. -/
inductive ProcState where
  | unused | embryo | sleeping | runnable | running | zombie
  deriving DecidableEq, Repr

/-- A sleep channel: the address of a proc, or any other address. -/
inductive Chan where
  | proc (p : Slot)
  | addr (a : Nat)
  deriving DecidableEq, Repr

/-- A `struct proc *` as a channel; null is address zero. -/
def Chan.ofProc : Option Slot → Chan
  | some p => .proc p
  | none => .addr 0

/-- Where the code of a proc stands when it does not hold `ptable.lock`. -/
inductive Ctx where
  /-- User code, or kernel code in none of the calls below. -/
  | user
  /-- `initcode.S`, whose one call is `exec`. -/
  | initcode
  /-- `fork`, in `allocproc`: slot `np` taken, no kernel stack yet. -/
  | forkAlloc (np : Slot)
  /-- `fork`: `allocproc` has returned `np`. -/
  | forkPage (np : Slot)
  /-- `fork`: `np->sharePtr` points at its page. -/
  | forkCopy (np : Slot)
  /-- `fork`: everything copied, about to take the lock. -/
  | forkPublish (np : Slot)
  /-- `thread_create`, in `allocproc`: slot `np` taken, no kernel stack yet. -/
  | createAlloc (np : Slot)
  /-- `thread_create`: `allocproc` has returned `np`. -/
  | createFinish (np : Slot)
  /-- `exec`, after `kill_other_threads`; the flag says `initcode.S` called it. -/
  | execing (init : Bool)
  deriving DecidableEq, Repr

/-- What a saved context does when the scheduler switches to it, `ptable.lock` held. -/
inductive Resume where
  /-- `yield` or `forkret`: release the lock and go on. -/
  | release (k : Ctx)
  /-- `sleep` on another lock: clear `chan`, release `ptable.lock` and go on. -/
  | slept (k : Ctx)
  /-- `sleep` in `wait`: clear `chan`, scan again. -/
  | waitLoop
  /-- `sleep` in `thread_join(t, ..)`: clear `chan`, scan again. -/
  | joinLoop (t : Nat)
  deriving DecidableEq, Repr

/-- `struct proc`. `context = none` is a null pointer. -/
structure Proc where
  kstack : Option Page
  state : ProcState
  pid : Word
  parent : Option Slot
  context : Option Resume
  chan : Chan
  killed : Bool
  sharePtr : Option Page
  orderOfThread : Index
  retval : Word
  imMaster : Bool
  deriving DecidableEq

/-- `struct sharedData`, without `sz`, the open files and the directory's contents. -/
structure SharedData where
  pgdir : Option Page
  numOfThread : Int
  threads : Index → Option Slot
  isThere : Index → Bool

/-- What a CPU is doing. -/
inductive Mode where
  /-- In `scheduler`, between two scans. -/
  | idle
  /-- In the loop of `scheduler`, holding `ptable.lock`, at slot `i`. -/
  | scan (i : Nat)
  /-- In the code of `c->proc`. -/
  | run (k : Ctx)
  /-- In a timer interrupt of `c->proc`, past the test of its state. -/
  | tick (k : Ctx)
  deriving DecidableEq, Repr

structure Cpu where
  proc : Option Slot
  mode : Mode
  deriving DecidableEq, Repr

/-- The table, the shared pages, the CPUs and the lock. CPUs are numbered without
a bound. `freed` lists what was given back to the allocator, a page directory
standing for everything `freevm` frees with it. -/
structure Kernel where
  proc : Slot → Proc
  shared : Page → SharedData
  cpu : Nat → Cpu
  lock : Option Nat
  nextpid : Word
  nextPage : Page
  freed : List Page
  initproc : Slot

/-- What a step did that a caller can see. -/
inductive Event where
  | quiet
  /-- `allocproc` handed out `np`. -/
  | handedOut (np : Slot)
  /-- `fork` by `cur` returned `np`'s pid. -/
  | forked (cur np : Slot)
  /-- `thread_create` by `cur`, of the process with the page `own`, returned 0, with
  `id` stored through its pointer. -/
  | created (cur np : Slot) (own : Page) (id : Index)
  /-- `thread_exit(v)` by `cur`. -/
  | threadExited (cur : Slot) (v : Word)
  /-- `exit()` by `cur`. -/
  | exited (cur : Slot)
  /-- `wait()` by `cur` returned `pid`, found on slot `child`. -/
  | waited (cur child : Slot) (pid : Word)
  /-- `thread_join(t, &r)` by `cur` returned 0, having deallocated `p`. -/
  | joined (cur p : Slot) (t : Nat) (r : Word)
  /-- `kill_other_threads(cur)` ran. -/
  | killedOthers (cur : Slot)
  /-- `exec` by `cur` returned 0. -/
  | execed (cur : Slot)
  deriving DecidableEq, Repr

/-! ### Small updates -/

namespace Kernel

def setProc (s : Kernel) (p : Slot) (f : Proc → Proc) : Kernel :=
  {s with proc := update s.proc p (f (s.proc p))}

/-- A loop over the table that treats every entry by itself. -/
def mapProc (s : Kernel) (f : Slot → Proc → Proc) : Kernel :=
  {s with proc := fun q => f q (s.proc q)}

def setShared (s : Kernel) (a : Page) (f : SharedData → SharedData) : Kernel :=
  {s with shared := update s.shared a (f (s.shared a))}

def setCpu (s : Kernel) (c : Nat) (x : Cpu) : Kernel :=
  {s with cpu := update s.cpu c x}

def free (s : Kernel) (page : Option Page) : Kernel :=
  {s with freed := page.toList ++ s.freed}

/-- Release `ptable.lock` and go on as `k`. -/
def release (s : Kernel) (c : Nat) (k : Ctx) : Kernel :=
  {s.setCpu c ⟨(s.cpu c).proc, .run k⟩ with lock := none}

/-- `sched` by `p`: back in `scheduler` with the lock held, `c->proc` cleared, the
loop at the slot after `p`. -/
def sched (s : Kernel) (c : Nat) (p : Slot) : Kernel :=
  {s.setCpu c ⟨none, .scan (p + 1)⟩ with lock := some c}

section
variable (s : Kernel) (p q : Slot) (f : Proc → Proc) (g : Slot → Proc → Proc) (a b : Page)
  (d : SharedData → SharedData) (c c' : Nat) (x : Cpu) (page : Option Page) (k : Ctx)

theorem setProc_proc : (s.setProc p f).proc q = if q = p then f (s.proc p) else s.proc q := by
  simp only [setProc, update_apply]

@[simp] theorem setProc_same : (s.setProc p f).proc p = f (s.proc p) := by
  rw [setProc_proc, if_pos rfl]

theorem setProc_ne (h : q ≠ p) : (s.setProc p f).proc q = s.proc q := by
  rw [setProc_proc, if_neg h]

/-- A field that the update of one entry leaves alone is left alone everywhere. -/
theorem setProc_keeps {α : Type} (g : Proc → α) (h : g (f (s.proc p)) = g (s.proc p)) :
    g ((s.setProc p f).proc q) = g (s.proc q) := by
  rw [setProc_proc]
  split
  · rename_i hq
    rw [h, hq]
  · rfl

@[simp] theorem setProc_shared : (s.setProc p f).shared = s.shared := rfl
@[simp] theorem setProc_cpu : (s.setProc p f).cpu = s.cpu := rfl
@[simp] theorem setProc_initproc : (s.setProc p f).initproc = s.initproc := rfl
@[simp] theorem setProc_nextPage : (s.setProc p f).nextPage = s.nextPage := rfl

@[simp] theorem mapProc_proc : (s.mapProc g).proc q = g q (s.proc q) := rfl
@[simp] theorem mapProc_shared : (s.mapProc g).shared = s.shared := rfl
@[simp] theorem mapProc_cpu : (s.mapProc g).cpu = s.cpu := rfl
@[simp] theorem mapProc_initproc : (s.mapProc g).initproc = s.initproc := rfl
@[simp] theorem mapProc_nextPage : (s.mapProc g).nextPage = s.nextPage := rfl

theorem setShared_shared :
    (s.setShared a d).shared b = if b = a then d (s.shared a) else s.shared b := by
  simp only [setShared, update_apply]

@[simp] theorem setShared_same : (s.setShared a d).shared a = d (s.shared a) := by
  rw [setShared_shared, if_pos rfl]

@[simp] theorem setShared_proc : (s.setShared a d).proc = s.proc := rfl
@[simp] theorem setShared_cpu : (s.setShared a d).cpu = s.cpu := rfl
@[simp] theorem setShared_initproc : (s.setShared a d).initproc = s.initproc := rfl
@[simp] theorem setShared_nextPage : (s.setShared a d).nextPage = s.nextPage := rfl

@[simp] theorem free_proc : (s.free page).proc = s.proc := rfl
@[simp] theorem free_shared : (s.free page).shared = s.shared := rfl
@[simp] theorem free_cpu : (s.free page).cpu = s.cpu := rfl
@[simp] theorem free_initproc : (s.free page).initproc = s.initproc := rfl
@[simp] theorem free_nextPage : (s.free page).nextPage = s.nextPage := rfl

theorem setCpu_cpu : (s.setCpu c x).cpu c' = if c' = c then x else s.cpu c' := by
  simp only [setCpu, update_apply]

@[simp] theorem setCpu_proc : (s.setCpu c x).proc = s.proc := rfl
@[simp] theorem setCpu_shared : (s.setCpu c x).shared = s.shared := rfl
@[simp] theorem setCpu_initproc : (s.setCpu c x).initproc = s.initproc := rfl
@[simp] theorem setCpu_nextPage : (s.setCpu c x).nextPage = s.nextPage := rfl

theorem release_cpu :
    (s.release c k).cpu c' = if c' = c then ⟨(s.cpu c).proc, .run k⟩ else s.cpu c' :=
  setCpu_cpu s c c' _

@[simp] theorem release_proc : (s.release c k).proc = s.proc := rfl
@[simp] theorem release_shared : (s.release c k).shared = s.shared := rfl

theorem sched_cpu : (s.sched c p).cpu c' = if c' = c then ⟨none, .scan (p + 1)⟩ else s.cpu c' :=
  setCpu_cpu s c c' _

@[simp] theorem sched_proc : (s.sched c p).proc = s.proc := rfl
@[simp] theorem sched_shared : (s.sched c p).shared = s.shared := rfl
@[simp] theorem sched_initproc : (s.sched c p).initproc = s.initproc := rfl
@[simp] theorem sched_nextPage : (s.sched c p).nextPage = s.nextPage := rfl

end

end Kernel

end ThreadKernel
