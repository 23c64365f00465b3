import ThreadKernel.Proc.State

/-! The critical sections of `proc.c`, `sysproc.c` and `exec.c` on the table.

Each function is what one call does between taking `ptable.lock` and giving it up
(`release`, or `sched` into the scheduler). `none` is a panic or a dereference of a
null `sharePtr`, after which the C program has no meaning. A null entry of
`threads[]` is read as no thread. Whether memory could be had is an argument. -/
namespace ThreadKernel.Kernel

open Function

def wakeup1 (s : Kernel) (ch : Chan) : Kernel :=
  s.mapProc fun _ x => if x.state = .sleeping ∧ x.chan = ch then {x with state := .runnable} else x

/-- The locked half of `allocproc`: the first `UNUSED` slot. -/
def allocproc (s : Kernel) : Option (Slot × Kernel) :=
  match Fin.find? fun p => (s.proc p).state = .unused with
  | none => none
  | some np =>
    some (np, {s.setProc np (fun x => {x with state := .embryo, pid := s.nextpid}) with
      nextpid := s.nextpid + 1})

/-- The rest of `allocproc`: the kernel stack, and a context that starts at `forkret`. -/
def allocKstack (s : Kernel) (np : Slot) : Kernel :=
  {s.setProc np (fun x => {x with kstack := some s.nextPage, context := some (.release .user)}) with
    nextPage := s.nextPage + 1}

/-- `np->state = UNUSED`, all that a failed call undoes. The stack is null if it was the
one that could not be had. -/
def abandon (s : Kernel) (np : Slot) (stack : Option Page) : Kernel :=
  s.setProc np fun x => {x with kstack := stack, state := .unused}

/-! ### fork -/

/-- The zeroed page that becomes `np->sharePtr`. -/
def forkPage (s : Kernel) (np : Slot) : Kernel :=
  {(s.setProc np fun x => {x with sharePtr := some s.nextPage}).setShared s.nextPage
      (fun _ => ⟨none, 0, fun _ => none, fun _ => false⟩) with
    nextPage := s.nextPage + 1}

/-- `copyuvm` succeeded; the parent is recorded. -/
def forkCopy (s : Kernel) (cur np : Slot) (own : Page) : Kernel :=
  {(s.setShared own fun d => {d with pgdir := some s.nextPage}).setProc np
      (fun x => {x with parent := some cur}) with
    nextPage := s.nextPage + 1}

/-- `copyuvm` failed. -/
def forkCopyFail (s : Kernel) (np : Slot) : Kernel :=
  ((s.free (s.proc np).kstack).setProc np fun x => {x with kstack := none, state := .unused})

/-- The locked section at the end of `fork`. -/
def forkPublish (s : Kernel) (np : Slot) (own : Page) : Kernel :=
  (s.setShared own fun d =>
    {d with numOfThread := 1, isThere := fun i => i = 0, threads := update d.threads 0 np}).setProc
    np fun x => {x with orderOfThread := 0, imMaster := true, state := .runnable}

/-! ### thread_create -/

/-- The first free entry of the registry. -/
def freeIndex (d : SharedData) : Option Index :=
  Fin.find? fun i => d.isThere i = false

/-- The locked section of `thread_create` when `allocuvm` or `copyout` fails. -/
def createFail (s : Kernel) (cur np : Slot) : Kernel :=
  s.setProc np fun x =>
    {x with sharePtr := (s.proc cur).sharePtr, parent := (s.proc cur).parent, state := .unused}

/-- The new thread made `RUNNABLE`, not registered yet. -/
def createProc (s : Kernel) (cur np : Slot) : Kernel :=
  s.setProc np fun x =>
    {x with
      sharePtr := (s.proc cur).sharePtr, parent := (s.proc cur).parent, imMaster := false,
      state := .runnable}

/-- The loop over `isThere`: with no free entry it does nothing. -/
def register (s : Kernel) (np : Slot) (own : Page) : Kernel :=
  match freeIndex (s.shared own) with
  | none => s
  | some i =>
    (s.setShared own fun d =>
      {d with
        isThere := update d.isThere i true, threads := update d.threads i (some np),
        numOfThread := d.numOfThread + 1}).setProc np fun x => {x with orderOfThread := i}

/-- The locked section of a successful `thread_create`. The id stored through the
caller's pointer is `np->orderOfThread` after it. -/
def create (s : Kernel) (cur np : Slot) (own : Page) : Kernel :=
  (s.createProc cur np).register np own

/-! ### exit and thread_exit -/

/-- The children of `cur` go to `initproc`, which is woken if one is a zombie. -/
def reparent (s : Kernel) (cur : Slot) : Kernel :=
  let s' := s.mapProc fun _ x => if x.parent = some cur then {x with parent := some s.initproc} else x
  if ∃ p, (s.proc p).parent = some cur ∧ (s.proc p).state = .zombie then s'.wakeup1 (.proc s.initproc)
  else s'

/-- Every other proc with `cur`'s `sharePtr` becomes a zombie, whatever it is doing. -/
def killSiblings (s : Kernel) (cur : Slot) : Kernel :=
  s.mapProc fun q x =>
    if x.sharePtr = (s.proc cur).sharePtr ∧ q ≠ cur then {x with state := .zombie} else x

/-- The locked section of `exit`, before `sched`. -/
def exit (s : Kernel) (cur : Slot) : Kernel :=
  (((s.wakeup1 (Chan.ofProc (s.proc cur).parent)).reparent cur).killSiblings cur).setProc cur
    fun x => {x with state := .zombie}

/-- The entry of the registry at which `thread_exit` stops: the first master. -/
def masterIndex (s : Kernel) (own : Page) : Option Index :=
  Fin.find? fun i => match (s.shared own).threads i with
    | some q => (s.proc q).imMaster
    | none => false

/-- The channel `thread_exit` wakes. Without a master the loop ends at 6, and
`threads[6]` is the word after the array, `isThere[0]`. -/
def masterChan (s : Kernel) (own : Page) : Chan :=
  match s.masterIndex own with
  | some i => Chan.ofProc ((s.shared own).threads i)
  | none => .addr (if (s.shared own).isThere 0 then 1 else 0)

/-- The locked section of `thread_exit(v)`, before `sched`. -/
def threadExit (s : Kernel) (cur : Slot) (own : Page) (v : Word) : Kernel :=
  ((s.wakeup1 (s.masterChan own)).setShared own fun d =>
    {d with isThere := update d.isThere (s.proc cur).orderOfThread false}).setProc cur
    fun x => {x with state := .zombie, retval := v}

/-! ### thread_join -/

/-- What `thread_join(t, ..)` looks for: nothing here mentions `sharePtr`. -/
def joinable (s : Kernel) (cur : Slot) (t : Nat) (p : Slot) : Bool :=
  (s.proc p).orderOfThread = t ∧ (s.proc p).state = .zombie ∧
    (s.proc p).parent = (s.proc cur).parent ∧ (s.proc p).imMaster = false

/-- The thread found is deallocated and the caller's count goes down. -/
def joinReap (s : Kernel) (p : Slot) (own : Page) : Kernel :=
  ((s.free (s.proc p).kstack).setProc p fun x =>
    {x with
      retval := 0, kstack := none, state := .unused, pid := 0, parent := none, killed := false,
      imMaster := false, orderOfThread := 0, sharePtr := none}).setShared own
    fun d => {d with numOfThread := d.numOfThread - 1}

/-! ### wait -/

/-- What `wait` looks for. -/
def waitable (s : Kernel) (cur p : Slot) : Bool :=
  (s.proc p).parent = some cur ∧ (s.proc p).state = .zombie ∧ (s.proc p).imMaster

/-- `freevm` of `t`'s directory when its count says that it is the last. -/
def freevmLast (s : Kernel) (t : Slot) : Kernel :=
  match (s.proc t).sharePtr with
  | some a => if (s.shared a).numOfThread = 1 then s.free (s.shared a).pgdir else s
  | none => s

/-- One round of the loop over `threads[]`, for the child `child` whose `sharePtr` is
`own`. The kernel stack given back is the child's, not the entry's. -/
def reapOne (child : Slot) (own : Page) (s : Kernel) (i : Index) : Kernel :=
  match (s.shared own).threads i with
  | none => s
  | some t =>
    if (s.proc t).state = .zombie ∧ (s.proc t).pid ≠ 0 then
      (((((s.free (s.proc child).kstack).setProc child fun x => {x with kstack := none}).freevmLast
        t).setProc t fun x =>
          {x with kstack := none, pid := 0, parent := none, killed := false, state := .unused}).setShared
        own fun d => {d with numOfThread := d.numOfThread - 1})
    else s

def reap (s : Kernel) (child : Slot) (own : Page) : Kernel :=
  (List.finRange 6).foldl (reapOne child own) s

/-! ### sys_kill and exec -/

/-- The second loop of `sys_kill`, for a proc `p` with the pid. -/
def kill (s : Kernel) (p : Slot) : Kernel :=
  s.mapProc fun _ x =>
    if x.sharePtr = (s.proc p).sharePtr then
      {x with killed := true, state := if x.state = .sleeping then .runnable else x.state}
    else x

/-- `free_proc(p)`. With a null `sharePtr` it goes on to `freevm` what it reads
through it. -/
def freeProc (s : Kernel) (p : Slot) : Option Kernel :=
  match (s.proc p).sharePtr with
  | none => none
  | some _ =>
    some ((s.free (s.proc p).kstack).setProc p fun x =>
      {x with
        kstack := none, pid := 0, parent := none, context := none, chan := .addr 0, killed := false,
        state := .unused, sharePtr := none, orderOfThread := 0, retval := 0})

/-- One round of `kill_other_threads(cur)`. Setting `killed` and making a sleeper
`RUNNABLE` is overwritten by `free_proc`. -/
def killOther (cur : Slot) (own : Page) (s : Kernel) (i : Index) : Option Kernel :=
  match (s.shared own).isThere i, (s.shared own).threads i with
  | true, some p => if p = cur then some s else s.freeProc p
  | true, none => none
  | false, _ => some s

def killOtherThreads (s : Kernel) (cur : Slot) (own : Page) : Option Kernel :=
  (List.finRange 6).foldlM (killOther cur own) s

/-- `exec` commits: the new directory is in place, the old one freed. -/
def execCommit (s : Kernel) (cur : Slot) (own : Page) : Kernel :=
  {((s.free (s.shared own).pgdir).setShared own fun d => {d with pgdir := some s.nextPage}).setProc
      cur (fun x => {x with imMaster := true}) with
    nextPage := s.nextPage + 1}

end ThreadKernel.Kernel
