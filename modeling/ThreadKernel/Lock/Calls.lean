import ThreadKernel.Lock.Spinlock
import ThreadKernel.Proc.Kill
import ThreadKernel.Syscall.Args

/-! The calls on the process table, down to their locks.

Each call is its code up to `spinlock.c`: every `acquire` and `release`, and the branches
that lead to a `return`. What it reads is an argument: the machine or the table as it
finds it each time it gets `ptable.lock`, the memory there is, and how often the functions
of `vm.c` call the allocator and print, which take and give back `kmem.lock` and
`cons.lock`. What the sections do to the table is in `Proc.Table`. -/
namespace ThreadKernel.Lock

open Code (Triple bind_ok pure_ok times)

/-! ### proc.c, vm.c and syscall.c -/

def mycpu : Code Unit := fun c =>
  if c.intr then .error (.panic "mycpu called with interrupts enabled\n") else .ok ((), c)

def myproc : Code Unit := do
  pushcli
  mycpu
  popcli

/-- `switchuvm`, past its panics. -/
def switchuvm : Code Unit := do
  pushcli
  mycpu
  popcli

/-- `sched`. The CPU that switches back to the caller is inside the section of its own
`scheduler`. The callers have changed `p->state`, so that `sched running` is no panic of
theirs. -/
def sched : Code Unit := do
  if ← holding .ptable then
    let c ← get
    if c.ncli ≠ 1 then throw (.panic "sched locks")
    else if c.intr then throw (.panic "sched interruptible")
    else set (⟨[.ptable], 1, c.intena, false⟩ : Core)
  else throw (.panic "sched ptable.lock")

def argint (m : Machine) (cur : Slot) (own : Page) (n : Word) : Code (Option Word) := do
  myproc
  myproc
  match m.argint cur own n with
  | .ok x => return some x
  | .error .refused => return none
  | .error .fault => throw .fault

/-- What a call gets from the allocator: the pages there are, how often `kalloc` and `kfree`
are called, and how often `cprintf`. -/
structure Mem where
  frames : List Page
  calls : Nat
  prints : Nat

def Mem.use (mem : Mem) : Code Unit := do
  times mem.calls (brief .kmem)
  times mem.prints (brief .cons)

/-- `allocproc`; whether there is a page for the stack. -/
def allocproc (s : Kernel) (stack : Bool) : Code (Option Slot) := do
  acquire .ptable
  match s.allocproc with
  | none =>
    release .ptable
    return none
  | some (np, _) =>
    release .ptable
    brief .kmem
    return if stack then some np else none

/-! ### The calls -/

def sysKill (m : Machine) (cur : Slot) (own : Page) : Code Int := do
  acquire .ptable
  match ← argint m cur own 0 with
  | none => return -1
  | some pid =>
    release .ptable
    return (m.kernel.sysKill pid).2

/-- `growproc(n)`, for a process as it is found with the lock. -/
def growproc (m : Machine) (own : Page) (n : Word) (mem : Mem) : Code Int := do
  myproc
  acquire .ptable
  mem.use
  match Vm.growproc (m.dir own) (m.size own) n mem.frames with
  | none => throw (.panic "remap")
  | some (_, none) => return -1
  | some (_, some _) =>
    switchuvm
    release .ptable
    return 0

/-- `sys_sbrk`: the arguments are fetched on `m`, `growproc` finds `m'`. -/
def sysSbrk (m m' : Machine) (cur : Slot) (own : Page) (mem : Mem) : Code Int := do
  match ← argint m cur own 0 with
  | none => return -1
  | some n =>
    myproc
    let addr : Int := m.size own
    if (← growproc m' own n mem) < 0 then return -1
    else return addr

/-- What `fork` meets on its way: whether there is a page for the stack and one for the
shared data, how `copyuvm` ends, and the number of open files. -/
structure ForkPath where
  stack : Bool
  page : Bool
  mem : Mem
  copied : Except Stop Bool
  files : Nat

def fork (s : Kernel) (path : ForkPath) : Code Int := do
  myproc
  match ← allocproc s path.stack with
  | none =>
    brief .cons
    return -1
  | some _ =>
    brief .kmem
    if path.page then
      path.mem.use
      match path.copied with
      | .error e => throw e
      | .ok false =>
        brief .cons
        brief .kmem
        return -1
      | .ok true =>
        times path.files (brief .ftable)
        brief .icache
        acquire .ptable
        release .ptable
        return s.nextpid.toInt
    else
      brief .cons
      return -1

/-- One round of the loop of `wait`, and what follows once it has slept. `frees` is how often
`kfree` is called for the child that is found. -/
def waitRound (cur : Slot) (frees : Nat) (s : Kernel) (again : Code Int) : Code Int :=
  match Fin.find? (s.waitable cur) with
  | some child =>
    match (s.proc child).sharePtr with
    | none => throw .fault
    | some _ => do
      times frees (brief .kmem)
      release .ptable
      return (s.proc child).pid.toInt
  | none =>
    if (∀ p, (s.proc p).parent ≠ some cur) ∨ (s.proc cur).killed then do
      release .ptable
      return -1
    else do
      myproc
      sched
      again

/-- The loop of `wait`: it finds `s` now, and the tables of the list each time it has
slept. -/
def waitLoop (cur : Slot) (frees : Nat) (s : Kernel) : List Kernel → Code Int
  | [] => waitRound cur frees s (throw .asleep)
  | s' :: later => waitRound cur frees s (waitLoop cur frees s' later)

def wait (cur : Slot) (frees : Nat) (s : Kernel) (later : List Kernel) : Code Int := do
  myproc
  acquire .ptable
  waitLoop cur frees s later

/-- `thread_create`: `allocproc` finds `s`, the section finds `m`; `buf` is what is pushed on
the new stack, and `stored` says whether the id can be stored. -/
def threadCreate (s : Kernel) (stack : Bool) (m : Machine) (own : Page) (buf : List Bytes.Byte)
    (mem : Mem) (stored : Bool) : Code Int := do
  myproc
  match ← allocproc s stack with
  | none =>
    brief .cons
    return -1
  | some _ =>
    acquire .ptable
    mem.use
    match Vm.createStack (Vm.pushBytes buf m.ram) (m.dir own) (m.size own) mem.frames with
    | .panicked .remap => throw (.panic "remap")
    | .panicked .clearpteu => throw (.panic "clearpteu")
    | .panicked _ => throw .fault
    | .noMemory _ =>
      release .ptable
      return -1
    | .unpushed _ _ _ =>
      release .ptable
      return -1
    | .ok _ _ _ =>
      if stored then
        release .ptable
        return 0
      else throw .fault

def joinRound (cur : Slot) (t : Nat) (stored : Bool) (s : Kernel) (again : Code Int) : Code Int :=
  match Fin.find? (s.joinable cur t) with
  | some p =>
    match stored, (s.proc p).kstack, (s.proc cur).sharePtr with
    | true, some _, some _ => do
      brief .kmem
      release .ptable
      return 0
    | true, none, _ => throw (.panic "kfree: attempt to free null pointer")
    | _, _, _ => throw .fault
  | none => do
    myproc
    sched
    again

/-- The loop of `thread_join`, as the loop of `wait`. -/
def joinLoop (cur : Slot) (t : Nat) (stored : Bool) (s : Kernel) : List Kernel → Code Int
  | [] => joinRound cur t stored s (throw .asleep)
  | s' :: later =>
    joinRound cur t stored s
      (if (s'.proc cur).killed then do
        release .ptable
        return -1
      else joinLoop cur t stored s' later)

/-- `thread_join(t, ..)`; `early` is the table when it looks at `imMaster`. -/
def threadJoin (cur : Slot) (t : Nat) (stored : Bool) (early s : Kernel) (later : List Kernel) :
    Code Int := do
  myproc
  if (early.proc cur).imMaster then
    acquire .ptable
    joinLoop cur t stored s later
  else return -1

def wakeup : Code Unit := do
  acquire .ptable
  release .ptable

/-- `yield`; whether it is switched to again. -/
def yield (again : Bool) : Code Unit := do
  acquire .ptable
  myproc
  sched
  if again then release .ptable
  else throw .asleep

/-! ### What they give back -/

variable {c : Core}
  {m m' : Machine} {own : Page} {cur : Slot} {n : Word} {mem : Mem} {c' : Core} {again : Code Int} {r : Int}

theorem myproc_keeps : Keeps myproc := by
  intro c hc c₁ _ c' h heq
  have hheld : myproc c₁ = (holding .ptable c₁).map fun r => ((), r.2) := rfl
  obtain ⟨c₂, hok, hsame⟩ := holding_eq (h.wf hc) .ptable
  rw [hheld, hok] at heq
  cases heq
  exact h.trans hsame

theorem myproc_ok (hc : c.Wf) : ∃ c', myproc c = .ok ((), c') ∧ c.Same c' := by
  obtain ⟨c₂, hok, hsame⟩ := holding_eq hc .ptable
  refine ⟨c₂, ?_, hsame⟩
  show (holding .ptable c).map (fun r => ((), r.2)) = _
  rw [hok]
  rfl

/-- `sched` is left with one `pushcli`, so that the only lock held is `ptable.lock`: the CPU
it comes back to is like the one it has left. -/
theorem sched_leaves (hc : c.Wf) (h : sched c = .ok ((), c')) :
    c.held = [.ptable] ∧ c.ncli = 1 ∧ c.intr = false ∧ c.Same c' := by
  obtain ⟨_, c₁, hhold, h⟩ := bind_ok.mp h
  obtain ⟨c₂, hhold', hsame⟩ := holding_eq hc .ptable
  rw [hhold'] at hhold
  cases hhold
  by_cases hl : .ptable ∈ c.held
  · rw [if_pos (by simpa using hl)] at h
    obtain ⟨_, _, hget, h⟩ := bind_ok.mp h
    cases hget
    split at h
    · cases h
    · rename_i hone
      split at h
      · cases h
      · rename_i hintr
        cases h
        have hncli : c.ncli = 1 := by
          rw [← hsame.ncli]
          omega
        have hheld : c.held = [.ptable] := by
          have hlen := hc.pushed
          rw [hncli] at hlen
          match hlist : c.held, hl, hlen with
          | [l], hl, _ => rw [List.mem_singleton.mp hl]
        have hmasked := hc.masked (by rw [hncli]; decide)
        exact ⟨hheld, hncli, hmasked, hheld.symm, hncli.symm, hmasked.symm, hsame.intena⟩
  · rw [if_neg (by simpa using hl)] at h
    cases h

theorem sched_keeps : Keeps sched := by
  intro c hc c₁ _ c' h heq
  exact h.trans (sched_leaves (h.wf hc) heq).2.2.2

theorem leave_triple {α : Type} {l : Spinlock} (hc : c.Wf) (hl : l ∉ c.held) (a : α) :
    Triple (c.push l).Same (release l >>= fun _ => pure a) fun _ => c.Same :=
  (release_triple hc hl).seq fun _ => Triple.ret fun _ h => h

theorem Mem.use_keeps (mem : Mem) : Keeps mem.use :=
  ((brief_keeps _).times _).seq fun _ => (brief_keeps _).times _

theorem allocproc_keeps (s : Kernel) (stack : Bool) : Keeps (allocproc s stack) := by
  refine .locked fun c hc hl => ?_
  split
  · exact leave_triple hc hl _
  · exact (release_triple hc hl).seq fun _ => (brief_keeps _ c hc).seq fun _ => Triple.ret fun _ h => h

theorem fork_keeps (s : Kernel) (path : ForkPath) : Keeps (fork s path) := by
  refine myproc_keeps.seq fun _ => (allocproc_keeps s _).seq fun np => ?_
  split
  · exact (brief_keeps _).seq fun _ => .ret _
  · refine (brief_keeps _).seq fun _ => ?_
    split
    · refine path.mem.use_keeps.seq fun _ => ?_
      split
      · exact .stop _
      · exact (brief_keeps _).seq fun _ => (brief_keeps _).seq fun _ => .ret _
      · refine ((brief_keeps _).times _).seq fun _ => (brief_keeps _).seq fun _ => ?_
        exact .locked fun c hc hl => leave_triple hc hl _
    · exact (brief_keeps _).seq fun _ => .ret _

/-- The loop of `wait` leaves by giving the lock back, or sleeps and goes on. -/
theorem waitRound_triple (hc : c.Wf) (hl : .ptable ∉ c.held) (cur : Slot) (frees : Nat) (s : Kernel)
    (h : Triple (c.push .ptable).Same again fun _ => c.Same) :
    Triple (c.push .ptable).Same (waitRound cur frees s again) fun _ => c.Same := by
  unfold waitRound
  split
  · split
    · exact Triple.stop
    · exact (((brief_keeps _).times _).inside hc hl).seq fun _ => leave_triple hc hl _
  · split
    · exact leave_triple hc hl _
    · exact (myproc_keeps.inside hc hl).seq fun _ => (sched_keeps.inside hc hl).seq fun _ => h

theorem waitLoop_triple (hc : c.Wf) (hl : .ptable ∉ c.held) (cur : Slot) (frees : Nat) (s : Kernel)
    (later : List Kernel) :
    Triple (c.push .ptable).Same (waitLoop cur frees s later) fun _ => c.Same := by
  induction later generalizing s with
  | nil => exact waitRound_triple hc hl cur frees s Triple.stop
  | cons s' later ih => exact waitRound_triple hc hl cur frees s (ih s')

theorem wait_keeps (cur : Slot) (frees : Nat) (s : Kernel) (later : List Kernel) :
    Keeps (wait cur frees s later) :=
  myproc_keeps.seq fun _ => .locked fun _ hc hl => waitLoop_triple hc hl cur frees s later

theorem threadCreate_keeps (s : Kernel) (stack : Bool) (m : Machine) (own : Page)
    (buf : List Bytes.Byte) (mem : Mem) (stored : Bool) :
    Keeps (threadCreate s stack m own buf mem stored) := by
  refine myproc_keeps.seq fun _ => (allocproc_keeps s _).seq fun np => ?_
  split
  · exact (brief_keeps _).seq fun _ => .ret _
  · refine .locked fun c hc hl => (mem.use_keeps.inside hc hl).seq fun _ => ?_
    split
    · exact Triple.stop
    · exact Triple.stop
    · exact Triple.stop
    · exact leave_triple hc hl _
    · exact leave_triple hc hl _
    · split
      · exact leave_triple hc hl _
      · exact Triple.stop

theorem joinRound_triple (hc : c.Wf) (hl : .ptable ∉ c.held) (cur : Slot) (t : Nat) (stored : Bool)
    (s : Kernel) (h : Triple (c.push .ptable).Same again fun _ => c.Same) :
    Triple (c.push .ptable).Same (joinRound cur t stored s again) fun _ => c.Same := by
  unfold joinRound
  split
  · split
    · exact ((brief_keeps _).inside hc hl).seq fun _ => leave_triple hc hl _
    · exact Triple.stop
    · exact Triple.stop
  · exact (myproc_keeps.inside hc hl).seq fun _ => (sched_keeps.inside hc hl).seq fun _ => h

theorem joinLoop_triple (hc : c.Wf) (hl : .ptable ∉ c.held) (cur : Slot) (t : Nat) (stored : Bool)
    (s : Kernel) (later : List Kernel) :
    Triple (c.push .ptable).Same (joinLoop cur t stored s later) fun _ => c.Same := by
  induction later generalizing s with
  | nil => exact joinRound_triple hc hl cur t stored s Triple.stop
  | cons s' later ih =>
    refine joinRound_triple hc hl cur t stored s ?_
    split
    · exact leave_triple hc hl _
    · exact ih s'

theorem threadJoin_keeps (cur : Slot) (t : Nat) (stored : Bool) (early s : Kernel)
    (later : List Kernel) : Keeps (threadJoin cur t stored early s later) := by
  refine myproc_keeps.seq fun _ => ?_
  split
  · exact .locked fun c hc hl => joinLoop_triple hc hl cur t stored s later
  · exact .ret _

theorem wakeup_keeps : Keeps wakeup := brief_keeps _

theorem yield_keeps (again : Bool) : Keeps (yield again) := by
  refine .locked fun c hc hl => (myproc_keeps.inside hc hl).seq fun _ =>
    (sched_keeps.inside hc hl).seq fun _ => ?_
  split
  · exact release_triple hc hl
  · exact Triple.stop

/-! ### The two early returns -/

/-- What `argint` hands on to its caller. -/
def Fetches (m : Machine) (cur : Slot) (own : Page) (n : Word) : Option Word → Prop
  | some x => m.argint cur own n = .ok x
  | none => m.argint cur own n = .error .refused

theorem argint_triple (hc : c.Wf) (m : Machine) (cur : Slot) (own : Page) (n : Word) :
    Triple c.Same (argint m cur own n) fun r c' => Fetches m cur own n r ∧ c.Same c' := by
  refine (myproc_keeps c hc).seq fun _ => (myproc_keeps c hc).seq fun _ => ?_
  split
  · rename_i x hx
    exact Triple.ret fun _ h => ⟨hx, h⟩
  · rename_i hx
    exact Triple.ret fun _ h => ⟨hx, h⟩
  · exact Triple.stop

theorem argint_run (hc : c.Wf) {r : Option Word}
    (h : Fetches m cur own n r) : ∃ c', argint m cur own n c = .ok (r, c') ∧ c.Same c' := by
  obtain ⟨c₁, hok₁, hsame₁⟩ := myproc_ok hc
  obtain ⟨c₂, hok₂, hsame₂⟩ := myproc_ok (hsame₁.wf hc)
  refine ⟨c₂, bind_ok.mpr ⟨(), c₁, hok₁, bind_ok.mpr ⟨(), c₂, hok₂, ?_⟩⟩, hsame₁.trans hsame₂⟩
  cases r with
  | some x => rw [show m.argint cur own n = .ok x from h]; rfl
  | none => rw [show m.argint cur own n = .error .refused from h]; rfl

theorem sysKill_keeps (h : ¬ Fetches m cur own 0 none) :
    Keeps (sysKill m cur own) := by
  refine .locked fun c hc hl => (argint_triple (hc.push hl) m cur own 0).bind fun r => .pull fun hr => ?_
  cases r with
  | none => exact absurd hr h
  | some pid => exact leave_triple hc hl _

theorem growproc_keeps
    (h : Vm.GrowFits (m.dir own) (m.size own) n mem.frames) : Keeps (growproc m own n mem) := by
  refine myproc_keeps.seq fun _ => .locked fun c hc hl => (mem.use_keeps.inside hc hl).seq fun _ => ?_
  split
  · exact Triple.stop
  · rename_i d heq
    exact absurd h (Vm.growproc_fails_iff.mp ⟨d, heq⟩)
  · exact (myproc_keeps.inside hc hl).seq fun _ => leave_triple hc hl _

theorem sysSbrk_keeps
    (h : ∀ n, Fetches m cur own 0 (some n) → Vm.GrowFits (m'.dir own) (m'.size own) n mem.frames) :
    Keeps (sysSbrk m m' cur own mem) := by
  intro c hc
  refine (argint_triple hc m cur own 0).bind fun r => .pull fun hr => ?_
  cases r with
  | none => exact Triple.ret fun _ h => h
  | some n =>
    refine (myproc_keeps c hc).seq fun _ => (growproc_keeps (h n hr) c hc).seq fun _ => ?_
    split <;> exact Triple.ret fun _ h => h

/-- None of the locks that the calls take is held. -/
def Core.Clear (c : Core) : Prop :=
  .ptable ∉ c.held ∧ .kmem ∉ c.held ∧ .cons ∉ c.held

theorem Core.push_clear (hc : c.Clear) : .kmem ∉ (c.push .ptable).held ∧ .cons ∉ (c.push .ptable).held := by
  simp only [Core.push, List.mem_cons, reduceCtorEq, false_or]
  exact hc.2

theorem Mem.use_run (mem : Mem) (hc : c.Wf) (hkmem : .kmem ∉ c.held) (hcons : .cons ∉ c.held) :
    ∃ c', mem.use c = .ok ((), c') ∧ c.Same c' := by
  obtain ⟨c₁, hok₁, hsame₁⟩ := times_brief_ok hc hkmem mem.calls
  obtain ⟨c₂, hok₂, hsame₂⟩ := times_brief_ok (hsame₁.wf hc) (by rw [hsame₁.held]; exact hcons) mem.prints
  exact ⟨c₂, bind_ok.mpr ⟨(), c₁, hok₁, hok₂⟩, hsame₁.trans hsame₂⟩

/-- `sys_kill` without an argument returns with the lock. -/
theorem sysKill_keeps_lock (hc : c.Wf) (hclear : c.Clear) (h : Fetches m cur own 0 none) :
    ∃ c', sysKill m cur own c = .ok (-1, c') ∧ (c.push .ptable).Same c' := by
  obtain ⟨c₁, hok₁, hsame₁⟩ := acquire_ok hc hclear.1
  obtain ⟨c₂, hok₂, hsame₂⟩ := argint_run (hsame₁.wf (hc.push hclear.1)) h
  exact ⟨c₂, bind_ok.mpr ⟨(), c₁, hok₁, bind_ok.mpr ⟨none, c₂, hok₂, rfl⟩⟩, hsame₁.trans hsame₂⟩

/-- `growproc` without what it asks for returns with the lock. -/
theorem growproc_keeps_lock (hc : c.Wf) (hclear : c.Clear)
    (h : ¬ Vm.GrowFits (m.dir own) (m.size own) n mem.frames) :
    ∃ c', growproc m own n mem c = .ok (-1, c') ∧ (c.push .ptable).Same c' := by
  obtain ⟨d, hgrow⟩ := Vm.growproc_fails_iff.mpr h
  obtain ⟨c₁, hok₁, hsame₁⟩ := myproc_ok hc
  obtain ⟨c₂, hok₂, hsame₂⟩ := acquire_ok (hsame₁.wf hc) (by rw [hsame₁.held]; exact hclear.1)
  have hsame₂ := (hsame₁.push .ptable).trans hsame₂
  obtain ⟨c₃, hok₃, hsame₃⟩ := mem.use_run (hsame₂.wf (hc.push hclear.1))
    (by rw [hsame₂.held]; exact (Core.push_clear hclear).1)
    (by rw [hsame₂.held]; exact (Core.push_clear hclear).2)
  refine ⟨c₃, bind_ok.mpr ⟨(), c₁, hok₁, bind_ok.mpr ⟨(), c₂, hok₂, bind_ok.mpr ⟨(), c₃, hok₃, ?_⟩⟩⟩,
    hsame₂.trans hsame₃⟩
  rw [hgrow]
  rfl

theorem sysSbrk_keeps_lock (hc : c.Wf) (hclear : c.Clear) (hn : Fetches m cur own 0 (some n))
    (h : ¬ Vm.GrowFits (m'.dir own) (m'.size own) n mem.frames) :
    ∃ c', sysSbrk m m' cur own mem c = .ok (-1, c') ∧ (c.push .ptable).Same c' := by
  obtain ⟨c₁, hok₁, hsame₁⟩ := argint_run hc hn
  obtain ⟨c₂, hok₂, hsame₂⟩ := myproc_ok (hsame₁.wf hc)
  have hsame₂ := hsame₁.trans hsame₂
  have hclear₂ : c₂.Clear := by
    unfold Core.Clear
    rw [hsame₂.held]
    exact hclear
  obtain ⟨c₃, hok₃, hsame₃⟩ := growproc_keeps_lock (hsame₂.wf hc) hclear₂ h
  exact ⟨c₃, bind_ok.mpr ⟨some n, c₁, hok₁, bind_ok.mpr ⟨(), c₂, hok₂, bind_ok.mpr ⟨-1, c₃, hok₃, rfl⟩⟩⟩,
    (hsame₂.push .ptable).trans hsame₃⟩

/-! ### The locks of the other machines -/

/-- What `Kernel.step` says of the lock after `sys_kill`. -/
theorem sysKill_lock {cpu : Nat} (hc : c.Wf) (hl : .ptable ∉ c.held) (hlock : m.kernel.lock = none)
    (h : sysKill m cur own c = .ok (r, c')) :
    ∃ s', m.kernel.killCall cpu .user (m.argint cur own 0).toOption = some (s', .quiet) ∧
      (s'.lock = some cpu ↔ .ptable ∈ c'.held) := by
  obtain ⟨_, c₁, hacq, h⟩ := bind_ok.mp h
  have hsame := acquire_triple hc hl c _ c₁ (.refl c) hacq
  obtain ⟨x, c₂, harg, h⟩ := bind_ok.mp h
  obtain ⟨hx, hsame⟩ := argint_triple (hc.push hl) m cur own 0 c₁ x c₂ hsame harg
  cases x with
  | none =>
    obtain ⟨-, rfl⟩ := pure_ok.mp h
    rw [show m.argint cur own 0 = .error .refused from hx]
    refine ⟨_, rfl, iff_of_true rfl ?_⟩
    rw [hsame.held]
    exact List.mem_cons_self
  | some pid =>
    have hsame := leave_triple hc hl _ c₂ r c' hsame h
    rw [show m.argint cur own 0 = .ok pid from hx]
    refine ⟨_, Kernel.killCall_eq _ _ _, iff_of_false ?_ ?_⟩
    · rw [Kernel.sysKill_lock, hlock]
      nofun
    · rw [hsame.held]
      exact hl

/-- What `Vm.State.step` says of it after `growproc`. -/
theorem growproc_stuck {p : Slot} {addr : Nat}
    {s : Vm.State} (hc : c.Wf) (hl : .ptable ∉ c.held) (hs : s.stuck = false)
    (hdir : s.dirOf own = m.dir own) (hsz : (s.space own).sz = m.size own)
    (h : growproc m own n mem c = .ok (r, c')) :
    (s.growStep p own addr n mem.frames).1.stuck = true ↔ .ptable ∈ c'.held := by
  obtain ⟨_, c₁, hproc, h⟩ := bind_ok.mp h
  obtain ⟨_, c₂, hacq, h⟩ := bind_ok.mp h
  obtain ⟨_, c₃, huse, h⟩ := bind_ok.mp h
  have hsame := myproc_keeps c hc c _ c₁ (.refl c) hproc
  have hsame := acquire_triple hc hl c₁ _ c₂ hsame hacq
  have hsame := mem.use_keeps.inside hc hl c₂ _ c₃ hsame huse
  unfold Vm.State.growStep
  rw [hdir, hsz]
  match hgrow : Vm.growproc (m.dir own) (m.size own) n mem.frames with
  | none =>
    rw [hgrow] at h
    cases h
  | some (d, none) =>
    rw [hgrow] at h
    obtain ⟨-, rfl⟩ := pure_ok.mp h
    refine iff_of_true rfl ?_
    rw [hsame.held]
    exact List.mem_cons_self
  | some (d, some sz) =>
    rw [hgrow] at h
    obtain ⟨_, c₄, hswitch, h⟩ := bind_ok.mp h
    have hsame := myproc_keeps.inside hc hl c₃ _ c₄ hsame hswitch
    have hsame := leave_triple hc hl _ c₄ r c' hsame h
    refine iff_of_false ?_ ?_
    · simp [Vm.State.setDir, Vm.State.setSz, Vm.State.setCall, hs]
    · rw [hsame.held]
      exact hl

/-! ### All of them -/

/-- A call with everything it is given and meets. -/
inductive Call where
  | sysKill (m : Machine) (cur : Slot) (own : Page)
  | sysSbrk (m m' : Machine) (cur : Slot) (own : Page) (mem : Mem)
  | fork (s : Kernel) (path : ForkPath)
  | wait (cur : Slot) (frees : Nat) (s : Kernel) (later : List Kernel)
  | threadCreate (s : Kernel) (stack : Bool) (m : Machine) (own : Page) (buf : List Bytes.Byte)
      (mem : Mem) (stored : Bool)
  | threadJoin (cur : Slot) (t : Nat) (stored : Bool) (early s : Kernel) (later : List Kernel)
  | wakeup
  | yield (again : Bool)

namespace Call

/-- The code of a call; `wakeup` and `yield` have no result. -/
def code : Call → Code Int
  | sysKill m cur own => Lock.sysKill m cur own
  | sysSbrk m m' cur own mem => Lock.sysSbrk m m' cur own mem
  | fork s path => Lock.fork s path
  | wait cur frees s later => Lock.wait cur frees s later
  | threadCreate s stack m own buf mem stored => Lock.threadCreate s stack m own buf mem stored
  | threadJoin cur t stored early s later => Lock.threadJoin cur t stored early s later
  | wakeup => Lock.wakeup >>= fun _ => pure 0
  | yield again => Lock.yield again >>= fun _ => pure 0

/-- If it returns, it returns without `ptable.lock` and at the depth it was called at. -/
def Balanced (k : Call) (c : Core) : Prop :=
  ∀ r c', k.code c = .ok (r, c') → .ptable ∉ c'.held ∧ c'.ncli = c.ncli

/-- What a call needs so that it leaves its section: `sys_kill` an argument it can fetch,
`sbrk` the memory it asks for and a size that is not zero. -/
def Clean : Call → Prop
  | sysKill m cur own => m.argint cur own 0 ≠ .error .refused
  | sysSbrk m m' cur own mem => ∀ n, m.argint cur own 0 = .ok n →
      Vm.GrowFits (m'.dir own) (m'.size own) n mem.frames
  | fork _ _ | wait _ _ _ _ | threadCreate _ _ _ _ _ _ _ | threadJoin _ _ _ _ _ _ | wakeup
  | yield _ => True

theorem Clean.keeps {k : Call} (h : k.Clean) : Keeps k.code := by
  cases k with
  | sysKill m cur own => exact sysKill_keeps h
  | sysSbrk m m' cur own mem => exact sysSbrk_keeps h
  | fork s path => exact fork_keeps s path
  | wait cur frees s later => exact wait_keeps cur frees s later
  | threadCreate s stack m own buf mem stored => exact threadCreate_keeps s stack m own buf mem stored
  | threadJoin cur t stored early s later => exact threadJoin_keeps cur t stored early s later
  | wakeup => exact wakeup_keeps.seq fun _ => .ret _
  | yield again => exact (yield_keeps again).seq fun _ => .ret _

theorem returns_of_not_clean {k : Call} (hc : c.Wf) (hclear : c.Clear) (h : ¬ k.Clean) :
    ∃ c', k.code c = .ok (-1, c') ∧ (c.push .ptable).Same c' := by
  cases k with
  | sysKill m cur own => exact sysKill_keeps_lock hc hclear (not_not.mp h)
  | sysSbrk m m' cur own mem =>
    simp only [Clean, not_forall] at h
    obtain ⟨n, hn, hfits⟩ := h
    exact sysSbrk_keeps_lock hc hclear hn hfits
  | fork | wait | threadCreate | threadJoin | wakeup | yield => exact absurd trivial h

end Call

/-- From a CPU that holds none of the locks involved, a call that returns does so without
`ptable.lock` and at the depth it was called at, for every call other than a `sys_kill`
whose argument cannot be fetched and an `sbrk` that does not get what it asks for: these
return with the lock. -/
theorem balanced_iff_clean (k : Call) {c : Core} (hc : c.Wf) (hclear : c.Clear) :
    k.Balanced c ↔ k.Clean := by
  constructor
  · intro hbal
    by_contra hnot
    obtain ⟨c', hok, hsame⟩ := Call.returns_of_not_clean hc hclear hnot
    refine (hbal (-1) c' hok).1 ?_
    rw [hsame.held]
    exact List.mem_cons_self
  · intro hclean r c' hok
    have hsame := hclean.keeps c hc c r c' (.refl c) hok
    rw [hsame.held]
    exact ⟨hclear.1, hsame.ncli⟩

/-- A process of `n` pages, its frames numbered as they are mapped, with the word at 4
made of `bytes`. -/
def sample (n : Nat) (esp : Word) (bytes : List Bytes.Byte) : Machine where
  kernel := Kernel.boot
  size := fun _ => n * PGSIZE
  dir := fun _ => ⟨fun i => i = 0, fun v => if v < n then some ⟨v, true⟩ else none⟩
  ram := fun a => bytes.getD (a.2 - 4) 0
  tf := fun _ => ⟨0, esp, 0⟩

def fresh : Core := ⟨[], 0, true, true⟩

theorem fresh_wf : fresh.Wf := ⟨nofun, by decide, by decide⟩

theorem fresh_clear : fresh.Clear := ⟨nofun, nofun, nofun⟩

/-- A process of two pages calls `sbrk(-4096)`: it returns 8192 without the lock. -/
theorem balanced_iff_clean_shrink : ∃ (k : Call) (c c' : Core), k.Clean ∧ k.Balanced c ∧
    k.code c = .ok (8192, c') ∧ c.ncli = 0 ∧ c'.ncli = 0 ∧ c'.held = [] := by
  have hargint : (sample 2 0 [0, 0xf0, 0xff, 0xff]).argint 0 1 0 = .ok 0xfffff000 := by decide +kernel
  have hclean : (Call.sysSbrk (sample 2 0 [0, 0xf0, 0xff, 0xff]) (sample 2 0 [0, 0xf0, 0xff, 0xff])
      0 1 ⟨[], 1, 0⟩).Clean := by
    intro n hn
    cases hn
    decide
  refine ⟨_, fresh, fresh, hclean, (balanced_iff_clean _ fresh_wf fresh_clear).mpr hclean, ?_, rfl, rfl,
    rfl⟩
  decide +kernel

/-- A process of one page with its stack pointer at the end of it calls `sys_kill`, and one
calls `sbrk(0x7fffffff)`: both return -1 with the lock. -/
theorem returns_with_lock : ∃ (m : Machine) (c c' : Core), c.held = [] ∧ c.ncli = 0 ∧
    sysKill m 0 1 c = .ok (-1, c') ∧ .ptable ∈ c'.held ∧ c'.ncli = 1 ∧
    ∃ (m : Machine) (c' : Core), m.argint 0 1 0 = .ok 0x7fffffff ∧
      sysSbrk m m 0 1 ⟨[], 0, 0⟩ c = .ok (-1, c') ∧ .ptable ∈ c'.held ∧ c'.ncli = 1 := by
  have hrefused : Fetches (sample 1 4096 []) 0 1 0 none := rfl
  have hargint : (sample 1 0 [0xff, 0xff, 0xff, 0x7f]).argint 0 1 0 = .ok 0x7fffffff := by
    decide +kernel
  have hfits : ¬ Vm.GrowFits ((sample 1 0 [0xff, 0xff, 0xff, 0x7f]).dir 1)
      ((sample 1 0 [0xff, 0xff, 0xff, 0x7f]).size 1) 0x7fffffff (Mem.mk [] 0 0).frames :=
    fun h => absurd (h.1 (by decide)).1 (by decide)
  obtain ⟨c₁, hkill, hsame₁⟩ := sysKill_keeps_lock fresh_wf fresh_clear hrefused
  obtain ⟨c₂, hsbrk, hsame₂⟩ := sysSbrk_keeps_lock fresh_wf fresh_clear hargint hfits
  refine ⟨_, _, c₁, rfl, rfl, hkill, ?_, hsame₁.ncli, _, c₂, hargint, hsbrk, ?_, hsame₂.ncli⟩
  · rw [hsame₁.held]
    exact List.mem_cons_self
  · rw [hsame₂.held]
    exact List.mem_cons_self

end ThreadKernel.Lock
