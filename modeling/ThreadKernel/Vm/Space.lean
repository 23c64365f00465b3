import ThreadKernel.Vm.Copy
import ThreadKernel.Library.Run

/-! The address spaces of the processes, step by step.

`sharePtr->sz` and the directory `sharePtr->pgdir` points at, with the calls that read
and write them: `sbrk`, `thread_create`, `fork` and `exec`. A section of `ptable.lock` is
one step; what runs without the lock is cut at every access to what the threads of a
process share: the read of `sz` in `sys_sbrk`, each page `copyuvm` copies, the second
read of `sz` in `fork`, the two stores of `exec` and its `freevm`. The directories that
`fork` and `exec` build are their own until they are published. The `freevm` of `wait`,
for a process that has ended, is not a step here. `exec` and `exit` stop the other threads,
but for those that another CPU runs at that time and those in the making. -/
namespace ThreadKernel.Vm

open Function

inductive Panic where
  | remap
  /-- `copyuvm: pte should exist` -/
  | copyPte
  /-- `copyuvm: page not present` -/
  | copyPage
  | clearpteu
  /-- No panic: `uva2ka` has followed a null pointer. -/
  | nullPte
  deriving DecidableEq, Repr

/-! ### The sections -/

/-- `growproc(n)`: the directory it leaves and the new size; without one it returns -1.
`none` is the `remap` panic. -/
def growproc (d : Pgdir) (sz : Nat) (n : Word) (frames : List Page) : Option (Pgdir × Option Nat) :=
  if 0 < n.toInt then
    (allocuvm d sz ((sz + n.toNat) % 2 ^ 32) frames).map fun x =>
      (x.1, if x.2 = 0 then none else some x.2)
  else if n.toInt < 0 then
    let x := deallocuvm d sz ((sz + n.toNat) % 2 ^ 32)
    some (x.1, if x.2 = 0 then none else some x.2)
  else some (d, some sz)

/-- When `growproc(n)` gets what it wants: for a larger size, an address below `KERNBASE`
and the memory for it; for a smaller one, anything but the size zero. -/
def GrowFits (d : Pgdir) (sz : Nat) (n : Word) (frames : List Page) : Prop :=
  let newsz := (sz + n.toNat) % 2 ^ 32
  (0 < n.toInt → newsz < KERNBASE ∧
    (sz ≤ newsz → asks (pages newsz - pages sz) (pages sz) d ≤ frames.length)) ∧
  (n.toInt < 0 → if sz ≤ newsz then sz ≠ 0 else newsz ≠ 0)

instance (d : Pgdir) (sz : Nat) (n : Word) (frames : List Page) : Decidable (GrowFits d sz n frames) :=
  inferInstanceAs (Decidable (_ ∧ _))

theorem allocuvm_zero_iff {d : Pgdir} {sz newsz : Nat} {frames : List Page} (hpos : 0 < newsz ∨ 0 < sz) :
    (∃ d', allocuvm d sz newsz frames = some (d', 0)) ↔
      KERNBASE ≤ newsz ∨
        (sz ≤ newsz ∧ frames.length < asks (pages newsz - pages sz) (pages sz) d) := by
  unfold allocuvm
  split
  · rename_i hkern
    exact ⟨fun _ => .inl hkern, fun _ => ⟨d, rfl⟩⟩
  · rename_i hkern
    split
    · rename_i hlt
      constructor
      · intro ⟨d', heq⟩
        simp only [Option.some.injEq, Prod.mk.injEq] at heq
        omega
      · intro h
        omega
    · rename_i hge
      rw [← allocPages_noMemory_iff]
      cases halloc : allocPages (pages newsz - pages sz) (pages sz) d frames with
      | remap => simp [hkern]
      | noMemory d' => simp [hkern, Nat.le_of_not_lt hge]
      | ok d' =>
        simp only [hkern, Option.some.injEq, Prod.mk.injEq, false_or]
        constructor
        · intro ⟨_, _, hzero⟩
          omega
        · intro ⟨_, _, heq⟩
          cases heq

theorem growproc_fails_iff {d : Pgdir} {sz : Nat} {n : Word} {frames : List Page} :
    (∃ d', growproc d sz n frames = some (d', none)) ↔ ¬ GrowFits d sz n frames := by
  have hn : n.toInt = if 2 * n.toNat < 2 ^ 32 then (n.toNat : Int) else n.toNat - 2 ^ 32 :=
    BitVec.toInt_eq_toNat_cond n
  unfold growproc GrowFits
  by_cases hpos : 0 < n.toInt
  · have hnew : 0 < (sz + n.toNat) % 2 ^ 32 ∨ 0 < sz := by
      rw [hn] at hpos
      split at hpos <;> omega
    have hzero := @allocuvm_zero_iff d sz _ frames hnew
    simp only [hpos, if_true, show ¬ n.toInt < 0 by omega, forall_const, false_imp_iff, and_true,
      not_and_or, Classical.not_imp, Nat.not_lt, Nat.not_le] at hzero ⊢
    rw [← hzero]
    cases allocuvm d sz ((sz + n.toNat) % 2 ^ 32) frames with
    | none => simp
    | some x =>
      obtain ⟨d', r⟩ := x
      by_cases hr : r = 0 <;> simp [hr]
  · by_cases hneg : n.toInt < 0
    · simp only [hpos, hneg, if_true, if_false, false_imp_iff, true_and, forall_const]
      unfold deallocuvm
      split <;> rename_i hle
      · simp
      · simp
    · simp [hpos, hneg]

inductive Stacked (α : Type) where
  | ok (d : Pgdir) (sz : Nat) (x : α)
  /-- `copyout` failed, with the new size stored. -/
  | unpushed (d : Pgdir) (sz : Nat) (x : α)
  | noMemory (d : Pgdir)
  | panicked (w : Panic)

/-- The stack `thread_create` makes: a page without `PTE_U` and a page for what it pushes
below the new size. -/
def createStack {α : Type} (push : Pgdir → Nat → Copied α) (d : Pgdir) (sz : Nat)
    (frames : List Page) : Stacked α :=
  match allocuvm d sz (sz + 2 * PGSIZE) frames with
  | none => .panicked .remap
  | some (d', r) =>
    if r = 0 then .noMemory d'
    else
      match clearpteu d' ((r - 2 * PGSIZE) / PGSIZE) with
      | none => .panicked .clearpteu
      | some d'' =>
        match push d'' r with
        | .ok x => .ok d'' r x
        | .failed x => .unpushed d'' r x
        | .wild => .panicked .nullPte

/-- `copyout` of bytes that end at `r`. -/
def pushBytes (buf : List Bytes.Byte) (ram : Ram) (d : Pgdir) (r : Nat) : Copied Ram :=
  copyout d (r - buf.length) buf ram

/-- A program segment as `exec` loads it: `ph.vaddr + ph.memsz`, the memory there is for
it, and whether it is aligned and can be read. -/
structure Segment where
  newsz : Nat
  frames : List Page
  loads : Bool

/-- The loop of `exec` over the segments; `some none` is `goto bad`, `none` a panic. -/
def loadSegments : List Segment → Pgdir → Nat → Option (Option (Pgdir × Nat))
  | [], d, sz => some (some (d, sz))
  | g :: gs, d, sz =>
    match allocuvm d sz g.newsz g.frames with
    | none => none
    | some (d', r) => if r = 0 ∨ g.loads = false then some none else loadSegments gs d' r

/-- An image: its segments, the memory for the stack, and whether the arguments fit. -/
structure Image where
  segments : List Segment
  frames : List Page
  pushes : Bool

/-- The directory and the size that `exec` prepares. -/
def buildImage (im : Image) : Option (Option (Pgdir × Nat)) :=
  match loadSegments im.segments .empty 0 with
  | some (some (d, sz)) =>
    match allocuvm d (pages sz * PGSIZE) (pages sz * PGSIZE + 2 * PGSIZE) im.frames with
    | none => none
    | some (d', r) =>
      if r = 0 then some none
      else
        match clearpteu d' ((r - 2 * PGSIZE) / PGSIZE) with
        | none => none
        | some d'' => if im.pushes then some (some (d'', r)) else some none
  | x => x

/-! ### The machine -/

/-- Where a thread stands in a call. -/
inductive Call where
  | idle
  /-- `sys_sbrk(n)` has read `addr`. -/
  | sbrk (addr : Nat) (n : Word)
  /-- `copyuvm(src, limit)` is at page `v` and has built `d`. -/
  | forkCopy (src limit v : Nat) (d : Pgdir)
  /-- `copyuvm` has returned `d`; `np->sharePtr->sz` is not set. -/
  | forkSize (d : Pgdir)
  | forkPublish (d : Pgdir) (sz : Nat)
  /-- After `kill_other_threads`. -/
  | execing
  /-- The new image is built. -/
  | execDir (d : Pgdir) (sz : Nat)
  /-- `sharePtr->pgdir` is stored. -/
  | execSz (sz old : Nat)
  /-- `sharePtr->sz` is stored too. -/
  | execFree (old : Nat)

/-- The memory half of `struct sharedData`; directories have numbers. -/
structure Space where
  pgdir : Nat
  sz : Nat

structure State where
  dir : Nat → Pgdir
  space : Page → Space
  /-- The live threads: their process, and where they stand. -/
  thread : Slot → Option (Page × Call)
  /-- `ptable.lock` is held for good. -/
  stuck : Bool
  nextDir : Nat
  nextSpace : Page

inductive Event where
  | quiet
  /-- `sys_sbrk(n)` by `p` has read `sz`. -/
  | asked (p : Slot) (n : Word)
  /-- `sbrk(n)` by `p` returned `addr`. -/
  | grown (p : Slot) (own : Page) (addr : Nat) (n : Word)
  | growFailed (p : Slot)
  /-- `thread_create` by `p` succeeded; the stack is the two pages from `base` on. -/
  | created (p : Slot) (own : Page) (base : Nat)
  | createFailed (p : Slot)
  /-- `exec` by `p` has run `kill_other_threads`, which got hold of `gone`, with `running`
  `RUNNING` or `EMBRYO`. -/
  | killedOthers (p : Slot) (gone running : List Slot)
  /-- `exit` by `p`, with `running` `RUNNING` or `EMBRYO`. -/
  | exited (p : Slot) (running : List Slot)
  | panicked (w : Panic)
  deriving DecidableEq, Repr

/-- What a thread does next; `frames` is the memory there is. -/
inductive Op where
  | sbrk (p : Slot) (n : Word)
  | grow (p : Slot) (frames : List Page)
  | threadCreate (p np : Slot) (frames : List Page)
  /-- `fork` up to the call of `copyuvm`; whether `setupkvm` succeeds. -/
  | fork (p : Slot) (ok : Bool)
  | forkPage (p : Slot) (frames : List Page)
  | forkSize (p : Slot)
  | forkPublish (p np : Slot)
  /-- `kill_other_threads`, which gets hold of the siblings in `gone`; those in `running` go
  on. -/
  | exec (p : Slot) (gone running : List Slot)
  | execBuild (p : Slot) (im : Image)
  | execDir (p : Slot)
  | execSz (p : Slot)
  | execFree (p : Slot)
  | threadExit (p : Slot)
  | exit (p : Slot) (running : List Slot)

namespace State

def dirOf (s : State) (own : Page) : Pgdir := s.dir (s.space own).pgdir

/-- The directory of `own` changed in place. -/
def setDir (s : State) (own : Page) (d : Pgdir) : State :=
  {s with dir := update s.dir (s.space own).pgdir d}

def setSz (s : State) (own : Page) (sz : Nat) : State :=
  {s with space := update s.space own {s.space own with sz := sz}}

def setCall (s : State) (p : Slot) (own : Page) (k : Call) : State :=
  {s with thread := update s.thread p (some (own, k))}

/-- The threads of `own` among `gone`, `p` excepted, are no more. -/
def without (s : State) (p : Slot) (own : Page) (gone : Slot → Bool) : State :=
  {s with thread := fun q =>
    if q ≠ p ∧ gone q ∧ (s.thread q).map Prod.fst = some own then none else s.thread q}

theorem thread_of_without {s : State} {p q : Slot} {own : Page} {gone : Slot → Bool} {x : Page × Call}
    (h : (s.without p own gone).thread q = some x) : s.thread q = some x := by
  simp only [without] at h
  split at h
  · cases h
  · exact h

def growStep (s : State) (p : Slot) (own : Page) (addr : Nat) (n : Word) (frames : List Page) :
    State × Event :=
  match growproc (s.dirOf own) (s.space own).sz n frames with
  | none => (s, .panicked .remap)
  -- the early return keeps the lock
  | some (d, none) => ({(s.setDir own d).setCall p own .idle with stuck := true}, .growFailed p)
  | some (d, some sz) => (((s.setDir own d).setSz own sz).setCall p own .idle, .grown p own addr n)

/-- The stack of a new thread; the two words on it and what is in the memory are not part
of this machine. -/
def newStack (s : State) (own : Page) (frames : List Page) : Stacked Ram :=
  createStack (pushBytes (.replicate 8 0) fun _ => 0) (s.dirOf own) (s.space own).sz frames

def createStep (s : State) (p np : Slot) (own : Page) (frames : List Page) : State × Event :=
  match s.newStack own frames with
  | .panicked w => (s, .panicked w)
  | .noMemory d => (s.setDir own d, .createFailed p)
  | .unpushed d sz _ => ((s.setDir own d).setSz own sz, .createFailed p)
  | .ok d sz _ =>
    (((s.setDir own d).setSz own sz).setCall np own .idle, .created p own (s.space own).sz)

/-- One round of the loop of `copyuvm`. -/
def copyStep (s : State) (p : Slot) (own : Page) (src limit v : Nat) (d : Pgdir)
    (frames : List Page) : State × Event :=
  if v < pages limit then
    match (s.dir src).walk v with
    | none => (s, .panicked .copyPte)
    | some none => (s, .panicked .copyPage)
    | some (some x) =>
      match frames with
      | [] => (s.setCall p own .idle, .quiet)
      | pa :: rest =>
        match mappages d v ⟨pa, x.user⟩ rest with
        | .ok d' _ => (s.setCall p own (.forkCopy src limit (v + 1) d'), .quiet)
        | .noMemory => (s.setCall p own .idle, .quiet)
        | .remap => (s, .panicked .remap)
  else (s.setCall p own (.forkSize d), .quiet)

/-- The child is `RUNNABLE`, with a directory and a page of its own. -/
def publish (s : State) (p np : Slot) (own : Page) (d : Pgdir) (sz : Nat) : State :=
  {((s.setCall p own .idle).setCall np s.nextSpace .idle) with
    dir := update s.dir s.nextDir d
    space := update s.space s.nextSpace ⟨s.nextDir, sz⟩
    nextDir := s.nextDir + 1
    nextSpace := s.nextSpace + 1}

def buildStep (s : State) (p : Slot) (own : Page) (im : Image) : State × Event :=
  match buildImage im with
  | none => (s, .panicked .remap)
  | some none => (s.setCall p own .idle, .quiet)
  | some (some (d, sz)) => (s.setCall p own (.execDir d sz), .quiet)

/-- `sharePtr->pgdir = pgdir`. -/
def storeDir (s : State) (p : Slot) (own : Page) (d : Pgdir) (sz : Nat) : State :=
  {s.setCall p own (.execSz sz (s.space own).pgdir) with
    dir := update s.dir s.nextDir d
    space := update s.space own {s.space own with pgdir := s.nextDir}
    nextDir := s.nextDir + 1}

/-- The calls that need `ptable.lock`. -/
def locked (s : State) : Op → Option (State × Event)
  | .grow p frames =>
    match s.thread p with
    | some (own, .sbrk addr n) => some (s.growStep p own addr n frames)
    | _ => none
  | .threadCreate p np frames =>
    match s.thread p, s.thread np with
    | some (own, .idle), none => some (s.createStep p np own frames)
    | _, _ => none
  -- `allocproc` comes first
  | .fork p ok =>
    match s.thread p with
    | some (own, .idle) =>
      some (if ok then s.setCall p own (.forkCopy (s.space own).pgdir (s.space own).sz 0 .empty) else s,
        .quiet)
    | _ => none
  | .forkPublish p np =>
    match s.thread p, s.thread np with
    | some (own, .forkPublish d sz), none => some (s.publish p np own d sz, .quiet)
    | _, _ => none
  | .exec p gone running =>
    match s.thread p with
    | some (own, .idle) =>
      some ((s.without p own fun q => gone.contains q && !running.contains q).setCall p own .execing,
        .killedOthers p gone running)
    | _ => none
  | .threadExit p =>
    match s.thread p with
    | some (_, .idle) => some ({s with thread := update s.thread p none}, .quiet)
    | _ => none
  | .exit p running =>
    match s.thread p with
    | some (own, .idle) =>
      some
        ({s with thread := update (s.without p own fun q => !running.contains q).thread p none},
          .exited p running)
    | _ => none
  | _ => none

/-- The pieces that run without it. -/
def unlocked (s : State) : Op → Option (State × Event)
  | .sbrk p n =>
    match s.thread p with
    | some (own, .idle) => some (s.setCall p own (.sbrk (s.space own).sz n), .asked p n)
    | _ => none
  | .forkPage p frames =>
    match s.thread p with
    | some (own, .forkCopy src limit v d) => some (s.copyStep p own src limit v d frames)
    | _ => none
  | .forkSize p =>
    match s.thread p with
    | some (own, .forkSize d) => some (s.setCall p own (.forkPublish d (s.space own).sz), .quiet)
    | _ => none
  | .execBuild p im =>
    match s.thread p with
    | some (own, .execing) => some (s.buildStep p own im)
    | _ => none
  | .execDir p =>
    match s.thread p with
    | some (own, .execDir d sz) => some (s.storeDir p own d sz, .quiet)
    | _ => none
  | .execSz p =>
    match s.thread p with
    | some (own, .execSz sz old) => some ((s.setSz own sz).setCall p own (.execFree old), .quiet)
    | _ => none
  | .execFree p =>
    match s.thread p with
    | some (own, .execFree old) =>
      some ({s.setCall p own .idle with dir := update s.dir old .empty}, .quiet)
    | _ => none
  | _ => none

def step (s : State) (op : Op) : Option (State × Event) :=
  match s.unlocked op with
  | some r => some r
  | none => if s.stuck then none else s.locked op

/-- After `userinit`: one process of one page. -/
def boot : State where
  dir := fun i => if i = 0 then (Sparse.Dir.empty.grow 0).put 0 (some ⟨0, true⟩) else .empty
  space := fun _ => ⟨0, PGSIZE⟩
  thread := fun p => if p = 0 then some (1, .idle) else none
  stuck := false
  nextDir := 1
  nextSpace := 2

end State

/-- Some thread takes a step from `s` to `s'`, seen as `e`. -/
def Step (s : State) (e : Event) (s' : State) : Prop := ∃ op, s.step op = some (s', e)

/-! ### What a step can be -/

open State

inductive Case (s : State) : Event → State → Prop where
  | sbrk {p : Slot} {own : Page} {n : Word} : s.thread p = some (own, .idle) →
      Case s (.asked p n) (s.setCall p own (.sbrk (s.space own).sz n))
  | grow {p : Slot} {own : Page} {addr : Nat} {n : Word} {frames : List Page} :
      s.thread p = some (own, .sbrk addr n) →
      Case s (s.growStep p own addr n frames).2 (s.growStep p own addr n frames).1
  | create {p np : Slot} {own : Page} {frames : List Page} : s.thread p = some (own, .idle) →
      s.thread np = none →
      Case s (s.createStep p np own frames).2 (s.createStep p np own frames).1
  | stay : Case s .quiet s
  | fork {p : Slot} {own : Page} : s.thread p = some (own, .idle) →
      Case s .quiet (s.setCall p own (.forkCopy (s.space own).pgdir (s.space own).sz 0 .empty))
  | copy {p : Slot} {own : Page} {src limit v : Nat} {d : Pgdir} {frames : List Page} :
      s.thread p = some (own, .forkCopy src limit v d) →
      Case s (s.copyStep p own src limit v d frames).2 (s.copyStep p own src limit v d frames).1
  | size {p : Slot} {own : Page} {d : Pgdir} : s.thread p = some (own, .forkSize d) →
      Case s .quiet (s.setCall p own (.forkPublish d (s.space own).sz))
  | publish {p np : Slot} {own : Page} {d : Pgdir} {sz : Nat} :
      s.thread p = some (own, .forkPublish d sz) → s.thread np = none →
      Case s .quiet (s.publish p np own d sz)
  | exec {p : Slot} {own : Page} {gone running : List Slot} : s.thread p = some (own, .idle) →
      Case s (.killedOthers p gone running)
        ((s.without p own fun q => gone.contains q && !running.contains q).setCall p own .execing)
  | build {p : Slot} {own : Page} {im : Image} : s.thread p = some (own, .execing) →
      Case s (s.buildStep p own im).2 (s.buildStep p own im).1
  | storeDir {p : Slot} {own : Page} {d : Pgdir} {sz : Nat} : s.thread p = some (own, .execDir d sz) →
      Case s .quiet (s.storeDir p own d sz)
  | storeSz {p : Slot} {own : Page} {sz old : Nat} : s.thread p = some (own, .execSz sz old) →
      Case s .quiet ((s.setSz own sz).setCall p own (.execFree old))
  | free {p : Slot} {own : Page} {old : Nat} : s.thread p = some (own, .execFree old) →
      Case s .quiet {s.setCall p own .idle with dir := update s.dir old .empty}
  | threadExit {p : Slot} {own : Page} : s.thread p = some (own, .idle) →
      Case s .quiet {s with thread := update s.thread p none}
  | exit {p : Slot} {own : Page} {running : List Slot} : s.thread p = some (own, .idle) →
      Case s (.exited p running)
        {s with thread := update (s.without p own fun q => !running.contains q).thread p none}

variable {s s' : State} {e : Event} {op : Op}

theorem Case.of_eq {r : State × Event} (h : some r = some (s', e)) (hc : Case s r.2 r.1) :
    Case s e s' := by
  cases h
  exact hc

theorem unlocked_case (h : s.unlocked op = some (s', e)) : Case s e s' := by
  cases op <;> simp only [unlocked] at h <;> try cases h
  case sbrk p n =>
    split at h <;> cases h
    exact .sbrk ‹_›
  case forkPage p frames =>
    split at h
    · rename_i hp
      exact .of_eq h (.copy hp)
    · cases h
  case forkSize p =>
    split at h <;> cases h
    exact .size ‹_›
  case execBuild p im =>
    split at h
    · rename_i hp
      exact .of_eq h (.build hp)
    · cases h
  case execDir p =>
    split at h <;> cases h
    exact .storeDir ‹_›
  case execSz p =>
    split at h <;> cases h
    exact .storeSz ‹_›
  case execFree p =>
    split at h <;> cases h
    exact .free ‹_›

theorem locked_case (h : s.locked op = some (s', e)) : Case s e s' := by
  cases op <;> simp only [locked] at h <;> try cases h
  case grow p frames =>
    split at h
    · rename_i hp
      exact .of_eq h (.grow hp)
    · cases h
  case threadCreate p np frames =>
    split at h
    · rename_i hp hnp
      exact .of_eq h (.create hp hnp)
    · cases h
  case fork p ok =>
    split at h <;> cases h
    cases ok
    · exact .stay
    · exact .fork ‹_›
  case forkPublish p np =>
    split at h <;> cases h
    exact .publish ‹_› ‹_›
  case exec p gone running =>
    split at h <;> cases h
    exact .exec ‹_›
  case threadExit p =>
    split at h <;> cases h
    exact .threadExit ‹_›
  case exit p running =>
    split at h <;> cases h
    exact .exit ‹_›

theorem step_case (h : Step s e s') : Case s e s' := by
  obtain ⟨op, h⟩ := h
  unfold State.step at h
  split at h
  · rename_i hu
    cases h
    exact unlocked_case hu
  · split at h
    · cases h
    · exact locked_case h

theorem State.reached (rule : State → Event → Prop) [∀ s e, Decidable (rule s e)] (s₀ : State)
    (ops : List Op) {P : List Event → State → Prop} [∀ h s, Decidable (P h s)]
    (h : (Lts.trace step rule ops [] s₀).any (fun r => P r.1 r.2) = true) :
    ∃ h s, Lts.Run (Lts.Guarded Step rule) s₀ h s ∧ P h s :=
  Lts.Run.exists_of_trace (fun _ op _ _ hs => ⟨op, hs⟩) ops h

end ThreadKernel.Vm
