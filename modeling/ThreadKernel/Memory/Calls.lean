import ThreadKernel.Memory.Demand
import ThreadKernel.Proc.Effects
import ThreadKernel.Syscall.Args

/-! `fork` and `thread_create` as whole calls, with the memory they take.

Each runs from its first line to its return with nothing in between, so that what is
different afterwards is its own doing. The table is that of `Kernel`, and its `freed` is
here the whole free list: `kalloc` takes pages off it. A page `kalloc` returns is nobody's,
so what the caller shares is read where it was before.

Both calls undo a failure by hand, stage by stage. Only a failure before the first stage
leaves nothing behind: a stage that fails later forgets a page or a field of the slot. -/
namespace ThreadKernel.Memory

open Bytes Function

structure System where
  kernel : Kernel
  /-- `sharePtr->sz`. -/
  sz : Page → Nat
  /-- The directory that is in a page. -/
  dir : Page → PhysDir
  /-- `none` is a null `p->tf`. -/
  tf : Slot → Option Trapframe
  name : Slot → List Byte

inductive Returned where
  | value (v : Word) (m : System)
  | panicked (w : Vm.Panic)

/-- `kalloc`; the page it returns is the `nextPage` of the result. -/
def kalloc (k : Kernel) : Option Kernel :=
  match k.freed with
  | [] => none
  | page :: rest => some {k with freed := rest, nextPage := page}

/-- The slot `allocproc` tries. -/
def tried (k : Kernel) : Option Slot :=
  Fin.find? fun p => (k.proc p).state = .unused

/-- What is in a page that has been on the free list: `kfree` fills it with ones. -/
def junk : Trapframe := ⟨0x01010101, 0x01010101, 0x01010101⟩

def allocproc (m : System) : System × Option Slot :=
  match m.kernel.allocproc with
  | none => (m, none)
  | some (np, k) =>
    match kalloc k with
    | none => ({m with kernel := k.abandon np none}, none)
    | some k =>
      ({m with kernel := k.allocKstack np, tf := update m.tf np (some junk)}, some np)

/-- `fork` once `copyuvm` has returned `d`. The open files and the directory are in `File`. -/
def forkRest (m : System) (k : Kernel) (cur np : Slot) (src own : Page) (d : PhysDir) : Returned :=
  let k := ({k with nextPage := d.root}.forkCopy cur np own).forkPublish np own
  .value (k.proc np).pid
    {kernel := k
     sz := update m.sz own (m.sz src)
     dir := update m.dir d.root d
     tf := update m.tf np ((m.tf cur).map fun x => {x with eax := 0})
     name := update m.name np (m.name cur)}

def fork (m : System) (cur : Slot) : Returned :=
  match allocproc m with
  | (m, none) => .value (-1) m
  | (m, some np) =>
    match kalloc m.kernel with
    | none => .value (-1) {m with kernel := m.kernel.abandon np (m.kernel.proc np).kstack}
    | some k =>
      let own := k.nextPage
      let k := k.forkPage np
      match (m.kernel.proc cur).sharePtr with
      | none => .panicked .nullPte
      | some src =>
        match (m.kernel.shared src).pgdir with
        | none => .panicked .nullPte
        | some root =>
          match PhysDir.copyuvm (m.dir root).dir (m.sz src) k.freed with
          | .panicked w => .panicked w
          | .noMemory free =>
            .value (-1)
              {m with
                kernel := {k with freed := free}.forkCopyFail np
                sz := update m.sz own 0}
          | .ok d free => forkRest m {k with freed := free} cur np src own d

/-- `thread_create` once `allocuvm` has returned the size `r`. -/
def createRest (m : System) (cur np : Slot) (own root : Page) (d : PhysDir) (r : Nat)
    (start arg : Word) : Returned :=
  match clearpteu d.dir ((r - 2 * PGSIZE) / PGSIZE) with
  | none => .panicked .clearpteu
  | some dir =>
    let m :=
      {m with
        dir := update m.dir root {d with dir := dir}
        sz := update m.sz own r}
    match copyout dir (r - 8) (ofWord 0xffffffff ++ ofWord arg) (fun _ => 0) with
    | .wild => .panicked .nullPte
    | .failed _ => .value (-1) {m with kernel := m.kernel.createFail cur np}
    | .ok _ =>
      .value 0
        {m with
          kernel := m.kernel.create cur np own
          tf := update m.tf np
            ((m.tf cur).map fun _ => ⟨start, BitVec.ofNat 32 (r - 8), 0⟩)}

def threadCreate (m : System) (cur : Slot) (start arg : Word) : Returned :=
  match allocproc m with
  | (m, none) => .value (-1) m
  | (m, some np) =>
    match (m.kernel.proc cur).sharePtr with
    | none => .panicked .nullPte
    | some own =>
      match (m.kernel.shared own).pgdir with
      | none => .panicked .nullPte
      | some root =>
        match (m.dir root).allocuvm (m.sz own) (m.sz own + 2 * PGSIZE) m.kernel.freed with
        | none => .panicked .remap
        | some (d, r, free) =>
          let m :=
            {m with
              kernel := {m.kernel with freed := free}
              tf := update m.tf np ((m.tf cur).map fun x => {x with eax := 0})}
          if r = 0 then
            .value (-1)
              {m with kernel := m.kernel.createFail cur np, dir := update m.dir root d}
          else createRest m cur np own root d r start arg

/-! ### What a failed call ought to leave -/

/-- Nothing but `nextpid` is different, and the slot that was tried is blank. -/
structure Restored (m m' : System) (own root : Page) : Prop where
  proc : m'.kernel.proc = m.kernel.proc
  tf : m'.tf = m.tf
  name : m'.name = m.name
  shared : m'.kernel.shared own = m.kernel.shared own
  sz : m'.sz own = m.sz own
  dir : m'.dir root = m.dir root
  free : m'.kernel.freed.Perm m.kernel.freed
  blank : ∀ np, tried m.kernel = some np → (m'.kernel.proc np).state = .unused ∧
    (m'.kernel.proc np).pid = 0 ∧ (m'.kernel.proc np).sharePtr = none ∧
    (m'.kernel.proc np).kstack = none

/-- If the call returns -1, everything is as before. -/
def Undone (m : System) (own root : Page) (call : Returned) : Prop :=
  ∀ m', call = .value (-1) m' → Restored m m' own root

/-- The pages a `fork` of a process with directory `d` and size `sz` takes: a kernel stack,
the shared page, what `setupkvm` takes, and the copy. -/
def forkNeeds (d : PhysDir) (sz : Nat) : Nat :=
  2 + (KTABLES + 1) + PhysDir.needs 0 (PhysDir.present d.dir (pages sz) 0)

/-- The pages a `thread_create` takes: a kernel stack and the user stack. -/
def createNeeds (d : PhysDir) (sz : Nat) : Nat :=
  1 + asks (pages (sz + 2 * PGSIZE) - pages sz) (pages sz) d.dir

/-- The one failure that leaves no trace by accident: there is no page at all, and the pid
that the slot keeps is the zero it had. -/
def Accident (k : Kernel) : Prop :=
  k.freed = [] ∧ k.nextpid = 0 ∧ ∀ np, tried k = some np →
    (k.proc np).pid = 0 ∧ (k.proc np).sharePtr = none ∧ (k.proc np).kstack = none

/-- There is no slot, or there is memory for the whole call. A child with the pid -1 looks
like a failure, unless the copy panics at a missing page. -/
def ForkFits (m : System) (own root : Page) : Prop :=
  tried m.kernel = none ∨
    (forkNeeds (m.dir root) (m.sz own) ≤ m.kernel.freed.length ∧
      (m.kernel.nextpid ≠ -1 ∨
        PhysDir.present (m.dir root).dir (pages (m.sz own)) 0 < pages (m.sz own))) ∨
    Accident m.kernel

def CreateFits (m : System) (own root : Page) : Prop :=
  tried m.kernel = none ∨
    (m.sz own + 2 * PGSIZE < KERNBASE ∧
      createNeeds (m.dir root) (m.sz own) ≤ m.kernel.freed.length) ∨
    Accident m.kernel

/-! ### allocproc -/

section
variable {m m' : System} {cur np : Slot} {own root : Page} {start arg : Word}
  {page : Page} {rest : List Page} {k : Kernel}

theorem allocproc_eq_none (h : tried m.kernel = none) : allocproc m = (m, none) := by
  unfold allocproc Kernel.allocproc
  rw [show (Fin.find? fun p => decide ((m.kernel.proc p).state = .unused)) = none from h]

/-- The slot after the first half of `allocproc`. -/
def embryo (k : Kernel) (np : Slot) : Kernel :=
  {k.setProc np (fun x => {x with state := .embryo, pid := k.nextpid}) with nextpid := k.nextpid + 1}

theorem allocproc_of_tried (h : tried k = some np) :
    k.allocproc = some (np, embryo k np) := by
  unfold Kernel.allocproc
  rw [show (Fin.find? fun p => decide ((k.proc p).state = .unused)) = some np from h]
  rfl

theorem allocproc_fails (h : tried m.kernel = some np) (hfree : m.kernel.freed = []) :
    ∃ m', allocproc m = (m', none) ∧
      m'.kernel.proc = update m.kernel.proc np
        {m.kernel.proc np with kstack := none, state := .unused, pid := m.kernel.nextpid} ∧
      m'.kernel.shared = m.kernel.shared ∧ m'.kernel.freed = [] ∧
      m'.sz = m.sz ∧ m'.dir = m.dir ∧ m'.tf = m.tf ∧ m'.name = m.name := by
  have hnone : kalloc (embryo m.kernel np) = none := by
    unfold kalloc
    rw [show (embryo m.kernel np).freed = [] from hfree]
  have heq : allocproc m = ({m with kernel := (embryo m.kernel np).abandon np none}, none) := by
    unfold allocproc
    rw [allocproc_of_tried h]
    dsimp only
    rw [hnone]
  have hproc : ((embryo m.kernel np).abandon np none).proc = update m.kernel.proc np
      {m.kernel.proc np with kstack := none, state := .unused, pid := m.kernel.nextpid} := by
    funext q
    by_cases hq : q = np
    · simp [embryo, Kernel.abandon, Kernel.setProc, hq]
    · simp [embryo, Kernel.abandon, Kernel.setProc, hq]
  exact ⟨_, heq, hproc, rfl, hfree, rfl, rfl, rfl, rfl⟩

/-- What `allocproc` has done when it returns `np`. -/
structure Given (m m' : System) (np : Slot) (page : Page) : Prop where
  kstack : (m'.kernel.proc np).kstack = some page
  pid : (m'.kernel.proc np).pid = m.kernel.nextpid
  sharePtr : ∀ q, (m'.kernel.proc q).sharePtr = (m.kernel.proc q).sharePtr
  shared : m'.kernel.shared = m.kernel.shared
  sz : m'.sz = m.sz
  dir : m'.dir = m.dir

theorem allocproc_gives (h : tried m.kernel = some np) (hfree : m.kernel.freed = page :: rest) :
    ∃ m', allocproc m = (m', some np) ∧ m'.kernel.freed = rest ∧ Given m m' np page := by
  let k : Kernel := {embryo m.kernel np with freed := rest, nextPage := page}
  have hsome : kalloc (embryo m.kernel np) = some k := by
    unfold kalloc
    rw [show (embryo m.kernel np).freed = page :: rest from hfree]
  have heq : allocproc m =
      ({m with kernel := k.allocKstack np, tf := update m.tf np (some junk)}, some np) := by
    unfold allocproc
    rw [allocproc_of_tried h]
    dsimp only
    rw [hsome]
  have hnp : (k.allocKstack np).proc np =
      {m.kernel.proc np with
        state := .embryo, pid := m.kernel.nextpid, kstack := some page
        context := some (.release .user)} := by
    simp [k, embryo, Kernel.allocKstack, Kernel.setProc]
  have hshare : ∀ q, ((k.allocKstack np).proc q).sharePtr = (m.kernel.proc q).sharePtr := by
    intro q
    by_cases hq : q = np
    · rw [hq, hnp]
    · simp [k, embryo, Kernel.allocKstack, Kernel.setProc, hq]
  exact ⟨_, heq, rfl, by rw [hnp], by rw [hnp], hshare, rfl, rfl, rfl⟩

/-- Without a page, the failure is undone by accident only. -/
theorem restored_iff_accident (h : tried m.kernel = some np) (hfree : m.kernel.freed = [])
    (hm : allocproc m = (m', none)) : Restored m m' own root ↔ Accident m.kernel := by
  obtain ⟨m₁, hm₁, hproc, hshared, hfree₁, hsz, hdir, htf, hname⟩ := allocproc_fails h hfree
  obtain rfl : m₁ = m' := congrArg Prod.fst (hm₁.symm.trans hm)
  have hnp : m₁.kernel.proc np =
      {m.kernel.proc np with kstack := none, state := .unused, pid := m.kernel.nextpid} := by
    rw [hproc, update_self]
  constructor
  · intro hr
    have hsame := congrFun hr.proc np
    obtain ⟨-, hpid, hshare, -⟩ := hr.blank np h
    have hstack : (m.kernel.proc np).kstack = none := by rw [← hsame, hnp]
    rw [hnp] at hpid hshare
    refine ⟨hfree, hpid, fun np' hnp' => ?_⟩
    obtain rfl : np = np' := Option.some.inj (h.symm.trans hnp')
    have hold : (m.kernel.proc np).pid = m.kernel.nextpid := by rw [← hsame, hnp]
    exact ⟨hold.trans hpid, hshare, hstack⟩
  · intro ⟨_, hnext, hslot⟩
    obtain ⟨hpid, hshare, hstack⟩ := hslot np h
    have hstate : (m.kernel.proc np).state = .unused := by
      simpa using Fin.eq_true_of_find?_eq_some h
    have hsame : m₁.kernel.proc np = m.kernel.proc np := by
      rw [hnp, hnext, ← hpid, ← hstack, ← hstate]
    refine ⟨?_, htf, hname, by rw [hshared], by rw [hsz], by rw [hdir], by rw [hfree₁, hfree], ?_⟩
    · funext q
      by_cases hq : q = np
      · rw [hq, hsame]
      · rw [hproc, update_of_ne hq]
    · intro np' hnp'
      obtain rfl : np = np' := Option.some.inj (h.symm.trans hnp')
      rw [hsame]
      exact ⟨hstate, hpid, hshare, hstack⟩

/-! ### The calls -/

theorem undone_panicked (w : Vm.Panic) : Undone m own root (.panicked w) := by
  intro m' h
  cases h

theorem undone_self (h : tried m.kernel = none) : Undone m own root (.value (-1) m) := by
  intro m' hm
  cases hm
  refine ⟨rfl, rfl, rfl, rfl, rfl, rfl, List.Perm.refl _, fun np hnp => ?_⟩
  rw [h] at hnp
  cases hnp

theorem undone_value_iff : Undone m own root (.value (-1) m') ↔ Restored m m' own root := by
  constructor
  · intro h
    exact h m' rfl
  · intro h m₁ hm
    cases hm
    exact h

/-- A slot left with a stack or a `sharePtr` is not blank. -/
theorem not_undone {m₁ : System} (h : tried m.kernel = some np)
    (hnp : (m₁.kernel.proc np).kstack ≠ none ∨ (m₁.kernel.proc np).sharePtr ≠ none) :
    ¬ Undone m own root (.value (-1) m₁) := by
  intro hu
  obtain ⟨-, -, hshare, hstack⟩ := (hu m₁ rfl).blank np h
  rcases hnp with hnp | hnp
  · exact hnp hstack
  · exact hnp hshare

theorem kalloc_none (h : k.freed = []) : kalloc k = none := by
  unfold kalloc
  rw [h]

theorem kalloc_some (h : k.freed = page :: rest) :
    kalloc k = some {k with freed := rest, nextPage := page} := by
  unfold kalloc
  rw [h]

theorem not_accident (h : m.kernel.freed = page :: rest) :
    ¬ Accident m.kernel := by
  intro ⟨hfree, _⟩
  rw [h] at hfree
  cases hfree

theorem forkRest_spec (m : System) (k : Kernel) (cur np : Slot) (src own : Page) (d : PhysDir) :
    ∃ m', forkRest m k cur np src own d = .value (k.proc np).pid m' ∧
      (m'.kernel.proc np).state = .runnable := by
  have hpid : ((({k with nextPage := d.root} : Kernel).forkCopy cur np own).forkPublish np own).proc np =
      {k.proc np with parent := some cur, orderOfThread := 0, imMaster := true, state := .runnable} := by
    rw [Kernel.forkPublish_proc, if_pos rfl, Kernel.forkCopy_proc, if_pos rfl]
  unfold forkRest
  dsimp only
  rw [hpid]
  refine ⟨_, rfl, ?_⟩
  rw [hpid]

section
variable (hown : (m.kernel.proc cur).sharePtr = some own)
  (hroot : (m.kernel.shared own).pgdir = some root)
include hown hroot

theorem undone_fork_copy {page' : Page} (htried : tried m.kernel = some np)
    (hfree : m.kernel.freed = page :: page' :: rest) :
    Undone m own root (fork m cur) ↔
      match PhysDir.copyuvm (m.dir root).dir (m.sz own) rest with
      | .ok _ _ => m.kernel.nextpid ≠ -1
      | .noMemory _ => False
      | .panicked _ => True := by
  obtain ⟨m₁, hm₁, hrest, hgiven⟩ := allocproc_gives htried hfree
  let k : Kernel := {m₁.kernel with freed := rest, nextPage := page'}
  have hk : kalloc m₁.kernel = some k := kalloc_some hrest
  have hshare : (m₁.kernel.proc cur).sharePtr = some own := (hgiven.sharePtr cur).trans hown
  have hpgdir : (m₁.kernel.shared own).pgdir = some root := by rw [hgiven.shared, hroot]
  have heq : fork m cur =
      match PhysDir.copyuvm (m.dir root).dir (m.sz own) rest with
      | .panicked w => .panicked w
      | .noMemory free =>
        .value (-1)
          {m₁ with
            kernel := {k.forkPage np with freed := free}.forkCopyFail np
            sz := update m₁.sz page' 0}
      | .ok d free => forkRest m₁ {k.forkPage np with freed := free} cur np own page' d := by
    unfold fork
    rw [hm₁]
    dsimp only
    rw [hk]
    rw [hshare]
    dsimp only
    rw [hpgdir]
    rw [hgiven.dir, hgiven.sz]
    rfl
  rw [heq]
  cases PhysDir.copyuvm (m.dir root).dir (m.sz own) rest with
  | panicked w => exact iff_true_intro (undone_panicked w)
  | noMemory free =>
    -- the shared page stays behind
    apply iff_false_intro
    apply not_undone htried
    right
    rw [Kernel.forkCopyFail_proc, if_pos rfl]
    rw [Kernel.forkPage_proc, if_pos rfl]
    simp
  | ok d free =>
    obtain ⟨m', hrest', hstate⟩ := forkRest_spec m₁ {k.forkPage np with freed := free} cur np own page' d
    have hpid : (({k.forkPage np with freed := free} : Kernel).proc np).pid = m.kernel.nextpid := by
      rw [← hgiven.pid]
      rw [Kernel.forkPage_proc, if_pos rfl]
    dsimp only
    rw [hrest', hpid]
    constructor
    · intro hu hnext
      rw [hnext] at hu
      have hblank := ((hu m' rfl).blank np htried).1
      rw [hstate] at hblank
      cases hblank
    · intro hnext m'' h
      injection h with hv
      exact absurd hv hnext

theorem undone_fork_iff : Undone m own root (fork m cur) ↔ ForkFits m own root := by
  unfold ForkFits forkNeeds
  cases htried : tried m.kernel with
  | none =>
    have heq : fork m cur = .value (-1) m := by
      unfold fork
      rw [allocproc_eq_none htried]
    simp only [true_or, iff_true]
    exact heq ▸ undone_self htried
  | some np =>
    simp only [reduceCtorEq, false_or]
    cases hfree : m.kernel.freed with
    | nil =>
      obtain ⟨m₁, hm₁, -⟩ := allocproc_fails htried hfree
      have heq : fork m cur = .value (-1) m₁ := by
        unfold fork
        rw [hm₁]
      rw [heq, undone_value_iff, restored_iff_accident htried hfree hm₁]
      simp
    | cons page rest =>
      have hno := not_accident hfree
      cases rest with
      | nil =>
        obtain ⟨m₁, hm₁, hrest, hgiven⟩ := allocproc_gives htried hfree
        have heq : fork m cur =
            .value (-1) {m₁ with kernel := m₁.kernel.abandon np (m₁.kernel.proc np).kstack} := by
          unfold fork
          rw [hm₁]
          dsimp only
          rw [kalloc_none hrest]
        have hstack : (m₁.kernel.abandon np (m₁.kernel.proc np).kstack).proc np =
            {m₁.kernel.proc np with state := .unused} := by
          rw [Kernel.abandon_proc, if_pos rfl]
        rw [heq]
        simp only [hno, or_false, List.length_cons, List.length_nil]
        constructor
        · intro hu
          refine absurd hu (not_undone htried (.inl ?_))
          rw [hstack]
          rw [hgiven.kstack]
          simp
        · intro ⟨hle, _⟩
          omega
      | cons page' rest =>
        have hcopy := PhysDir.copyuvm_spec (m.dir root).dir (m.sz own) rest
        rw [undone_fork_copy hown hroot htried hfree]
        simp only [hno, or_false, List.length_cons]
        cases hres : PhysDir.copyuvm (m.dir root).dir (m.sz own) rest with
        | ok d free =>
          simp only [hres] at hcopy ⊢
          constructor
          · intro hnext
            exact ⟨by omega, .inl hnext⟩
          · intro ⟨_, h⟩
            rcases h with hnext | hlt
            · exact hnext
            · omega
        | noMemory free =>
          simp only [hres] at hcopy ⊢
          constructor
          · exact False.elim
          · intro ⟨hle, _⟩
            omega
        | panicked w =>
          simp only [hres] at hcopy ⊢
          exact iff_of_true trivial ⟨by omega, .inr hcopy.2⟩

end

/-- Once there is a stack, `thread_create` does not fail: the words it pushes are above the
guard page. -/
theorem createRest_ne {d d' : PhysDir} {sz r : Nat} {free free' : List Page}
    (h : d.allocuvm sz (sz + 2 * PGSIZE) free = some (d', r, free')) (hr : r ≠ 0) (m m' : System) :
    createRest m cur np own root d' r start arg ≠ .value (-1) m' := by
  have hdir := PhysDir.allocuvm_dir d sz (sz + 2 * PGSIZE) free
  rw [h, Option.map_some] at hdir
  obtain ⟨rfl, hkern, hnew⟩ := get_of_allocuvm (Nat.le_add_right _ _) hdir hr
  unfold createRest
  cases hclear : clearpteu d'.dir ((sz + 2 * PGSIZE - 2 * PGSIZE) / PGSIZE) with
  | none => nofun
  | some dir =>
    have hbytes : ∀ i, i < 8 → (uphys dir (sz + 2 * PGSIZE - 8 + i)).isSome = true := by
      intro i hi
      have hlow : pages sz ≤ (sz + 2 * PGSIZE - 8 + i) / PGSIZE := by
        simp only [pages, PGSIZE]
        omega
      have hhigh : (sz + 2 * PGSIZE - 8 + i) / PGSIZE < pages (sz + 2 * PGSIZE) := by
        simp only [pages, PGSIZE]
        omega
      have hguard : (sz + 2 * PGSIZE - 8 + i) / PGSIZE ≠ (sz + 2 * PGSIZE - 2 * PGSIZE) / PGSIZE := by
        simp only [PGSIZE]
        omega
      obtain ⟨pa, hpa⟩ := hnew _ hlow hhigh
      rw [uphys, get_clearpteu hclear, if_neg hguard, hpa]
      rfl
    have hlen : (ofWord 0xffffffff ++ ofWord arg).length = 8 := rfl
    obtain ⟨ram, -, hcopy⟩ := copyLoop_eq 8 (sz + 2 * PGSIZE - 8) (ofWord 0xffffffff ++ ofWord arg)
      (fun _ => 0) hbytes (by rw [hlen]; simp only [KERNBASE, PGSIZE] at hkern ⊢; omega) (Nat.le_refl 8)
    have hok : copyout dir (sz + 2 * PGSIZE - 8) (ofWord 0xffffffff ++ ofWord arg) (fun _ => 0) = .ok ram :=
      hcopy
    dsimp only
    rw [hok]
    intro heq
    injection heq with hv
    cases hv

theorem undone_threadCreate_iff (hown : (m.kernel.proc cur).sharePtr = some own)
    (hroot : (m.kernel.shared own).pgdir = some root) :
    Undone m own root (threadCreate m cur start arg) ↔ CreateFits m own root := by
  unfold CreateFits createNeeds
  cases htried : tried m.kernel with
  | none =>
    have heq : threadCreate m cur start arg = .value (-1) m := by
      unfold threadCreate
      rw [allocproc_eq_none htried]
    simp only [true_or, iff_true]
    exact heq ▸ undone_self htried
  | some np =>
    simp only [reduceCtorEq, false_or]
    cases hfree : m.kernel.freed with
    | nil =>
      obtain ⟨m₁, hm₁, -⟩ := allocproc_fails htried hfree
      have heq : threadCreate m cur start arg = .value (-1) m₁ := by
        unfold threadCreate
        rw [hm₁]
      rw [heq, undone_value_iff, restored_iff_accident htried hfree hm₁]
      simp
    | cons page rest =>
      obtain ⟨m₁, hm₁, hrest, hgiven⟩ := allocproc_gives htried hfree
      have hno := not_accident hfree
      have hshare : (m₁.kernel.proc cur).sharePtr = some own := (hgiven.sharePtr cur).trans hown
      have hpgdir : (m₁.kernel.shared own).pgdir = some root := by rw [hgiven.shared, hroot]
      have hzero := @Vm.allocuvm_zero_iff (m.dir root).dir (m.sz own) (m.sz own + 2 * PGSIZE) rest
        (.inl (Nat.add_pos_right _ (by decide)))
      rw [PhysDir.allocuvm_dir] at hzero
      simp only [hno, or_false, List.length_cons]
      unfold threadCreate
      rw [hm₁]
      dsimp only
      rw [hshare]
      dsimp only
      rw [hpgdir]
      dsimp only
      rw [hgiven.dir, hgiven.sz, hrest]
      cases halloc : (m.dir root).allocuvm (m.sz own) (m.sz own + 2 * PGSIZE) rest with
      | none =>
        have hnot := hzero.not.mp (by simp [halloc])
        exact iff_of_true (undone_panicked _) (by omega)
      | some x =>
        obtain ⟨d, r, free⟩ := x
        simp only [halloc, Option.map_some, Option.some.injEq, Prod.mk.injEq, exists_eq_left'] at hzero
        dsimp only
        by_cases hr : r = 0
        · rw [if_pos hr]
          constructor
          · intro hu
            refine absurd hu (not_undone htried (.inl ?_))
            rw [Kernel.createFail_proc, if_pos rfl]
            rw [hgiven.kstack]
            simp
          · intro ⟨_, _⟩
            omega
        · rw [if_neg hr]
          constructor
          · intro _
            omega
          · intro _ m' heq
            exact absurd heq (createRest_ne halloc hr _ m')

/-- Whether a call that returns -1 has left everything as it was: exactly when there was no
slot to try, or memory for all of the call, or the accident. -/
theorem failed_call_undone_iff (hown : (m.kernel.proc cur).sharePtr = some own)
    (hroot : (m.kernel.shared own).pgdir = some root) :
    (Undone m own root (fork m cur) ↔ ForkFits m own root) ∧
      ∀ start arg, Undone m own root (threadCreate m cur start arg) ↔ CreateFits m own root :=
  ⟨undone_fork_iff hown hroot, fun _ _ => undone_threadCreate_iff hown hroot⟩

end

/-- The first process, of one page, on a machine with the pages `free`. -/
def small (free : List Page) : System where
  kernel := {Kernel.boot with freed := free}
  sz := fun _ => PGSIZE
  dir := fun _ => ⟨2, [], (Sparse.Dir.empty.grow 0).put 0 (some ⟨4, true⟩), fun _ => 3⟩
  tf := fun p => if p = 0 then some ⟨0, 4096, 0⟩ else none
  name := fun _ => []

def crowded : System :=
  {small [10] with kernel := {Kernel.boot with proc := fun _ => Kernel.boot.proc 0, freed := [10]}}

theorem failed_call_undone_crowded :
    Undone crowded 1 2 (fork crowded 0) ∧ Undone crowded 1 2 (threadCreate crowded 0 0 0) := by
  have hfull : tried crowded.kernel = none := by decide +kernel
  have hown : (crowded.kernel.proc 0).sharePtr = some 1 := by decide +kernel
  have hroot : (crowded.kernel.shared 1).pgdir = some 2 := by decide +kernel
  obtain ⟨hfork, hcreate⟩ := failed_call_undone_iff hown hroot
  exact ⟨hfork.mpr (.inl hfull), (hcreate 0 0).mpr (.inl hfull)⟩

def Returned.leaves (r : Returned) (P : System → Bool) : Bool :=
  match r with
  | .value v m => v = -1 ∧ P m
  | .panicked _ => false

theorem Returned.of_leaves {r : Returned} {P : System → Bool} (h : r.leaves P = true) :
    ∃ m, r = .value (-1) m ∧ P m = true := by
  cases r with
  | panicked w => cases h
  | value v m =>
    simp only [leaves, decide_eq_true_eq] at h
    exact ⟨m, by rw [h.1], h.2⟩

/-- With one page `fork` forgets the kernel stack, with two it forgets the shared page, and
`thread_create` leaves a slot that points at its caller's process. -/
theorem failed_calls_leave_traces :
    (∃ m, fork (small [10]) 0 = .value (-1) m ∧ decide (m.kernel.freed = [] ∧
      (m.kernel.proc 1).pid = 2 ∧ (m.kernel.proc 1).kstack = some 10) = true) ∧
    (∃ m, fork (small [10, 11]) 0 = .value (-1) m ∧ decide (m.kernel.freed = [10] ∧
      (m.kernel.proc 1).sharePtr = some 11) = true) ∧
    ∃ m, threadCreate (small [10, 11]) 0 0 0 = .value (-1) m ∧ decide (m.kernel.freed = [11] ∧
      (m.kernel.proc 1).kstack = some 10 ∧ (m.kernel.proc 1).sharePtr = some 1) = true :=
  ⟨Returned.of_leaves (by decide +kernel), Returned.of_leaves (by decide +kernel),
    Returned.of_leaves (by decide +kernel)⟩

end ThreadKernel.Memory
