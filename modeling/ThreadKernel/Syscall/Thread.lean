import ThreadKernel.Syscall.Args
import ThreadKernel.Vm.Invariant
import ThreadKernel.Registry.Join
import ThreadKernel.Registry.Retval

/-! The words that go through the thread calls.

The argument of a new thread and the value it ends with are words of any meaning, but
`sys_thread_create` and `sys_thread_exit` fetch them with `argptr`, as if they were
pointers: a word that does not point at four bytes of the process is refused. A word that
is let through arrives: the argument on the stack of the new thread, by way of `copyout`
(`Starts`), and the value behind the pointer of the join, by way of `retval`. -/
namespace ThreadKernel

open Bytes Lts Vm Kernel Function

/-- What the argument checks of a call make of it. -/
inductive Entered (α : Type) where
  /-- It is back with -1. -/
  | returned (m : Machine)
  | calls (x : α)

namespace Machine

section
variable (m : Machine) (c : Nat) (cur np : Slot) (own : Page)

/-- A call up to its arguments. -/
def enter {α : Type} (args : Slot → Page → Except Fail α) : Option (Entered α) :=
  match m.caller c with
  | none => none
  | some (cur, own) =>
    match args cur own with
    | .ok x => some (.calls x)
    | .error .refused => some (.returned (m.setEax cur (-1)))
    | .error .fault => none

def threadCreateArgs : Except Fail (Word × Word × Word) := do
  let t ← m.argptr cur own 0 4
  let f ← m.argptr cur own 1 4
  let a ← m.argptr cur own 2 4
  return (t, f, a)

def threadJoinArgs : Except Fail (Word × Word) := do
  let t ← m.argint cur own 0
  let r ← m.argptr cur own 1 4
  return (t, r)

def sysThreadCreate : Option (Entered (Word × Word × Word)) := m.enter c m.threadCreateArgs

def sysThreadExit : Option (Entered Word) := m.enter c fun cur own => m.argptr cur own 0 4

def sysThreadJoin : Option (Entered (Word × Word)) := m.enter c m.threadJoinArgs

/-- A return address and the argument. -/
def stackWords (a : Word) : List Byte := ofWord 0xffffffff ++ ofWord a

/-- `thread_create` gives the slot up. -/
def createFails (d : Pgdir) (sz : Nat) (ram : Ram) : Option (Machine × Event) :=
  (m.kernel.step c (.createFinish false)).map fun r =>
    ({kernel := r.1
      size := update m.size own sz
      dir := update m.dir own d
      ram := ram
      tf := update (update m.tf np {m.tf cur with eax := 0}) cur
        {m.tf cur with eax := -1}}, r.2)

/-- The memory and the trap frames after a `thread_create` that succeeds. -/
def created (k : Kernel) (d : Pgdir) (sz : Nat) (ram : Ram) (f : Word) : Machine where
  kernel := k
  size := update m.size own sz
  dir := update m.dir own d
  ram := ram
  tf := update (update m.tf cur {m.tf cur with eax := 0}) np
    {m.tf cur with eip := f, esp := BitVec.ofNat 32 (sz - 8), eax := 0}

/-- `thread_create` ends with the store through `t`. -/
def createSucceeds (d : Pgdir) (sz : Nat) (ram : Ram) (t f : Word) : Option (Machine × Event) :=
  (m.kernel.step c (.createFinish true)).bind fun r =>
    (storeWord (phys d) t.toNat (BitVec.ofNat 32 (r.1.proc np).orderOfThread) ram).map fun ram' =>
      (m.created cur np own r.1 d sz ram' f, r.2)

/-- The section of `thread_create(t, f, a)`. -/
def threadCreate (t f a : Word) (frames : List Page) : Option (Machine × Event) :=
  match m.kernel.running c with
  | some (cur, .createFinish np) =>
    match (m.kernel.proc cur).sharePtr with
    | none => none
    | some own =>
      match createStack (pushBytes (stackWords a) m.ram) (m.dir own) (m.size own) frames with
      | .panicked _ => none
      | .noMemory d => m.createFails c cur np own d (m.size own) m.ram
      | .unpushed d sz ram => m.createFails c cur np own d sz ram
      | .ok d sz ram => m.createSucceeds c cur np own d sz ram t f
  | _ => none

/-- A step of `thread_join(.., ptr)`: the call itself, or the switch back to it; what it
finds goes behind `ptr`. -/
def threadJoin (op : Op) (ptr : Word) : Option (Machine × Event) :=
  match m.kernel.step c op with
  | some (k, .joined cur p t r) =>
    if ptr = 0 then some (({m with kernel := k}).setEax cur 0, .joined cur p t r)
    else
      match (m.kernel.proc cur).sharePtr with
      | none => none
      | some own =>
        (storeWord (phys (m.dir own)) ptr.toNat r m.ram).map fun ram =>
          (({m with kernel := k, ram := ram}).setEax cur 0, .joined cur p t r)
  | some (k, e) => some ({m with kernel := k}, e)
  | none => none

end

/-! ### thread_create -/

/-- A call `thread_create(t, f, a)`: three words on the user's stack, of which the first
two point into the process. -/
structure CreateCall (m : Machine) (c : Nat) (cur : Slot) (own : Page) (t f a : Word) : Prop where
  caller : m.caller c = some (cur, own)
  size : m.size own < KERNBASE
  word₀ : m.argint cur own 0 = .ok t
  word₁ : m.argint cur own 1 = .ok f
  word₂ : m.argint cur own 2 = .ok a
  thread : t.toNat + 4 ≤ m.size own
  routine : f.toNat + 4 ≤ m.size own

/-- The section of the call is next, and there is memory for it: `frames` are pages that
the process does not use. -/
structure CreateReady (m : Machine) (c : Nat) (cur np : Slot) (own : Page) (t : Word)
    (frames : List Page) : Prop where
  running : m.kernel.running c = some (cur, .createFinish np)
  share : (m.kernel.proc cur).sharePtr = some own
  lock : m.kernel.lock = none
  fits : Exact (m.dir own) (m.size own)
  room : m.size own + 2 * PGSIZE < KERNBASE
  enough : 4 ≤ frames.length
  fresh : ∀ w x, (m.dir own).get w = some x → x.pa ∉ frames
  thread : t.toNat + 4 ≤ m.size own

/-- The thread on slot `np` is about to run, at `f` and with the argument `a`. -/
structure Starts (m : Machine) (np : Slot) (own : Page) (f a : Word) : Prop where
  runnable : (m.kernel.proc np).state = .runnable
  share : (m.kernel.proc np).sharePtr = some own
  eip : (m.tf np).eip = f
  arg : loadWord (uphys (m.dir own)) m.ram ((m.tf np).esp.toNat + 4) = some a

/-- The call goes through, from its arguments to the new thread, as long as there is a
slot and memory. -/
structure Creates (m : Machine) (c : Nat) (cur : Slot) (own : Page) (t f a : Word) : Prop where
  called : m.sysThreadCreate c = some (.calls (t, f, a))
  slot : ∀ {c₁ : Nat} {k : Kernel}, k.running c₁ = some (cur, .user) → k.lock = none →
    (∃ q, (k.proc q).state = .unused) → ∃ np k', k.step c₁ .threadCreate = some (k', .handedOut np) ∧
      k'.running c₁ = some (cur, .createAlloc np)
  stack : ∀ {c₁ : Nat} {k : Kernel} {np : Slot}, k.running c₁ = some (cur, .createAlloc np) →
    ∃ k', k.step c₁ (.allocKstack true) = some (k', .quiet) ∧
      k'.running c₁ = some (cur, .createFinish np)
  starts : ∀ {c₁ : Nat} {m₁ : Machine} {np : Slot} {frames : List Page},
    CreateReady m₁ c₁ cur np own t frames →
      ∃ m' i, m₁.threadCreate c₁ t f a frames = some (m', .created cur np own i) ∧
        Starts m' np own f a

variable {m : Machine} {c : Nat} {cur np : Slot} {own : Page} {t f a v : Word}
  {k : Kernel} {frames : List Page}

theorem enter_eq {α : Type} {args : Slot → Page → Except Fail α} {x : α} {P : Prop} [Decidable P]
    (hcaller : m.caller c = some (cur, own))
    (hargs : args cur own = if P then .ok x else .error .refused) :
    m.enter c args = some (if P then .calls x else .returned (m.setEax cur (-1))) := by
  by_cases hP : P
  · rw [if_pos hP] at hargs ⊢
    simp only [enter, hcaller, hargs]
  · rw [if_neg hP] at hargs ⊢
    simp only [enter, hcaller, hargs]

theorem threadCreateArgs_eq (h : CreateCall m c cur own t f a) : m.threadCreateArgs cur own =
    if a.toNat + 4 ≤ m.size own then .ok (t, f, a) else .error .refused := by
  rw [threadCreateArgs, argptr_word h.size h.word₀, if_pos h.thread, argptr_word h.size h.word₁,
    if_pos h.routine, argptr_word h.size h.word₂]
  split <;> rfl

theorem sysThreadCreate_eq (h : CreateCall m c cur own t f a) : m.sysThreadCreate c =
    some (if a.toNat + 4 ≤ m.size own then .calls (t, f, a) else .returned (m.setEax cur (-1))) :=
  enter_eq h.caller (threadCreateArgs_eq h)

theorem stackWords_length (a : Word) : (stackWords a).length = 8 := rfl

/-- The argument is found on a new stack, also after a store to the process below. -/
theorem loadWord_newStack {d d' : Pgdir} {sz r va : Nat} {ram ram' ram'' : Ram}
    {w : Word} (h : NewStack d sz frames (stackWords a) ram d' r ram')
    (hfresh : ∀ w x, d.get w = some x → x.pa ∉ frames) (hva : va + 4 ≤ sz)
    (hstore : storeWord (phys d') va w ram' = some ram'') :
    loadWord (uphys d') ram'' (r - 8 + 4) = some a := by
  apply loadWord_of_bytes
  intro i hi
  have hinj : ∀ i j, i < (stackWords a).length → j < (stackWords a).length →
      uphys d' (r - 8 + i) = uphys d' (r - 8 + j) → i = j := by
    intro i j hi hj heq
    rw [stackWords_length] at hi hj
    obtain ⟨pa, -, hpa⟩ := h.user i hi
    exact phys_inj (phys_of_uphys hpa) (phys_of_uphys (heq ▸ hpa)) (by simp only [PGSIZE]; omega)
      (by simp only [PGSIZE]; omega)
  have hload := load_storeAll h.stored hinj (i := 4 + i) (by rw [stackWords_length]; omega)
  obtain ⟨pa, hmem, hpa⟩ := h.user (4 + i) (by rw [stackWords_length]; omega)
  rw [stackWords_length] at hload hpa
  -- the store is to a page that was there before
  have hother : ∀ j, j < (ofWord w).length → phys d' (va + j) ≠ some (pa, (r - 8 + (4 + i)) % PGSIZE) := by
    intro j hj heq
    obtain ⟨x, hx, hxpa⟩ := Option.map_eq_some_iff.mp heq
    have hold := h.old ((va + j) / PGSIZE) (by
      have : (ofWord w).length = 4 := rfl
      simp only [pages, PGSIZE]
      omega)
    rw [hx] at hold
    obtain ⟨y, hy, hypa⟩ := Option.map_eq_some_iff.mp hold.symm
    apply hfresh _ y hy
    rw [hypa, (Prod.mk.inj hxpa).1]
    exact hmem
  rw [Nat.add_assoc, load, hpa, Option.map_some, storeAll_other hstore hother]
  rw [load, hpa, Option.map_some] at hload
  rw [hload, stackWords, List.getElem?_append_right (by simp [ofWord])]
  simp [ofWord]

theorem threadCreate_starts (h : CreateReady m c cur np own t frames)
    (f a : Word) : ∃ m' i, m.threadCreate c t f a frames = some (m', .created cur np own i) ∧
      Starts m' np own f a := by
  obtain ⟨d, r, ram, hstack, hnew⟩ :=
    h.fits.exists_newStack h.room h.enough (stackWords_length a) m.ram
  have hstep : m.kernel.step c (.createFinish true) = some ((m.kernel.create cur np own).goto c .user,
      .created cur np own ((m.kernel.create cur np own).proc np).orderOfThread) := by
    simp [Kernel.step, scheduling, h.running, unlocked, h.lock, locked, createFinishCall, h.share]
  generalize hi : ((m.kernel.create cur np own).proc np).orderOfThread = i at hstep
  -- `t` is a pointer into the process
  have hpages : ∀ j, j < 4 → (phys d (t.toNat + j)).isSome = true := by
    intro j hj
    have hthread := h.thread
    have hsize := hnew.size
    exact hnew.exact.phys_isSome (by omega)
  obtain ⟨ram', hstore, -⟩ := exists_storeWord hpages (BitVec.ofNat 32 i) ram
  have hstore' : storeWord (phys d) t.toNat (BitVec.ofNat 32
      (((m.kernel.create cur np own).goto c .user).proc np).orderOfThread) ram = some ram' := by
    rw [← hi] at hstore
    exact hstore
  refine ⟨m.created cur np own ((m.kernel.create cur np own).goto c .user) d r ram' f, i, ?_, ?_⟩
  · simp only [threadCreate, h.running, h.share, hstack, createSucceeds, hstep, Option.bind_some,
      hstore', Option.map_some]
  · have hproc : ((m.kernel.create cur np own).goto c .user).proc np = _ := create_proc m.kernel cur np np own
    refine ⟨?_, ?_, ?_, ?_⟩
    · simp only [created, hproc, if_pos]
    · simp only [created, hproc, if_pos, h.share]
    · simp [created]
    · have hbelow := hnew.below
      have hesp : ((m.created cur np own ((m.kernel.create cur np own).goto c .user) d r ram' f).tf
          np).esp.toNat = r - 8 := by
        simp only [created, update_self, BitVec.toNat_ofNat]
        exact Nat.mod_eq_of_lt (by simp only [KERNBASE] at hbelow; omega)
      rw [hesp]
      simp only [created, update_self]
      exact loadWord_newStack hnew h.fresh h.thread hstore

theorem running_goto {x y : Ctx} (h : k.running c = some (cur, x)) :
    (k.goto c y).running c = some (cur, y) := by
  unfold running at h
  split at h
  · rename_i hproc _
    cases h
    simp [running, goto, setCpu, hproc]
  · cases h

theorem exists_slot (hrun : k.running c = some (cur, .user)) (hlock : k.lock = none)
    (hfree : ∃ q, (k.proc q).state = .unused) : ∃ np k',
      k.step c .threadCreate = some (k', .handedOut np) ∧
        k'.running c = some (cur, .createAlloc np) := by
  obtain ⟨np, k₁, halloc⟩ := exists_allocproc hfree
  have hrun₁ : k₁.running c = some (cur, .user) := by
    obtain ⟨-, -, rfl⟩ := allocproc_eq halloc
    exact hrun
  refine ⟨np, k₁.goto c (.createAlloc np), ?_, running_goto hrun₁⟩
  have hmove : k.alloc c .createAlloc = (k₁.goto c (.createAlloc np), .handedOut np) := by
    unfold alloc
    simp only [halloc]
  simp only [Kernel.step, scheduling, hrun, unlocked, hlock, locked, if_true, hmove]

theorem stack_of_alloc (hrun : k.running c = some (cur, .createAlloc np)) :
    ∃ k', k.step c (.allocKstack true) = some (k', .quiet) ∧
      k'.running c = some (cur, .createFinish np) := by
  have hrun' : (k.allocKstack np).running c = some (cur, .createAlloc np) := hrun
  refine ⟨(k.allocKstack np).goto c (.createFinish np), ?_, running_goto hrun'⟩
  simp [Kernel.step, scheduling, hrun, unlocked, allocKstackCall]

theorem creates_iff (h : CreateCall m c cur own t f a) :
    Creates m c cur own t f a ↔ a.toNat + 4 ≤ m.size own := by
  have hcall := sysThreadCreate_eq h
  constructor
  · intro hcreates
    by_contra ha
    rw [hcreates.called, if_neg ha] at hcall
    cases hcall
  · intro ha
    rw [if_pos ha] at hcall
    exact ⟨hcall, exists_slot, stack_of_alloc, fun hready => threadCreate_starts hready f a⟩

/-! ### thread_exit and thread_join -/

/-- A call `thread_exit(v)`. -/
structure ExitCall (m : Machine) (c : Nat) (cur : Slot) (own : Page) (v : Word) : Prop where
  caller : m.caller c = some (cur, own)
  size : m.size own < KERNBASE
  word : m.argint cur own 0 = .ok v

/-- `thread_join(n, ..)` by the master `q` is next on CPU `c`: the call itself, or the switch
back to it. -/
inductive JoinCall (k : Kernel) (c : Nat) (q : Slot) (n : Nat) : Op → Prop where
  | called : k.cpu c = ⟨some q, .run .user⟩ → k.lock = none → (k.proc q).imMaster = true →
      JoinCall k c q n (.threadJoin n)
  | woken {j : Nat} {own : Page} : (k.cpu c).mode = .scan j → k.nextRunnable j = some q →
      (k.proc q).context = some (.joinLoop n) → (k.proc q).killed = false →
      (k.proc q).kstack ≠ none → (k.proc q).sharePtr = some own →
      (k.shared own).pgdir.isSome = true → JoinCall k c q n .schedule

/-- The call goes through: the thread does not come back, and the `thread_join` of its id
gets `v`. -/
structure Exits (m : Machine) (c : Nat) (cur : Slot) (v : Word) : Prop where
  called : m.sysThreadExit c = some (.calls v)
  ends : ∀ {c₁ : Nat} {k : Kernel}, k.running c₁ = some (cur, .user) → k.lock = none →
    (k.proc cur).sharePtr.isSome = true →
      ∃ k', k.step c₁ (.threadExit v) = some (k', .threadExited cur v) ∧ k'.running c₁ = none
  stays : ∀ {h h' : List Event} {c₁ : Nat} {k k' k₂ : Kernel}, Run (Guarded Step Apart) boot h k →
    k.step c₁ (.threadExit v) = some (k', .threadExited cur v) → Run (Guarded Step Apart) k' h' k₂ →
    .handedOut cur ∉ h' → ((k₂.proc cur).state = .zombie ∧ (k₂.proc cur).retval = v) ∨
      (k₂.proc cur).state = .unused
  /-- A join with a pointer into its process is let through. -/
  joins : ∀ {c₂ : Nat} {m₂ : Machine} {q : Slot} {own : Page} {t ptr : Word},
    m₂.caller c₂ = some (q, own) → m₂.size own < KERNBASE → m₂.argint q own 0 = .ok t →
    m₂.argint q own 1 = .ok ptr → ptr.toNat + 4 ≤ m₂.size own →
      m₂.sysThreadJoin c₂ = some (.calls (t, ptr))
  /-- It finds the thread, unless somebody of another process comes first, and stores `v`. -/
  delivers : ∀ {h h' : List Event} {c₁ c₂ : Nat} {k k' : Kernel} {m₂ : Machine} {op₁ op : Op}
    {q : Slot} {own : Page} {i : Index} {ptr : Word}, Run (Guarded Step NewIds) boot h k →
    k.step c₁ op₁ = some (k', .threadExited cur v) →
    Run (Guarded Step NewIds) k' h' m₂.kernel → .handedOut cur ∉ h' →
    m₂.kernel.Unjoined (h' ++ .threadExited cur v :: h) cur own i →
    JoinCall m₂.kernel c₂ q i op → (m₂.kernel.entered c₂ q).FindsOwn q i →
    (m₂.kernel.proc q).sharePtr = some own → Exact (m₂.dir own) (m₂.size own) → ptr ≠ 0 →
    ptr.toNat + 4 ≤ m₂.size own →
      ∃ m₃, m₂.threadJoin c₂ op ptr = some (m₃, .joined q cur i v) ∧
        loadWord (phys (m₃.dir own)) m₃.ram ptr.toNat = some v

theorem sysThreadExit_eq (h : ExitCall m c cur own v) : m.sysThreadExit c =
    some (if v.toNat + 4 ≤ m.size own then .calls v else .returned (m.setEax cur (-1))) :=
  enter_eq h.caller (argptr_word h.size h.word)

theorem sysThreadJoin_calls {ptr : Word} (hcaller : m.caller c = some (cur, own))
    (hsize : m.size own < KERNBASE) (ht : m.argint cur own 0 = .ok t)
    (hptr : m.argint cur own 1 = .ok ptr) (hle : ptr.toNat + 4 ≤ m.size own) :
    m.sysThreadJoin c = some (.calls (t, ptr)) := by
  have hargs : m.threadJoinArgs cur own = .ok (t, ptr) := by
    rw [threadJoinArgs, ht, argptr_word hsize hptr, if_pos hle]
    rfl
  simp only [sysThreadJoin, enter, hcaller, hargs]

section
variable {h h' : List Event} {c₁ c₂ n : Nat} {k k' k₂ k₃ : Kernel} {m₂ : Machine} {op₁ op : Op}
  {q : Slot} {i : Index} {ptr r : Word}

/-- After a `thread_exit(v)`, for as long as the slot is not handed out. -/
theorem left_of_exit (hr : Run (Guarded Step Apart) boot h k)
    (hexit : k.step c₁ op₁ = some (k', .threadExited cur v))
    (hr' : Run (Guarded Step Apart) k' h' k₂) (hno : .handedOut cur ∉ h') :
    ∃ t, Abs k₂ t ∧ t.Left cur v := by
  have hrun : Run (Guarded Step Apart) boot (h' ++ .threadExited cur v :: h) k₂ :=
    (hr.snoc ⟨⟨c₁, _, hexit⟩, trivial⟩).append hr'
  have hrule : ∀ s t e, Sound s → Abs s t → Apart s e → Apart s e ∧ True :=
    fun _ _ _ _ _ hapart => ⟨hapart, trivial⟩
  obtain ⟨t, hrt, -, habs⟩ := run_sim hrule hrun
  exact ⟨t, habs, left_run hrt rfl hno⟩

theorem state_of_left {t : Table} (habs : Abs k₂ t) (hleft : t.Left cur v) :
    ((k₂.proc cur).state = .zombie ∧ (k₂.proc cur).retval = v) ∨ (k₂.proc cur).state = .unused := by
  have hagree := habs.agree cur
  rcases hleft with ⟨hz, hv⟩ | ⟨hfree, -⟩
  · exact .inl ⟨hagree.zombie_iff.mp hz, hagree.retval.symm.trans hv⟩
  · exact .inr (hagree.free_iff.mp hfree)

theorem joined_value {t : Table} (habs : Abs k₂ t) (hleft : t.Left cur v)
    (hstep : k₂.step c₂ op = some (k₃, .joined q cur n r)) : r = v := by
  obtain ⟨own, henter, hfind, -, hretval, -⟩ := joinReap_of_joined hstep
  obtain ⟨hjoinable, -⟩ := Fin.find?_eq_some_iff.mp hfind
  simp only [joinable, decide_eq_true_eq] at hjoinable
  rcases state_of_left (enter_abs habs henter) hleft with ⟨-, hv⟩ | hunused
  · exact hretval.symm.trans hv
  · rw [hunused] at hjoinable
    exact absurd hjoinable.2.1 (by decide)

theorem JoinCall.loop (h : JoinCall k c q n op) :
    Enter k c q (k.entered c q) ∧ k.step c op = (k.entered c q).joinBody c q n := by
  cases h with
  | called hc hlock hmaster =>
    have henter : Enter k c q k := .call hc hlock
    refine ⟨(enter_entered henter).symm ▸ henter, ?_⟩
    rw [enter_entered henter]
    simp [Kernel.step, scheduling, running, hc, unlocked, hlock, locked, threadJoinCall, hmaster]
  | woken hmode hnext hcontext hkilled hstack hshare hpgdir =>
    have hrunnable : (k.proc q).state = .runnable := by
      simpa using And.right (of_decide_eq_true (Fin.eq_true_of_find?_eq_some hnext))
    have henter := Enter.wake hmode hrunnable hcontext (.inr ⟨_, rfl⟩) hstack
    refine ⟨(enter_entered henter).symm ▸ henter, ?_⟩
    rw [enter_entered henter]
    obtain ⟨stack, hstack⟩ := Option.ne_none_iff_exists'.mp hstack
    have hswitch : k.step c .schedule = k.switchTo c q := by
      simp only [Kernel.step, scheduling, hmode, hnext, running]
      cases k.switchTo c q <;> simp
    rw [hswitch]
    simp [switchTo, hstack, hshare, hcontext, hpgdir, Kernel.resume, hkilled]

/-- The one zombie of the process that a `thread_join` of its id can take. -/
theorem find_of_findsOwn (hr : Run (Guarded Step NewIds) boot h k) (hcur : k.Unjoined h cur own i)
    (henter : Enter k c q (k.entered c q)) (hshare : (k.proc q).sharePtr = some own)
    (hfinds : (k.entered c q).FindsOwn q i) :
    Fin.find? ((k.entered c q).joinable q i) = some cur := by
  obtain ⟨t, hs, habs⟩ := exists_distinct hr
  obtain ⟨hpresent, hcurShare, hcurOrder⟩ := hs.unjoined habs hcur
  obtain ⟨p, hp, hfirst, hown⟩ := hfinds
  have hfind := Fin.find?_eq_some_iff.mpr ⟨hp, hfirst⟩
  have hagree := (enter_abs habs henter).agree
  simp only [joinable, decide_eq_true_eq] at hp
  obtain ⟨horder, hz, -⟩ := hp
  rw [hfind]
  by_contra hne
  have hpc : p ≠ cur := fun heq => hne (heq ▸ rfl)
  refine hs.order hpc ?_ hpresent (a := own) ?_ hcurShare ?_
  · rw [(hagree p).zombie_iff.mpr hz]
    rfl
  · rw [(hagree p).share, hown, ← (hagree q).share, (habs.agree q).share, hshare]
  · rw [hcurOrder, (hagree p).order]
    exact Fin.ext horder

theorem threadJoin_stores (hstep : m₂.kernel.step c₂ op = some (k₃, .joined q cur n r))
    (hshare : (m₂.kernel.proc q).sharePtr = some own) (hfits : Exact (m₂.dir own) (m₂.size own))
    (hne : ptr ≠ 0) (hptr : ptr.toNat + 4 ≤ m₂.size own) :
    ∃ m₃, m₂.threadJoin c₂ op ptr = some (m₃, .joined q cur n r) ∧
      loadWord (phys (m₃.dir own)) m₃.ram ptr.toNat = some r := by
  obtain ⟨ram, hstore, hload⟩ := exists_storeWord
    (fun i hi => show (phys _ (ptr.toNat + i)).isSome = true from hfits.phys_isSome (by omega))
    r m₂.ram
  refine ⟨({m₂ with kernel := k₃, ram := ram}).setEax q 0, ?_, hload⟩
  simp only [threadJoin, hstep, if_neg hne, hshare, hstore, Option.map_some]

end

theorem exits_iff (hcall : ExitCall m c cur own v) : Exits m c cur v ↔ v.toNat + 4 ≤ m.size own := by
  have heq := sysThreadExit_eq hcall
  constructor
  · intro hexits
    by_contra hv
    rw [hexits.called, if_neg hv] at heq
    cases heq
  intro hv
  rw [if_pos hv] at heq
  refine ⟨heq, ?_, ?_, sysThreadJoin_calls, ?_⟩
  · intro c₁ k hrun hlock hshare
    obtain ⟨own₁, hown₁⟩ := Option.isSome_iff_exists.mp hshare
    refine ⟨(k.threadExit cur own₁ v).sched c₁ cur, ?_, ?_⟩
    · simp only [Kernel.step, scheduling, hrun, unlocked, hlock, locked, threadExitCall, hown₁, if_true]
    · simp [running, sched, setCpu]
  · intro h h' c₁ k k' k₂ hr hexit hr' hno
    obtain ⟨t, habs, hleft⟩ := left_of_exit hr hexit hr' hno
    exact state_of_left habs hleft
  · intro h h' c₁ c₂ k k' m₂ op₁ op q own i ptr hr hexit hr' hno hcur hjoin hfinds hshare hfits hne
      hptr
    obtain ⟨t, habs, hleft⟩ := left_of_exit (hr.mono fun _ _ _ hs => ⟨hs.1, hs.2.1⟩) hexit
      (hr'.mono fun _ _ _ hs => ⟨hs.1, hs.2.1⟩) hno
    have hrun := (hr.snoc ⟨⟨c₁, op₁, hexit⟩, trivial, trivial⟩).append hr'
    obtain ⟨henter, hloop⟩ := hjoin.loop
    have hfind := find_of_findsOwn hrun hcur henter hshare hfinds
    -- the zombie found is the thread as it has ended, with its stack
    have hmatch := Fin.eq_true_of_find?_eq_some hfind
    simp only [joinable, decide_eq_true_eq] at hmatch
    obtain ⟨-, hz, -, hmaster⟩ := hmatch
    have hsame := enter_zombie henter hz
    have hstack : ((m₂.kernel.entered c₂ q).proc cur).kstack ≠ none := by
      rw [hsame] at hz hmaster ⊢
      exact ((ended_run hrun).2 rfl hno).2 hz hmaster
    have hown : ((m₂.kernel.entered c₂ q).proc q).sharePtr = some own := by
      rw [← ((enter_abs habs henter).agree q).share, (habs.agree q).share, hshare]
    rw [joinBody_of_find hfind hstack hown] at hloop
    rw [joined_value habs hleft hloop] at hloop
    exact threadJoin_stores hloop hshare hfits hne hptr

end Machine

open Machine

/-- Processes of one page, with `ws` on top of the user's stack. -/
def Machine.onePage (k : Kernel) (ws : List Word) : Machine where
  kernel := k
  size := fun _ => PGSIZE
  dir := fun _ => Vm.State.boot.dir 0
  ram := fun l => if 260 ≤ l.2 then ((ws.flatMap ofWord)[l.2 - 260]?).getD 0 else 0
  tf := fun _ => ⟨0, 256, 0⟩

section
variable {k : Kernel} {cur : Slot} {a v : Word}

theorem onePage_create (hrun : k.running 0 = some (1, .user)) (hshare : (k.proc 1).sharePtr = some 5)
    (h₀ : (onePage boot [512, 0, a]).argint 1 5 0 = .ok 512)
    (h₁ : (onePage boot [512, 0, a]).argint 1 5 1 = .ok 0)
    (h₂ : (onePage boot [512, 0, a]).argint 1 5 2 = .ok a) :
    CreateCall (onePage k [512, 0, a]) 0 1 5 512 0 a :=
  ⟨by simp [caller, onePage, hrun, hshare], show PGSIZE < KERNBASE by decide, h₀, h₁, h₂,
    show 512 + 4 ≤ PGSIZE by decide, show 0 + 4 ≤ PGSIZE by decide⟩

theorem onePage_exit (hrun : k.running 0 = some (cur, .user)) (hshare : (k.proc cur).sharePtr = some 5)
    (h₀ : (onePage boot [v]).argint cur 5 0 = .ok v) : ExitCall (onePage k [v]) 0 cur 5 v :=
  ⟨by simp [caller, onePage, hrun, hshare], show PGSIZE < KERNBASE by decide, h₀⟩

end

end ThreadKernel
