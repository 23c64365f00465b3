import ThreadKernel.Memory.Load

/-! `exec` as a whole call.

It destroys the sibling threads before it looks the file up. After that every failure is
undone: the new directory is freed with all it holds, and nothing of the process has been
changed until the commit. So a call that returns -1 leaves the process as it was exactly
when there is no sibling to destroy, and when the build of the image does not stray. -/
namespace ThreadKernel.Memory

open Bytes PhysDir Function

inductive Outcome where
  | done (m : System)
  /-- It returned -1. -/
  | failed (m : System)
  /-- It wrote to memory that is not the process's, or followed a null pointer. -/
  | stray
  | panicked

/-- The loop that finds the last element of the path. -/
def lastElement : List Byte → List Byte → List Byte
  | last, [] => last
  | last, c :: s => lastElement (if c = 0x2f then s else last) s

/-- The procs that `kill_other_threads(cur)` frees. -/
def victim (k : Kernel) (cur : Slot) (own : Page) (p : Slot) : Bool :=
  p ≠ cur ∧ ∃ i, (k.shared own).isThere i = true ∧ (k.shared own).threads i = some p

/-- `kill_other_threads` with the trap frames and names that `free_proc` clears. -/
def killOtherThreads (m : System) (cur : Slot) (own : Page) : Option System :=
  (m.kernel.killOtherThreads cur own).map fun k =>
    {m with
      kernel := k
      tf := fun p => if victim m.kernel cur own p then none else m.tf p
      name := fun p => if victim m.kernel cur own p then [] else m.name p}

/-- The commit to the new image `d`, with `free` left. -/
def commit (m : System) (cur : Slot) (own : Page) (path : List Byte) (entry : Word) (sz sp : Nat)
    (d : PhysDir) (free : List Page) : Outcome :=
  match (m.kernel.shared own).pgdir with
  | none => .panicked
  | some old =>
    .done
      {kernel :=
        {({m.kernel with nextPage := d.root} : Kernel).execCommit cur own with
          freed := (m.dir old).freevm free}
       sz := update m.sz own sz
       dir := update m.dir d.root d
       tf := update m.tf cur
        ((m.tf cur).map fun x => {x with eip := entry, esp := BitVec.ofNat 32 sp})
       name := update m.name cur ((lastElement path path).take 15)}

/-- `exec` on the file that `namei` found. -/
def execFile (m : System) (cur : Slot) (own : Page) (path : List Byte) (argv : List (List Byte))
    (f : Content) : Outcome :=
  match elfhdr f with
  | none => .failed m
  | some elf =>
    match setupkvm m.kernel.freed with
    | (none, free) => .failed {m with kernel := {m.kernel with freed := free}}
    | (some d, free) =>
      match build f elf argv d free with
      | .stray => .stray
      | .panicked => .panicked
      | .bad d free => .failed {m with kernel := {m.kernel with freed := d.freevm free}}
      | .next (sz, sp) d free => commit m cur own path elf.entry sz sp d free

/-- `exec(path, argv)`; `fs` is what `namei` finds. -/
def exec (fs : List Byte → Option Content) (m : System) (cur : Slot) (path : List Byte)
    (argv : List (List Byte)) : Outcome :=
  match (m.kernel.proc cur).sharePtr with
  | none => .stray
  | some own =>
    match killOtherThreads m cur own with
    | none => .stray
    | some m =>
      match fs path with
      | none => .failed m
      | some f => execFile m cur own path argv f

/-! ### The stack and the arguments -/

variable {d d' : PhysDir} {m sz : Nat} {u : Nat → Bool} {free free' : List Page} {a b : Pgdir}
  {v : Nat}

/-- A directory of the same shape gives `uva2ka` a page in the same places. -/
theorem uva2ka_shape (h : SameShape a b) (v : Nat) :
    (uva2ka a v).map Option.isSome = (uva2ka b v).map Option.isSome := by
  have hv := h v
  unfold uva2ka
  cases ha : a.walk v with
  | none =>
    rw [ha] at hv
    rw [Option.map_eq_none_iff.mp hv.symm]
  | some x =>
    rw [ha] at hv
    obtain ⟨y, hy, hxy⟩ := Option.map_eq_some_iff.mp hv.symm
    rw [hy]
    cases x with
    | none =>
      rw [Option.map_eq_none_iff.mp hxy]
    | some x =>
      obtain ⟨y', rfl, huser⟩ := Option.map_eq_some_iff.mp hxy
      simp only [huser]
      cases x.user <;> rfl

def Copied.verdict {α : Type} : Copied α → Copied Unit
  | .ok _ => .ok ()
  | .failed _ => .failed ()
  | .wild => .wild

theorem copyLoop_shape (h : SameShape a b) (fuel va : Nat) (buf : List Byte) (ram ram' : Ram) :
    Copied.verdict (copyLoop a fuel va buf ram) = Copied.verdict (copyLoop b fuel va buf ram') := by
  induction fuel generalizing va buf ram ram' with
  | zero => rfl
  | succ fuel ih =>
    unfold copyLoop
    split
    · rfl
    · have hv := uva2ka_shape h (va / PGSIZE)
      cases ha : uva2ka a (va / PGSIZE) with
      | none =>
        rw [ha] at hv
        rw [Option.map_eq_none_iff.mp hv.symm]
      | some x =>
        rw [ha] at hv
        obtain ⟨y, hy, hxy⟩ := Option.map_eq_some_iff.mp hv.symm
        rw [hy]
        cases x with
        | none =>
          cases y with
          | none => rfl
          | some y => cases hxy
        | some x =>
          cases y with
          | none => cases hxy
          | some y => exact ih _ _ _ _

theorem push_eq (d : Pgdir) (va : Nat) (buf : List Byte) :
    push d va buf = Copied.verdict (copyLoop d buf.length va buf fun _ => 0) := by
  unfold push copyout
  cases copyLoop d buf.length va buf fun _ => 0 <;> rfl

theorem push_shape (h : SameShape a b) (va : Nat) (buf : List Byte) : push a va buf = push b va buf := by
  rw [push_eq, push_eq, copyLoop_shape h]

theorem pushArgs_shape (h : SameShape a b) (argv : List (List Byte)) (sp : Nat) (ptrs : List Nat) :
    pushArgs a argv sp ptrs = pushArgs b argv sp ptrs := by
  induction argv generalizing sp ptrs with
  | nil => simp only [pushArgs, push_shape h]
  | cons s argv ih => simp only [pushArgs, push_shape h, ih]

theorem clearpteu_filled (h : a.Filled Pte.user (fun _ => true) m) (hv : v < m) :
    ∃ b, clearpteu a v = some b ∧ b.Filled Pte.user (fun w => w ≠ v) m := by
  have htable : v / 1024 * 1024 < m := by omega
  have hwalk := h v
  rw [if_pos htable, if_pos hv] at hwalk
  obtain ⟨x, hx, hxu⟩ := Option.map_eq_some_iff.mp hwalk
  obtain ⟨y, rfl, -⟩ := Option.map_eq_some_iff.mp hxu
  refine ⟨a.put v (some {y with user := false}), ?_, ?_⟩
  · unfold clearpteu
    rw [hx]
    rfl
  · intro w
    by_cases hw : w = v
    · subst hw
      have hthere : a.table (w / 1024) = true := by
        rw [← Sparse.Dir.walk_isSome, hx]
        rfl
      rw [if_pos htable, if_pos hv]
      simp [Sparse.Dir.walk, Sparse.Dir.put, hthere]
    · rw [a.walk_put v w _ hw, h w]
      simp [hw]

theorem makeStack_filled (h : d.dir.Filled Pte.user (fun _ => true) (pages sz)) (free : List Page) :
    (∃ d' free', makeStack sz d free = .bad d' free' ∧
        (KERNBASE ≤ pages sz * PGSIZE + 2 * PGSIZE ∨ free.length < needs (pages sz) UPAGES)) ∨
      ∃ d' free', makeStack sz d free = .next (pages sz * PGSIZE + 2 * PGSIZE) d' free' ∧
        pages sz * PGSIZE + 2 * PGSIZE < KERNBASE ∧
        d'.dir.Filled Pte.user (fun v => v ≠ pages sz) (pages sz + 2) := by
  have hround : pages (pages sz * PGSIZE) = pages sz := by
    simp only [pages, PGSIZE]
    omega
  have hnext : pages (pages sz * PGSIZE + 2 * PGSIZE) = pages sz + 2 := by
    simp only [pages, PGSIZE]
    omega
  have hpos : 0 < PGSIZE := by decide
  rw [← hround] at h
  obtain ⟨d₁, r, free₁, halloc, hcases⟩ :=
    allocuvm_filled h (fun _ _ => rfl) (pages sz * PGSIZE + 2 * PGSIZE) free
  unfold makeStack
  rw [halloc]
  dsimp only
  rcases hcases with ⟨rfl, hfail⟩ | ⟨hr, hne, hkern, hfilled, -⟩
  · rw [if_pos rfl]
    refine .inl ⟨_, _, rfl, ?_⟩
    rcases hfail with hkern | hzero | ⟨hkern, hless⟩
    · exact .inl hkern
    · omega
    · rw [hround] at hless
      have hbound := pages_le (Nat.le_of_lt hkern)
      exact .inr (Nat.lt_of_lt_of_le hless (needs_mono hbound))
  · have hr' : r = pages sz * PGSIZE + 2 * PGSIZE := by omega
    subst hr'
    rw [hnext] at hfilled
    have hguard : (pages sz * PGSIZE + 2 * PGSIZE - 2 * PGSIZE) / PGSIZE = pages sz := by
      rw [Nat.add_sub_cancel, Nat.mul_div_cancel _ hpos]
    obtain ⟨b, hb, hbfilled⟩ := clearpteu_filled hfilled (show pages sz < pages sz + 2 by omega)
    rw [hguard, hb]
    exact .inr ⟨_, _, rfl, hkern, hbfilled⟩

theorem clearpteu_owned {dir : Pgdir} (h : clearpteu d.dir v = some dir) :
    ({d with dir := dir} : PhysDir).owned = d.owned := by
  have htable : dir.table = d.dir.table := by
    unfold clearpteu at h
    split at h
    · cases h
    · cases h
      rfl
  have hpa : ∀ w, (dir.get w).map Pte.pa = (d.dir.get w).map Pte.pa := by
    intro w
    rw [get_clearpteu h]
    split
    · rename_i hw
      rw [hw, Option.map_map]
      rfl
    · rfl
  have hframes : ({d with dir := dir} : PhysDir).frames = d.frames := by
    unfold frames Sparse.Dir.held
    generalize UPAGES = n
    simp only [List.map_filterMap, hpa]
  have htables : ({d with dir := dir} : PhysDir).table = d.table := by
    funext i
    simp only [PhysDir.table, htable]
  simp only [owned, tables, hframes, htables]

theorem makeStack_conserves (sz : Nat) (d : PhysDir) (free : List Page) :
    (makeStack sz d free).Conserves (d.owned ++ free) := by
  unfold makeStack
  cases halloc : d.allocuvm (pages sz * PGSIZE) (pages sz * PGSIZE + 2 * PGSIZE) free with
  | none => exact .panicked
  | some x =>
    obtain ⟨d', r, free'⟩ := x
    have hperm := allocuvm_perm halloc
    dsimp only
    split
    · exact .bad hperm
    · cases hclear : clearpteu d'.dir ((r - 2 * PGSIZE) / PGSIZE) with
      | none => exact .panicked
      | some dir =>
        rw [← clearpteu_owned hclear] at hperm
        exact .next r hperm

/-! ### The build -/

theorem build_conserves (f : Content) (elf : Elfhdr) (argv : List (List Byte)) (d : PhysDir)
    (free : List Page) : (build f elf argv d free).Conserves (d.owned ++ free) := by
  unfold build
  have hload := loadLoop_conserves f (proghdrs f elf) 0 [] d free
  cases hgo : loadLoop f (proghdrs f elf) 0 [] d free with
  | stray => exact .stray
  | panicked => exact .panicked
  | bad d₁ free₁ =>
    rw [hgo] at hload
    cases hload with
    | bad hperm => exact .bad hperm
  | next x d₁ free₁ =>
    obtain ⟨sz, ws⟩ := x
    rw [hgo] at hload
    have hstack := makeStack_conserves sz d₁ free₁
    dsimp only
    cases hload with
    | next _ hperm =>
      cases hgo' : makeStack sz d₁ free₁ with
      | stray => exact .stray
      | panicked => exact .panicked
      | bad d₂ free₂ =>
        rw [hgo'] at hstack
        cases hstack with
        | bad hperm' => exact .bad (hperm'.trans hperm)
      | next sz d₂ free₂ =>
        rw [hgo'] at hstack
        dsimp only
        cases hstack with
        | next _ hperm' =>
          cases pushArgs (withKernel d₂.dir) argv sz [] with
          | ok sp => exact .next _ (hperm'.trans hperm)
          | bad => exact .bad (hperm'.trans hperm)
          | wild => exact .stray

/-- The build strays if the plan does, or does not get there for lack of memory. -/
theorem build_stray (f : Content) {elf : Elfhdr} (helf : elfhdr f = some elf)
    (argv : List (List Byte)) (h : d.dir.Filled Pte.user (fun _ => true) (pages 0))
    (free : List Page) :
    (build f elf argv d free = .stray → plan f argv = .stray) ∧
      (plan f argv = .stray → needs 0 UPAGES ≤ free.length → build f elf argv d free = .stray) := by
  have hload := loadLoop_spec f (proghdrs f elf) [] h (by decide) (fun _ hmem => nomatch hmem) free
  have hpages : pages 0 = 0 := rfl
  unfold build plan
  rw [helf]
  dsimp only
  cases hgo : loadLoop f (proghdrs f elf) 0 [] d free with
  | stray | panicked =>
    simp only [hgo] at hload
    rw [hload]
    simp
  | bad d₁ free₁ =>
    simp only [hgo] at hload
    refine ⟨nofun, fun hplan henough => ?_⟩
    rcases hload with hload | hless
    · rw [hload] at hplan
      cases hplan
    · rw [hpages] at hless
      omega
  | next x d₁ free₁ =>
    obtain ⟨sz, ws⟩ := x
    simp only [hgo] at hload
    obtain ⟨hplan, -, hsz, hfilled, -, hlen⟩ := hload
    rw [hplan]
    dsimp only
    rcases makeStack_filled hfilled free₁ with ⟨d₂, free₂, heq, hfail⟩ | ⟨d₂, free₂, heq, hkern, hfilled₂⟩
    · rw [heq]
      refine ⟨nofun, fun hstray henough => ?_⟩
      have hadd := needs_add (Nat.zero_le _) (pages_le (Nat.le_of_lt hsz))
      rw [hpages] at hlen
      rcases hfail with hfail | hless
      · rw [if_pos hfail] at hstray
        cases hstray
      · omega
    · rw [heq, if_neg (by omega)]
      dsimp only
      have hshape := (SameShape.of_filled hfilled₂ (flat_filled _ _)).withKernel
      rw [pushArgs_shape hshape]
      cases pushArgs (withKernel (flat (pages sz + 2) fun v => v ≠ pages sz)) argv
        (pages sz * PGSIZE + 2 * PGSIZE) [] <;> simp

/-! ### The siblings -/

section
variable {k k' : Kernel} {cur : Slot} {own : Page} {i : Index}

theorem killFold_alone (h : ∀ i, (k.shared own).isThere i = true → (k.shared own).threads i = some cur)
    (is : List Index) : is.foldlM (Kernel.killOther cur own) k = some k := by
  induction is with
  | nil => rfl
  | cons i is ih =>
    have hround : Kernel.killOther cur own k i = some k := by
      unfold Kernel.killOther
      cases hi : (k.shared own).isThere i with
      | false => rfl
      | true =>
        rw [h i hi]
        exact if_pos rfl
    rw [List.foldlM_cons, hround]
    exact ih

/-- A round that comes to an end found a thread with a `sharePtr`, unless there was nothing to
do, and freed one stack at most. -/
theorem killOther_some (h : Kernel.killOther cur own k i = some k') :
    k'.freed.length ≤ k.freed.length + 1 ∧
      (∀ q, (k'.proc q).sharePtr ≠ none → (k.proc q).sharePtr ≠ none) ∧
      ((k.shared own).isThere i = true → ∃ q, (k.shared own).threads i = some q ∧
        (q ≠ cur → (k.proc q).sharePtr ≠ none)) := by
  unfold Kernel.killOther at h
  split at h
  · rename_i p hi hp
    split at h
    · rename_i hcur
      cases h
      exact ⟨by omega, fun _ hq => hq, fun _ => ⟨p, hp, fun hne => absurd hcur hne⟩⟩
    · unfold Kernel.freeProc at h
      split at h
      · cases h
      · rename_i own' hshare
        cases h
        refine ⟨?_, fun q hq => ?_, fun _ => ⟨p, hp, fun _ => by rw [hshare]; exact Option.some_ne_none _⟩⟩
        · cases hstack : (k.proc p).kstack with
          | none => exact Nat.le_succ _
          | some stack => exact Nat.le_refl _
        · rw [Kernel.setProc_proc] at hq
          split at hq
          · exact absurd rfl hq
          · exact hq
  · cases h
  · rename_i hi
    cases h
    exact ⟨by omega, fun _ hq => hq, fun hi' => absurd hi' (by rw [hi]; exact Bool.false_ne_true)⟩

theorem killFold_some (is : List Index) (h : is.foldlM (Kernel.killOther cur own) k = some k') :
    k'.freed.length ≤ k.freed.length + is.length ∧
      ∀ i ∈ is, (k.shared own).isThere i = true → ∃ q, (k.shared own).threads i = some q ∧
        (q ≠ cur → (k.proc q).sharePtr ≠ none) := by
  induction is generalizing k with
  | nil =>
    cases h
    exact ⟨Nat.le_refl _, fun i hi => nomatch hi⟩
  | cons j is ih =>
    obtain ⟨k₁, hround, hfold⟩ := Option.bind_eq_some_iff.mp h
    obtain ⟨-, hshared, -⟩ := Kernel.killOther_eq hround
    obtain ⟨hlen₁, hback, hj⟩ := killOther_some hround
    obtain ⟨hlen, hall⟩ := ih hfold
    refine ⟨by rw [List.length_cons]; omega, fun i hi hthere => ?_⟩
    rcases List.mem_cons.mp hi with rfl | hi
    · exact hj hthere
    · rw [hshared] at hall
      obtain ⟨q, hq, hptr⟩ := hall i hi hthere
      exact ⟨q, hq, fun hne => hback q (hptr hne)⟩

end

/-! ### A failed call -/

/-- The process, its siblings, and the set of free pages are as before. -/
structure Same (m m' : System) : Prop where
  proc : m'.kernel.proc = m.kernel.proc
  shared : m'.kernel.shared = m.kernel.shared
  sz : m'.sz = m.sz
  dir : m'.dir = m.dir
  tf : m'.tf = m.tf
  name : m'.name = m.name
  free : m'.kernel.freed.Perm m.kernel.freed

/-- Nothing but the process's own memory is touched, whatever the call returns, and if it
returns -1 everything is as before. -/
def FailsClean (m : System) (call : Outcome) : Prop :=
  call ≠ .stray ∧ ∀ m', call = .failed m' → Same m m'

def System.withFree (m : System) (free : List Page) : System :=
  {m with kernel := {m.kernel with freed := free}}

/-- The only thread in the registry is `cur`. -/
def Alone (k : Kernel) (cur : Slot) (own : Page) : Prop :=
  ∀ i, (k.shared own).isThere i = true → (k.shared own).threads i = some cur

section
variable {m : System} {cur : Slot} {own : Page} {path : List Byte} {argv : List (List Byte)}
  {f : Content} {fs : List Byte → Option Content}

theorem killOtherThreads_alone (h : Alone m.kernel cur own) : killOtherThreads m cur own = some m := by
  have hnone : ∀ p, victim m.kernel cur own p = false := by
    intro p
    simp only [victim, decide_eq_false_iff_not]
    rintro ⟨hne, i, hi, hp⟩
    exact hne (Option.some.inj (hp.symm.trans (h i hi)))
  unfold killOtherThreads Kernel.killOtherThreads
  rw [killFold_alone h]
  simp [hnone]

/-- What `execFile` fails with has the same procs, and the same pages. -/
theorem execFile_failed {m' : System} (h : execFile m cur own path argv f = .failed m') : Same m m' := by
  have hfreed : ∀ free, free.Perm m.kernel.freed → Same m (m.withFree free) := fun free hperm =>
    ⟨rfl, rfl, rfl, rfl, rfl, rfl, hperm⟩
  unfold execFile at h
  cases helf : elfhdr f with
  | none =>
    rw [helf] at h
    cases h
    exact hfreed _ (List.Perm.refl _)
  | some elf =>
    rw [helf] at h
    have hsetup := setupkvm_perm m.kernel.freed
    cases heq : setupkvm m.kernel.freed with
    | mk found free =>
      rw [heq] at h hsetup
      cases found with
      | none =>
        cases h
        exact hfreed _ hsetup
      | some d =>
        dsimp only at h
        have hbuild := build_conserves f elf argv d free
        cases hgo : build f elf argv d free with
        | stray | panicked =>
          rw [hgo] at h
          cases h
        | next x d' free' =>
          rw [hgo] at h
          dsimp only [commit] at h
          split at h <;> cases h
        | bad d' free' =>
          rw [hgo] at h hbuild
          cases h
          cases hbuild with
          | bad hperm => exact hfreed _ ((freevm_perm d' free').trans (hperm.trans hsetup))

theorem execFile_stray : (execFile m cur own path argv f = .stray → plan f argv = .stray) ∧
    (plan f argv = .stray → KTABLES + 1 + needs 0 UPAGES ≤ m.kernel.freed.length →
      execFile m cur own path argv f = .stray) := by
  unfold execFile
  cases helf : elfhdr f with
  | none =>
    have hplan : plan f argv = .bad := by
      unfold plan
      rw [helf]
    exact ⟨nofun, fun h => by rw [hplan] at h; cases h⟩
  | some elf =>
    rcases setupkvm_spec m.kernel.freed with ⟨-, d, free, heq, -, hlen⟩ | ⟨hless, free, heq⟩
    · obtain ⟨hto, hfrom⟩ := build_stray f helf argv (setupkvm_filled _ heq) free
      rw [heq]
      dsimp only
      cases hgo : build f elf argv d free with
      | stray => exact ⟨fun _ => hto hgo, fun _ _ => rfl⟩
      | panicked
      | bad d' free' => exact ⟨nofun, fun hp hl => absurd (hgo.symm.trans (hfrom hp (by omega))) nofun⟩
      | next x d' free' =>
        refine ⟨fun h => ?_, fun hp hl => absurd (hgo.symm.trans (hfrom hp (by omega))) nofun⟩
        dsimp only [commit] at h
        split at h <;> cases h
    · rw [heq]
      exact ⟨nofun, fun _ hl => by omega⟩

/-- Without the pages for a directory, every `exec` that finds a file fails. -/
theorem execFile_poor (h : m.kernel.freed.length < KTABLES + 1) :
    ∃ m', execFile m cur own path argv f = .failed m' ∧ m'.kernel.proc = m.kernel.proc := by
  unfold execFile
  cases elfhdr f with
  | none => exact ⟨m, rfl, rfl⟩
  | some elf =>
    rcases setupkvm_spec m.kernel.freed with ⟨hle, -⟩ | ⟨-, free, heq⟩
    · omega
    · dsimp only
      rw [heq]
      exact ⟨_, rfl, rfl⟩

theorem alone_of_failsClean (hown : (m.kernel.proc cur).sharePtr = some own)
    (h : FailsClean (m.withFree []) (exec fs (m.withFree []) cur path argv)) :
    Alone m.kernel cur own := by
  intro i hi
  obtain ⟨hstray, hfail⟩ := h
  have hown' : ((m.withFree []).kernel.proc cur).sharePtr = some own := hown
  unfold exec at hstray hfail
  simp only [hown'] at hstray hfail
  cases hkilled : killOtherThreads (m.withFree []) cur own with
  | none =>
    rw [hkilled] at hstray
    exact absurd rfl hstray
  | some m₁ =>
    rw [hkilled] at hfail
    obtain ⟨k, hkill, hm₁⟩ := Option.map_eq_some_iff.mp hkilled
    have hk : m₁.kernel = k := by rw [← hm₁]
    rw [← hk] at hkill
    obtain ⟨hlen, hall⟩ := killFold_some _ hkill
    obtain ⟨q, hq, hptr⟩ := hall i (List.mem_finRange i) hi
    by_cases hcur : q = cur
    · rw [hcur] at hq
      exact hq
    · -- the victim has lost its `sharePtr`, and there is no memory to go on with
      have hvictim : m₁.kernel.proc q = Kernel.freedProc (m.kernel.proc q) :=
        ((Kernel.killOtherThreads_eq _ cur own hkill).2.2 q).1 ⟨hcur, i, List.mem_finRange i, hi, hq⟩
      have hpoor : m₁.kernel.freed.length < KTABLES + 1 :=
        Nat.lt_of_le_of_lt hlen (show 0 + 6 < KTABLES + 1 by decide)
      have hsame : m₁.kernel.proc = m.kernel.proc := by
        cases hfs : fs path with
        | none =>
          rw [hfs] at hfail
          exact (hfail _ rfl).proc
        | some f =>
          rw [hfs] at hfail
          obtain ⟨m', heq, hproc⟩ := execFile_poor (f := f) hpoor
          exact hproc.symm.trans (hfail m' heq).proc
      have hlost : (m₁.kernel.proc q).sharePtr = none := by
        rw [hvictim]
        rfl
      rw [hsame] at hlost
      exact absurd hlost (hptr hcur)

theorem exec_fails_clean_iff (hown : (m.kernel.proc cur).sharePtr = some own) :
    (∀ free, FailsClean (m.withFree free) (exec fs (m.withFree free) cur path argv)) ↔
      Alone m.kernel cur own ∧ ∀ f, fs path = some f → plan f argv ≠ .stray := by
  have heq : Alone m.kernel cur own → ∀ free, exec fs (m.withFree free) cur path argv =
      match fs path with
      | none => .failed (m.withFree free)
      | some f => execFile (m.withFree free) cur own path argv f := by
    intro halone free
    have hown' : ((m.withFree free).kernel.proc cur).sharePtr = some own := hown
    have halone' : Alone (m.withFree free).kernel cur own := halone
    unfold exec
    rw [hown']
    dsimp only
    rw [killOtherThreads_alone halone']
  constructor
  · intro hall
    have halone := alone_of_failsClean hown (hall [])
    refine ⟨halone, fun f hfs hplan => ?_⟩
    -- with enough memory the plan is carried out
    obtain ⟨free, hlen⟩ : ∃ free : List Page, KTABLES + 1 + needs 0 UPAGES ≤ free.length :=
      ⟨List.range _, by rw [List.length_range]⟩
    have hclean := (hall free).1
    rw [heq halone, hfs] at hclean
    exact hclean (execFile_stray.2 hplan hlen)
  · intro ⟨halone, hplan⟩ free
    rw [heq halone]
    cases hfs : fs path with
    | none =>
      refine ⟨nofun, fun m' hm => ?_⟩
      cases hm
      exact ⟨rfl, rfl, rfl, rfl, rfl, rfl, List.Perm.refl _⟩
    | some f =>
      exact ⟨fun hstray => hplan f hfs (execFile_stray.1 hstray), fun m' hm => execFile_failed hm⟩

/-- A process of one thread, and no file: the call fails, with nothing changed. -/
theorem exec_fails_clean_alone : FailsClean ((small []).withFree [7, 8])
    (exec (fun _ => none) ((small []).withFree [7, 8]) 0 [115, 104] []) := by
  have hown : ((small []).kernel.proc 0).sharePtr = some 1 := by decide +kernel
  have halone : Alone (small []).kernel 0 1 := by
    unfold Alone
    decide +kernel
  exact (exec_fails_clean_iff hown).mpr ⟨halone, fun _ h => by cases h⟩ [7, 8]

/-- The first process with a second thread, which is asleep. -/
def paired : System :=
  {small [] with
    kernel :=
      {Kernel.boot with
        proc := update Kernel.boot.proc 1
          {Kernel.boot.proc 0 with state := .sleeping, pid := 2, kstack := some 9, orderOfThread := 1}
        shared := fun _ =>
          {Kernel.boot.shared 1 with
            numOfThread := 2, isThere := fun i => i.val < 2
            threads := fun i => if i = 0 then some 0 else if i = 1 then some 1 else none}}}

def Outcome.leaves (r : Outcome) (P : System → Bool) : Bool :=
  match r with
  | .failed m => P m
  | _ => false

theorem Outcome.of_leaves {r : Outcome} {P : System → Bool} (h : r.leaves P = true) :
    ∃ m, r = .failed m ∧ P m = true := by
  cases r with
  | failed m => exact ⟨m, rfl, h⟩
  | _ => cases h

/-- An `exec` of a name that does not exist destroys the other thread. -/
theorem mistyped_exec_destroys : ∃ m, exec (fun _ => none) paired 0 [0x78] [] = .failed m ∧
    decide ((paired.kernel.proc 1).state = .sleeping ∧ (paired.kernel.proc 1).pid = 2 ∧
      (m.kernel.proc 1).state = .unused ∧ (m.kernel.proc 1).pid = 0 ∧
      (m.kernel.proc 1).kstack = none ∧ m.kernel.freed = 9 :: paired.kernel.freed) = true :=
  Outcome.of_leaves (by decide +kernel)

end

end ThreadKernel.Memory
