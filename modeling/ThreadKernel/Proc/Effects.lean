import ThreadKernel.Proc.Step

/-! What each section leaves in the table, entry by entry.

`Kept` is what the sections that only wake procs, set `killed` or hand children on
guarantee of every entry. The two loops that free entries (`reap`,
`killOtherThreads`) are described by the set of entries they free. -/
namespace ThreadKernel

open Function

/-- Nothing but a wakeup, `killed`, `parent`, `chan` and `kstack` may differ. -/
structure Kept (x y : Proc) : Prop where
  state : y.state = x.state ∨ (x.state = .sleeping ∧ y.state = .runnable)
  context : y.context = x.context
  sharePtr : y.sharePtr = x.sharePtr
  order : y.orderOfThread = x.orderOfThread
  master : y.imMaster = x.imMaster
  retval : y.retval = x.retval

theorem Kept.refl (x : Proc) : Kept x x := ⟨.inl rfl, rfl, rfl, rfl, rfl, rfl⟩

theorem Kept.trans {x y z : Proc} (h : Kept x y) (h' : Kept y z) : Kept x z := by
  refine ⟨?_, h'.context.trans h.context, h'.sharePtr.trans h.sharePtr, h'.order.trans h.order,
    h'.master.trans h.master, h'.retval.trans h.retval⟩
  rcases h.state with hs | ⟨hs, hy⟩
  · rcases h'.state with hs' | ⟨hy, hz⟩
    · exact .inl (hs'.trans hs)
    · exact .inr ⟨hs ▸ hy, hz⟩
  · rcases h'.state with hs' | ⟨hy', _⟩
    · exact .inr ⟨hs, hs'.trans hy⟩
    · rw [hy] at hy'
      cases hy'

namespace Kernel

variable (s : Kernel) (cur np p q : Slot) (own a : Page) {s' : Kernel}

theorem wakeup1_kept (ch : Chan) : Kept (s.proc q) ((s.wakeup1 ch).proc q) := by
  simp only [wakeup1, mapProc_proc]
  split
  · rename_i h
    exact ⟨.inr ⟨h.1, rfl⟩, rfl, rfl, rfl, rfl, rfl⟩
  · exact .refl _

theorem reparent_kept : Kept (s.proc q) ((s.reparent cur).proc q) := by
  have hmap : Kept (s.proc q) ((s.mapProc fun _ x =>
      if x.parent = some cur then {x with parent := some s.initproc} else x).proc q) := by
    simp only [mapProc_proc]
    split
    · exact ⟨.inl rfl, rfl, rfl, rfl, rfl, rfl⟩
    · exact .refl _
  unfold reparent
  split
  · exact hmap.trans (wakeup1_kept _ q _)
  · exact hmap

theorem kill_kept : Kept (s.proc q) ((s.kill p).proc q) := by
  simp only [kill, mapProc_proc]
  split
  · refine ⟨?_, rfl, rfl, rfl, rfl, rfl⟩
    by_cases h : (s.proc q).state = .sleeping
    · simp [h]
    · simp [h]
  · exact .refl _

@[simp] theorem wakeup1_cpu (ch : Chan) : (s.wakeup1 ch).cpu = s.cpu := rfl
@[simp] theorem wakeup1_shared (ch : Chan) : (s.wakeup1 ch).shared = s.shared := rfl
@[simp] theorem wakeup1_initproc (ch : Chan) : (s.wakeup1 ch).initproc = s.initproc := rfl
@[simp] theorem wakeup1_nextPage (ch : Chan) : (s.wakeup1 ch).nextPage = s.nextPage := rfl

@[simp] theorem reparent_cpu : (s.reparent cur).cpu = s.cpu := by
  unfold reparent
  split <;> rfl

@[simp] theorem reparent_shared : (s.reparent cur).shared = s.shared := by
  unfold reparent
  split <;> rfl

@[simp] theorem reparent_initproc : (s.reparent cur).initproc = s.initproc := by
  unfold reparent
  split <;> rfl

@[simp] theorem reparent_nextPage : (s.reparent cur).nextPage = s.nextPage := by
  unfold reparent
  split <;> rfl

/-! ### exit -/

/-- The state in which `exit` starts to make zombies. -/
def exiting : Kernel :=
  (s.wakeup1 (Chan.ofProc (s.proc cur).parent)).reparent cur

theorem exiting_kept : Kept (s.proc q) ((s.exiting cur).proc q) :=
  (wakeup1_kept s q _).trans (reparent_kept _ cur q)

theorem exit_eq : s.exit cur =
    ((s.exiting cur).killSiblings cur).setProc cur fun x => {x with state := .zombie} := rfl

/-- `exit` makes zombies of exactly the procs with the caller's `sharePtr`. -/
theorem exit_proc : (s.exit cur).proc q =
    if (s.proc q).sharePtr = (s.proc cur).sharePtr then
      {(s.exiting cur).proc q with state := .zombie}
    else (s.exiting cur).proc q := by
  have hq := (exiting_kept s cur q).sharePtr
  have hcur := (exiting_kept s cur cur).sharePtr
  rw [exit_eq, setProc_proc]
  by_cases h : q = cur
  · subst h
    simp [killSiblings]
  · simp [killSiblings, h, hq, hcur]

/-- `exit` changes no entry's place in its process. -/
theorem exit_fields : ((s.exit cur).proc q).sharePtr = (s.proc q).sharePtr ∧
    ((s.exit cur).proc q).orderOfThread = (s.proc q).orderOfThread ∧
    ((s.exit cur).proc q).imMaster = (s.proc q).imMaster ∧
    ((s.exit cur).proc q).retval = (s.proc q).retval := by
  have hkept := exiting_kept s cur q
  rw [exit_proc, ← hkept.sharePtr, ← hkept.order, ← hkept.master, ← hkept.retval]
  generalize (s.exiting cur).proc q = x
  split
  · exact ⟨rfl, rfl, rfl, rfl⟩
  · exact ⟨rfl, rfl, rfl, rfl⟩

@[simp] theorem exit_cpu : (s.exit cur).cpu = s.cpu := by
  rw [exit_eq, setProc_cpu, killSiblings, mapProc_cpu, exiting, reparent_cpu, wakeup1_cpu]

@[simp] theorem exit_shared : (s.exit cur).shared = s.shared := by
  rw [exit_eq, setProc_shared, killSiblings, mapProc_shared, exiting, reparent_shared, wakeup1_shared]

@[simp] theorem exit_initproc : (s.exit cur).initproc = s.initproc := by
  rw [exit_eq, setProc_initproc, killSiblings, mapProc_initproc, exiting, reparent_initproc,
    wakeup1_initproc]

@[simp] theorem exit_nextPage : (s.exit cur).nextPage = s.nextPage := by
  rw [exit_eq, setProc_nextPage, killSiblings, mapProc_nextPage, exiting, reparent_nextPage,
    wakeup1_nextPage]

/-! ### allocproc -/

theorem exists_allocproc {s : Kernel} (h : ∃ q, (s.proc q).state = .unused) :
    ∃ np s', s.allocproc = some (np, s') := by
  obtain ⟨q, hq⟩ := h
  unfold allocproc
  cases hfind : Fin.find? fun p => (s.proc p).state = .unused with
  | none =>
    have := Fin.find?_eq_none_iff.mp hfind q
    simp [hq] at this
  | some np => exact ⟨_, _, rfl⟩

theorem allocproc_eq {s : Kernel} {np : Slot} (h : s.allocproc = some (np, s')) :
    (s.proc np).state = .unused ∧ (∀ p < np, (s.proc p).state ≠ .unused) ∧
      s' = {s.setProc np (fun x => {x with state := .embryo, pid := s.nextpid}) with
        nextpid := s.nextpid + 1} := by
  unfold allocproc at h
  split at h
  · cases h
  · rename_i np' hfind
    cases h
    obtain ⟨hnp, hmin⟩ := Fin.find?_eq_some_iff.mp hfind
    exact ⟨by simpa using hnp, fun p hp => by simpa using hmin p hp, rfl⟩

theorem allocproc_proc {s : Kernel} {np : Slot} (h : s.allocproc = some (np, s')) (q : Slot) :
    s'.proc q = if q = np then {s.proc np with state := .embryo, pid := s.nextpid} else s.proc q := by
  obtain ⟨-, -, rfl⟩ := allocproc_eq h
  simp only [setProc_proc]

theorem allocKstack_proc : (s.allocKstack np).proc q =
    if q = np then {s.proc np with kstack := some s.nextPage, context := some (.release .user)}
    else s.proc q := by
  simp only [allocKstack, setProc_proc]

theorem abandon_proc (stack : Option Page) : (s.abandon np stack).proc q =
    if q = np then {s.proc np with kstack := stack, state := .unused} else s.proc q :=
  setProc_proc s np q _

/-! ### fork -/

theorem forkPage_proc : (s.forkPage np).proc q =
    if q = np then {s.proc np with sharePtr := some s.nextPage} else s.proc q := by
  simp only [forkPage, setShared_proc, setProc_proc]

theorem forkPage_shared : (s.forkPage np).shared a =
    if a = s.nextPage then ⟨none, 0, fun _ => none, fun _ => false⟩ else s.shared a := by
  simp only [forkPage, setShared_shared, setProc_shared]

theorem forkCopy_shared : (s.forkCopy cur np own).shared a =
    if a = own then {s.shared own with pgdir := some s.nextPage} else s.shared a := by
  simp only [forkCopy, setProc_shared, setShared_shared]

theorem forkPublish_shared : (s.forkPublish np own).shared a =
    if a = own then
      {s.shared own with
        numOfThread := 1, isThere := fun i => i = 0
        threads := update (s.shared own).threads 0 (some np)}
    else s.shared a := by
  simp only [forkPublish, setProc_shared, setShared_shared]

theorem forkCopy_proc : (s.forkCopy cur np own).proc q =
    if q = np then {s.proc np with parent := some cur} else s.proc q := by
  simp only [forkCopy, setShared_proc, setProc_proc]

theorem forkCopyFail_proc : (s.forkCopyFail np).proc q =
    if q = np then {s.proc np with kstack := none, state := .unused} else s.proc q := by
  simp only [forkCopyFail, free_proc, setProc_proc]

theorem forkPublish_proc : (s.forkPublish np own).proc q =
    if q = np then {s.proc np with orderOfThread := 0, imMaster := true, state := .runnable}
    else s.proc q := by
  simp only [forkPublish, setShared_proc, setProc_proc]

/-! ### thread_create -/

theorem createFail_proc : (s.createFail cur np).proc q =
    if q = np then
      {s.proc np with
        sharePtr := (s.proc cur).sharePtr, parent := (s.proc cur).parent, state := .unused}
    else s.proc q :=
  setProc_proc s np q _

/-- The id a new thread gets: the first free entry, else what the slot last had. -/
def newOrder : Index :=
  (freeIndex (s.shared own)).getD (s.proc np).orderOfThread

theorem create_proc : (s.create cur np own).proc q =
    if q = np then
      {s.proc np with
        sharePtr := (s.proc cur).sharePtr, parent := (s.proc cur).parent, imMaster := false,
        state := .runnable, orderOfThread := s.newOrder np own}
    else s.proc q := by
  have hshared : (s.createProc cur np).shared = s.shared := rfl
  unfold create register newOrder
  rw [hshared]
  cases freeIndex (s.shared own) with
  | none => simp only [createProc, setProc_proc, Option.getD_none]
  | some i =>
    simp only [setProc_proc, setShared_proc, createProc, Option.getD_some]
    split <;> simp

/-- The registry after `thread_create`: with no free entry nothing is registered. -/
theorem create_shared : (s.create cur np own).shared a =
    match freeIndex (s.shared own) with
    | some i =>
      if a = own then
        {s.shared own with
          isThere := update (s.shared own).isThere i true
          threads := update (s.shared own).threads i (some np)
          numOfThread := (s.shared own).numOfThread + 1}
      else s.shared a
    | none => s.shared a := by
  have hshared : (s.createProc cur np).shared = s.shared := rfl
  unfold create register
  rw [hshared]
  cases freeIndex (s.shared own) with
  | none => rfl
  | some i => simp only [setProc_shared, setShared_shared, hshared]

@[simp] theorem create_cpu : (s.create cur np own).cpu = s.cpu := by
  unfold create register
  split <;> rfl

@[simp] theorem create_initproc : (s.create cur np own).initproc = s.initproc := by
  unfold create register
  split <;> rfl

@[simp] theorem create_nextPage : (s.create cur np own).nextPage = s.nextPage := by
  unfold create register
  split <;> rfl

/-! ### thread_exit and thread_join -/

theorem threadExit_proc (v : Word) : (s.threadExit cur own v).proc q =
    if q = cur then {(s.wakeup1 (s.masterChan own)).proc cur with state := .zombie, retval := v}
    else (s.wakeup1 (s.masterChan own)).proc q := by
  simp only [threadExit, setProc_proc, setShared_proc]

theorem threadExit_shared (v : Word) : (s.threadExit cur own v).shared a =
    if a = own then
      {s.shared own with
        isThere := update (s.shared own).isThere (s.proc cur).orderOfThread false}
    else s.shared a := by
  simp only [threadExit, setProc_shared, setShared_shared, wakeup1_shared]

theorem joinReap_shared : (s.joinReap p own).shared a =
    if a = own then {s.shared own with numOfThread := (s.shared own).numOfThread - 1}
    else s.shared a := by
  simp only [joinReap, setProc_shared, setShared_shared, free_shared]

theorem joinReap_proc : (s.joinReap p own).proc q =
    if q = p then
      {s.proc p with
        retval := 0, kstack := none, state := .unused, pid := 0, parent := none, killed := false,
        imMaster := false, orderOfThread := 0, sharePtr := none}
    else s.proc q := by
  simp only [joinReap, setProc_proc, setShared_proc, free_proc]

theorem joinBody_of_find {s : Kernel} {c t : Nat} {cur p : Slot} {own : Page}
    (hfind : Fin.find? (s.joinable cur t) = some p)
    (hstack : (s.proc p).kstack ≠ none) (hshare : (s.proc cur).sharePtr = some own) :
    s.joinBody c cur t =
      some ((s.joinReap p own).release c .user, .joined cur p t (s.proc p).retval) := by
  obtain ⟨stack, hstack⟩ := Option.ne_none_iff_exists'.mp hstack
  unfold joinBody
  rw [hfind]
  dsimp only
  rw [hstack, hshare]

/-! ### wait -/

section
variable (t : Slot)

theorem freevmLast_eq : ∃ pages, s.freevmLast t = {s with freed := pages} := by
  unfold freevmLast
  split
  · split
    · exact ⟨_, rfl⟩
    · exact ⟨_, rfl⟩
  · exact ⟨_, rfl⟩

@[simp] theorem freevmLast_proc : (s.freevmLast t).proc = s.proc := by
  obtain ⟨pages, h⟩ := freevmLast_eq s t
  rw [h]

@[simp] theorem freevmLast_shared : (s.freevmLast t).shared = s.shared := by
  obtain ⟨pages, h⟩ := freevmLast_eq s t
  rw [h]

@[simp] theorem freevmLast_cpu : (s.freevmLast t).cpu = s.cpu := by
  obtain ⟨pages, h⟩ := freevmLast_eq s t
  rw [h]

@[simp] theorem freevmLast_initproc : (s.freevmLast t).initproc = s.initproc := by
  obtain ⟨pages, h⟩ := freevmLast_eq s t
  rw [h]

@[simp] theorem freevmLast_nextPage : (s.freevmLast t).nextPage = s.nextPage := by
  obtain ⟨pages, h⟩ := freevmLast_eq s t
  rw [h]

end

/-- An entry of the table given back by `wait`. -/
def reapedProc (x : Proc) : Proc :=
  {x with kstack := none, pid := 0, parent := none, killed := false, state := .unused}

/-- What the loop of `wait` over the indices `is` gives back: the zombies with a pid
that `threads[]` lists there. -/
def Listed (is : List Index) : Prop :=
  (s.proc q).state = .zombie ∧ (s.proc q).pid ≠ 0 ∧ ∃ i ∈ is, (s.shared own).threads i = some q

instance (is : List Index) : Decidable (Listed s q own is) :=
  inferInstanceAs (Decidable (_ ∧ _ ∧ ∃ i ∈ is, (s.shared own).threads i = some q))

/-- Everything a state has besides the table, the page `own` and the freed pages. -/
structure SameRest (s s' : Kernel) (own : Page) : Prop where
  cpu : s'.cpu = s.cpu
  initproc : s'.initproc = s.initproc
  nextPage : s'.nextPage = s.nextPage
  other : ∀ a, a ≠ own → s'.shared a = s.shared a
  threads : (s'.shared own).threads = (s.shared own).threads
  isThere : (s'.shared own).isThere = (s.shared own).isThere

theorem SameRest.trans {s s'' : Kernel} {own : Page} (h : SameRest s s' own)
    (h' : SameRest s' s'' own) : SameRest s s'' own :=
  ⟨h'.cpu.trans h.cpu, h'.initproc.trans h.initproc, h'.nextPage.trans h.nextPage,
    fun a ha => (h'.other a ha).trans (h.other a ha), h'.threads.trans h.threads,
    h'.isThere.trans h.isThere⟩

section
variable {s own} {child : Slot} {i : Index} {t : Slot}

theorem reapOne_skip (h : ∀ t, (s.shared own).threads i = some t →
    ¬ ((s.proc t).state = .zombie ∧ (s.proc t).pid ≠ 0)) : reapOne child own s i = s := by
  unfold reapOne
  split
  · rfl
  · rename_i t ht
    rw [if_neg (h t ht)]

theorem reapOne_rest : SameRest s (reapOne child own s i) own := by
  unfold reapOne
  split
  · exact ⟨rfl, rfl, rfl, fun _ _ => rfl, rfl, rfl⟩
  · split
    · refine ⟨by simp, by simp, by simp, fun a ha => ?_, by simp, by simp⟩
      simp [setShared_shared, ha]
    · exact ⟨rfl, rfl, rfl, fun _ _ => rfl, rfl, rfl⟩

/-- A round that finds a zombie gives it back and takes the child's stack. -/
theorem reapOne_proc (child : Slot) (ht : (s.shared own).threads i = some t)
    (hz : (s.proc t).state = .zombie ∧ (s.proc t).pid ≠ 0) :
    (reapOne child own s i).proc q =
      if q = t then reapedProc (s.proc t)
      else if q = child then {s.proc q with kstack := none} else s.proc q := by
  unfold reapOne
  rw [ht]
  simp only [if_pos hz, setShared_proc, setProc_proc, freevmLast_proc, free_proc]
  by_cases hq : q = t
  · subst hq
    by_cases hc : q = child
    · simp [hc, reapedProc]
    · simp [hc, reapedProc]
  · by_cases hc : q = child
    · subst hc
      simp [hq]
    · simp [hq, hc]

theorem listed_skip {is : List Index} (h : ¬ ∃ t, (s.shared own).threads i = some t ∧
    (s.proc t).state = .zombie ∧ (s.proc t).pid ≠ 0) :
    Listed s q own (i :: is) ↔ Listed s q own is := by
  constructor
  · rintro ⟨hz, hp, j, hj, hq⟩
    rcases List.mem_cons.mp hj with rfl | hj
    · exact absurd ⟨q, hq, hz, hp⟩ h
    · exact ⟨hz, hp, j, hj, hq⟩
  · rintro ⟨hz, hp, j, hj, hq⟩
    exact ⟨hz, hp, j, List.mem_cons_of_mem _ hj, hq⟩

/-- A round that finds a zombie takes it off the list: a later one does not find it a
zombie again. -/
theorem listed_found (child : Slot) (is : List Index)
    (ht : (s.shared own).threads i = some t) (hz : (s.proc t).state = .zombie ∧ (s.proc t).pid ≠ 0) :
    Listed (reapOne child own s i) q own is ↔ q ≠ t ∧ Listed s q own (i :: is) := by
  have hproc := reapOne_proc q child ht hz
  by_cases hq : q = t
  · subst hq
    simp [Listed, hproc, reapedProc]
  · rw [if_neg hq] at hproc
    have hstate : ((reapOne child own s i).proc q).state = (s.proc q).state := by
      rw [hproc]
      split <;> rfl
    have hpid : ((reapOne child own s i).proc q).pid = (s.proc q).pid := by
      rw [hproc]
      split <;> rfl
    have hne : (s.shared own).threads i ≠ some q := by
      rw [ht]
      exact fun h => hq (Option.some.inj h).symm
    unfold Listed
    rw [reapOne_rest.threads, hstate, hpid]
    simp [hne, hq]

end

/-- The loop of `wait`: what is listed is given back, the rest keeps everything, the
child its kernel stack excepted. -/
theorem reapFold (child : Slot) (is : List Index) :
    let s' := is.foldl (reapOne child own) s
    SameRest s s' own ∧
      (Listed s q own is → s'.proc q = reapedProc (s.proc q)) ∧
      (¬ Listed s q own is →
        s'.proc q = s.proc q ∨ (q = child ∧ s'.proc q = {s.proc q with kstack := none})) := by
  induction is generalizing s with
  | nil =>
    refine ⟨⟨rfl, rfl, rfl, fun _ _ => rfl, rfl, rfl⟩, ?_, fun _ => .inl rfl⟩
    rintro ⟨-, -, i, hi, -⟩
    cases hi
  | cons i is ih =>
    simp only [List.foldl_cons]
    obtain ⟨hrest, hin, hout⟩ := ih (reapOne child own s i)
    refine ⟨reapOne_rest.trans hrest, ?_⟩
    by_cases hfound : ∃ t, (s.shared own).threads i = some t ∧
        (s.proc t).state = .zombie ∧ (s.proc t).pid ≠ 0
    · obtain ⟨t, ht, hz⟩ := hfound
      have hproc := reapOne_proc q child ht hz
      have hlist := listed_found q child is ht hz
      by_cases hq : q = t
      · subst hq
        rw [if_pos rfl] at hproc
        have hlisted : Listed s q own (i :: is) := ⟨hz.1, hz.2, i, List.mem_cons_self .., ht⟩
        refine ⟨fun _ => ?_, fun h => absurd hlisted h⟩
        rcases hout (fun h => (hlist.mp h).1 rfl) with h | ⟨_, h⟩
        · rw [h, hproc]
        · rw [h, hproc]
          rfl
      · rw [if_neg hq] at hproc
        refine ⟨fun h => ?_, fun h => ?_⟩
        · rw [hin (hlist.mpr ⟨hq, h⟩), hproc]
          split <;> rfl
        · rcases hout (fun h' => h (hlist.mp h').2) with h' | ⟨hc, h'⟩
          · rw [h', hproc]
            split
            · rename_i hc
              exact .inr ⟨hc, rfl⟩
            · exact .inl rfl
          · rw [h', hproc, if_pos hc]
            exact .inr ⟨hc, rfl⟩
    · have hskip : reapOne child own s i = s := reapOne_skip fun t ht hz => hfound ⟨t, ht, hz⟩
      rw [hskip] at hin hout ⊢
      rw [listed_skip q hfound]
      exact ⟨hin, hout⟩

/-! ### exec -/

/-- An entry of the table given back by `free_proc`; `imMaster` stays. -/
def freedProc (x : Proc) : Proc :=
  {x with
    kstack := none, pid := 0, parent := none, context := none, chan := .addr 0, killed := false,
    state := .unused, sharePtr := none, orderOfThread := 0, retval := 0}

theorem freedProc_freedProc (x : Proc) : freedProc (freedProc x) = freedProc x := rfl

/-- What `kill_other_threads` frees over the indices `is`. -/
def Victim (is : List Index) : Prop :=
  q ≠ cur ∧ ∃ i ∈ is, (s.shared own).isThere i = true ∧ (s.shared own).threads i = some q

section
variable {s own cur} {s' : Kernel} {i : Index}

/-- One round frees its entry, or there is nothing to free. -/
theorem killOther_eq (h : killOther cur own s i = some s') :
    SameRest s s' own ∧ s'.shared own = s.shared own ∧
      ((s' = s ∧ ∀ p, (s.shared own).isThere i = true → (s.shared own).threads i = some p → p = cur) ∨
        ∃ p, p ≠ cur ∧ (s.shared own).isThere i = true ∧ (s.shared own).threads i = some p ∧
          ∀ q, s'.proc q = if q = p then freedProc (s.proc p) else s.proc q) := by
  have same : SameRest s s own := ⟨rfl, rfl, rfl, fun _ _ => rfl, rfl, rfl⟩
  unfold killOther at h
  split at h
  · rename_i p hi hp
    split at h
    · rename_i hcur
      cases h
      refine ⟨same, rfl, .inl ⟨rfl, fun p' _ hp' => ?_⟩⟩
      rw [hp] at hp'
      rw [← Option.some.inj hp', hcur]
    · rename_i hcur
      unfold freeProc at h
      split at h
      · cases h
      · cases h
        refine ⟨⟨rfl, rfl, rfl, fun _ _ => rfl, rfl, rfl⟩, rfl, .inr ⟨p, hcur, hi, hp, fun q => ?_⟩⟩
        rw [setProc_proc]
        rfl
  · cases h
  · rename_i hi
    cases h
    exact ⟨same, rfl, .inl ⟨rfl, fun p hi' _ => absurd hi' (by rw [hi]; exact Bool.false_ne_true)⟩⟩

end

theorem killFold (is : List Index) (h : is.foldlM (killOther cur own) s = some s') :
    SameRest s s' own ∧ s'.shared own = s.shared own ∧
      (Victim s cur q own is → s'.proc q = freedProc (s.proc q)) ∧
      (¬ Victim s cur q own is → s'.proc q = s.proc q) := by
  induction is generalizing s with
  | nil =>
    cases h
    refine ⟨⟨rfl, rfl, rfl, fun _ _ => rfl, rfl, rfl⟩, rfl, ?_, fun _ => rfl⟩
    rintro ⟨-, i, hi, -⟩
    cases hi
  | cons i is ih =>
    obtain ⟨s₁, hs₁, hfold⟩ := Option.bind_eq_some_iff.mp h
    obtain ⟨hrest₁, hown₁, hround⟩ := killOther_eq hs₁
    obtain ⟨hrest, hown, hin, hout⟩ := ih s₁ hfold
    refine ⟨hrest₁.trans hrest, hown.trans hown₁, ?_⟩
    have htail : Victim s₁ cur q own is ↔ Victim s cur q own is := by
      unfold Victim
      rw [hown₁]
    rw [htail] at hin hout
    have hcons : Victim s cur q own (i :: is) ↔ Victim s cur q own is ∨
        (q ≠ cur ∧ (s.shared own).isThere i = true ∧ (s.shared own).threads i = some q) := by
      constructor
      · rintro ⟨hne, j, hj, hi⟩
        rcases List.mem_cons.mp hj with rfl | hj
        · exact .inr ⟨hne, hi⟩
        · exact .inl ⟨hne, j, hj, hi⟩
      · rintro (⟨hne, j, hj, hi⟩ | ⟨hne, hi⟩)
        · exact ⟨hne, j, List.mem_cons_of_mem _ hj, hi⟩
        · exact ⟨hne, i, List.mem_cons_self .., hi⟩
    rw [hcons]
    rcases hround with ⟨rfl, hnone⟩ | ⟨p, hpcur, hi, hp, hproc⟩
    · have hskip : ¬ (q ≠ cur ∧ (s₁.shared own).isThere i = true ∧ (s₁.shared own).threads i = some q) :=
        fun ⟨hne, hi, hq⟩ => hne (hnone q hi hq)
      simp only [hskip, or_false]
      exact ⟨hin, hout⟩
    · by_cases hq : q = p
      · -- freed in this round; freeing it again would change nothing
        subst hq
        have hfreed : s₁.proc q = freedProc (s.proc q) := by rw [hproc q, if_pos rfl]
        refine ⟨fun _ => ?_, fun h => absurd (.inr ⟨hpcur, hi, hp⟩) h⟩
        by_cases hv : Victim s cur q own is
        · rw [hin hv, hfreed, freedProc_freedProc]
        · rw [hout hv, hfreed]
      · have hsame : s₁.proc q = s.proc q := by rw [hproc q, if_neg hq]
        have hskip : ¬ (q ≠ cur ∧ (s.shared own).isThere i = true ∧ (s.shared own).threads i = some q) := by
          rintro ⟨-, -, hq'⟩
          rw [hp] at hq'
          exact hq (Option.some.inj hq').symm
        simp only [hskip, or_false]
        rw [hsame] at hin hout
        exact ⟨hin, hout⟩

theorem execCommit_proc : (s.execCommit cur own).proc q =
    if q = cur then {s.proc cur with imMaster := true} else s.proc q := by
  simp only [execCommit, setProc_proc, setShared_proc, free_proc]

theorem execCommit_shared : (s.execCommit cur own).shared a =
    if a = own then {s.shared own with pgdir := some s.nextPage} else s.shared a := by
  simp only [execCommit, setProc_shared, setShared_shared, free_shared]

/-- `kill_other_threads` frees exactly the registered procs other than the caller,
and leaves the registry as it was. -/
theorem killOtherThreads_eq (h : s.killOtherThreads cur own = some s') :
    SameRest s s' own ∧ s'.shared = s.shared ∧
      ∀ q, (Victim s cur q own (List.finRange 6) → s'.proc q = freedProc (s.proc q)) ∧
        (¬ Victim s cur q own (List.finRange 6) → s'.proc q = s.proc q) := by
  obtain ⟨hrest, hown, -⟩ := killFold s cur cur own (List.finRange 6) h
  refine ⟨hrest, ?_, fun q => (killFold s cur q own (List.finRange 6) h).2.2⟩
  funext a
  by_cases ha : a = own
  · rw [ha, hown]
  · exact hrest.other a ha

end Kernel
end ThreadKernel
