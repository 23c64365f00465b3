import ThreadKernel.Proc.Wait
import ThreadKernel.Proc.Sched

/-! What a step does to one entry of the table.

`Fate` lists what can become of an entry, with what the step tested for it, whatever
happens to the other entries in the same step. An invariant that speaks of entries one
by one is proved from this list. -/
namespace ThreadKernel

namespace Kernel

/-- What entry `q` can be after CPU `c` did `op` in `s`, seen as `e`. -/
inductive Fate (s : Kernel) (c : Nat) (op : Op) (e : Event) (q : Slot) : Proc → Prop where
  | kept : Fate s c op e q (s.proc q)
  /-- Switched to or from, put to sleep or woken. A context saved anew holds the code of
  the CPU, or the loop of `wait` or `thread_join`. -/
  | moved {st : ProcState} {ctx : Option Resume} {ch : Chan} :
      (s.cpu c).proc = some q ∨ (s.proc q).state = .runnable ∨ (s.proc q).state = .sleeping →
      st = .runnable ∨ st = .running ∨ st = .sleeping →
      (ctx = (s.proc q).context ∧ ((s.proc q).state = .runnable ∨ (s.proc q).state = .sleeping)) ∨
        (∀ k, ctx.bind Resume.ctx = some k → (s.cpu c).mode.ctx = some k) →
      (st = .running → (s.proc q).kstack ≠ none) →
      Fate s c op e q {s.proc q with state := st, context := ctx, chan := ch}
  | marked {p : Slot} {pid : Word} : op = .kill (some pid) →
      (Fin.find? fun q => (s.proc q).pid = pid) = some p →
      (s.proc q).sharePtr = (s.proc p).sharePtr →
      Fate s c op e q
        {s.proc q with
          killed := true
          state := if (s.proc q).state = .sleeping then .runnable else (s.proc q).state}
  | handedOut : e = .handedOut q → (s.proc q).state = .unused →
      Fate s c op e q {s.proc q with state := .embryo, pid := s.nextpid}
  /-- The rest of `allocproc`. -/
  | stacked {k : Ctx} : (s.cpu c).mode = .run k → k = .forkAlloc q ∨ k = .createAlloc q →
      Fate s c op e q {s.proc q with kstack := some s.nextPage, context := some (.release .user)}
  | paged : (s.cpu c).mode = .run (.forkPage q) →
      Fate s c op e q {s.proc q with sharePtr := some s.nextPage}
  | copied {cur : Slot} : s.cpu c = ⟨some cur, .run (.forkCopy q)⟩ →
      Fate s c op e q {s.proc q with parent := some cur}
  | abandoned {k : Ctx} {stack : Option Page} : (s.cpu c).mode = .run k →
      k = .forkAlloc q ∨ k = .createAlloc q ∨ k = .forkPage q →
      stack = (if k = .forkPage q then (s.proc q).kstack else none) →
      Fate s c op e q {s.proc q with kstack := stack, state := .unused}
  | copyFailed : (s.cpu c).mode = .run (.forkCopy q) →
      Fate s c op e q {s.proc q with kstack := none, state := .unused}
  | createFailed {cur : Slot} : s.cpu c = ⟨some cur, .run (.createFinish q)⟩ →
      Fate s c op e q
        {s.proc q with
          sharePtr := (s.proc cur).sharePtr, parent := (s.proc cur).parent, state := .unused}
  | published {cur : Slot} : e = .forked cur q → (s.cpu c).mode = .run (.forkPublish q) →
      Fate s c op e q {s.proc q with orderOfThread := 0, imMaster := true, state := .runnable}
  | created {cur : Slot} {own : Page} {i : Index} : e = .created cur q own i →
      s.cpu c = ⟨some cur, .run (.createFinish q)⟩ → (s.proc cur).sharePtr = some own →
      Fate s c op e q
        {s.proc q with
          sharePtr := (s.proc cur).sharePtr, parent := (s.proc cur).parent, imMaster := false,
          state := .runnable, orderOfThread := i}
  | left {v : Word} : e = .threadExited q v → s.cpu c = ⟨some q, .run .user⟩ →
      Fate s c op e q {s.proc q with state := .zombie, retval := v}
  /-- `exit` in its own process. -/
  | killed {cur : Slot} : e = .exited cur → s.cpu c = ⟨some cur, .run .user⟩ → cur ≠ s.initproc →
      (s.proc q).sharePtr = (s.proc cur).sharePtr →
      Fate s c op e q
        {s.proc q with
          state := .zombie
          parent := if (s.proc q).parent = some cur then some s.initproc else (s.proc q).parent}
  /-- `exit` in another process: the entry may be woken, or a child to hand on. -/
  | handedOn {cur : Slot} {st : ProcState} : e = .exited cur → s.cpu c = ⟨some cur, .run .user⟩ →
      cur ≠ s.initproc → (s.proc q).sharePtr ≠ (s.proc cur).sharePtr →
      st = (s.proc q).state ∨ ((s.proc q).state = .sleeping ∧ st = .runnable) →
      Fate s c op e q
        {s.proc q with
          state := st
          parent := if (s.proc q).parent = some cur then some s.initproc else (s.proc q).parent}
  | reaped {cur child : Slot} {pid : Word} : e = .waited cur child pid →
      (s.proc q).state = .zombie → (s.proc q).pid ≠ 0 → s.InThreads child q →
      Fate s c op e q (reapedProc (s.proc q))
  /-- The child whose pid `wait` returned, when its `threads[]` does not list it. -/
  | unstacked {cur : Slot} {pid : Word} : e = .waited cur q pid → (s.proc q).state = .zombie →
      (s.proc q).imMaster = true →
      Fate s c op e q {s.proc q with kstack := none}
  | joined {cur : Slot} {t : Nat} {r : Word} : e = .joined cur q t r → (s.proc q).state = .zombie →
      Fate s c op e q
        {s.proc q with
          retval := 0, kstack := none, state := .unused, pid := 0, parent := none, killed := false,
          imMaster := false, orderOfThread := 0, sharePtr := none}
  | freed {cur : Slot} {own : Page} : e = .killedOthers cur → (s.proc cur).sharePtr = some own →
      Victim s cur q own (List.finRange 6) → Fate s c op e q (freedProc (s.proc q))
  | led : e = .execed q → Fate s c op e q {s.proc q with imMaster := true}

variable {s s' : Kernel} {c : Nat} {op : Op} {e : Event} {cur : Slot}
  {s₁ : Kernel} {q : Slot} {k : Ctx} {x y : Proc}

namespace Fate

variable {q : Slot} {y : Proc}

theorem of_eq (h : y = s.proc q) : Fate s c op e q y :=
  h ▸ .kept

theorem update (p : Slot) (hp : q = p → Fate s c op e q x)
    (hy : y = if q = p then x else s.proc q) : Fate s c op e q y := by
  rw [hy]
  split
  · rename_i hq
    exact hp hq
  · exact .kept

/-- Switched from, put to sleep or woken. -/
theorem away {st : ProcState} {ctx : Option Resume} {ch : Chan}
    (hold : (s.cpu c).proc = some q ∨ (s.proc q).state = .runnable ∨ (s.proc q).state = .sleeping)
    (hst : st = .runnable ∨ st = .sleeping)
    (hctx : (ctx = (s.proc q).context ∧
        ((s.proc q).state = .runnable ∨ (s.proc q).state = .sleeping)) ∨
      ∀ k, ctx.bind Resume.ctx = some k → (s.cpu c).mode.ctx = some k) :
    Fate s c op e q {s.proc q with state := st, context := ctx, chan := ch} := by
  refine .moved hold (hst.imp_right .inr) hctx fun hrun => ?_
  rcases hst with rfl | rfl <;> cases hrun

theorem wakeup (ch : Chan) : Fate s c op e q ((s.wakeup1 ch).proc q) := by
  simp only [wakeup1, mapProc_proc]
  split
  · rename_i h
    exact .away (.inr (.inr h.1)) (.inl rfl) (.inl ⟨rfl, .inr h.1⟩)
  · exact .kept

end Fate

theorem wakeup1_proc (ch : Chan) (q : Slot) : (s.wakeup1 ch).proc q = {s.proc q with state :=
      if (s.proc q).state = .sleeping ∧ (s.proc q).chan = ch then .runnable else (s.proc q).state} := by
  simp only [wakeup1, mapProc_proc]
  split <;> rfl

/-- What `exit` does to every entry before it makes zombies. -/
theorem exiting_proc (s : Kernel) (cur q : Slot) : ∃ st,
    (st = (s.proc q).state ∨ ((s.proc q).state = .sleeping ∧ st = .runnable)) ∧
    (s.exiting cur).proc q =
      {s.proc q with
        state := st
        parent := if (s.proc q).parent = some cur then some s.initproc else (s.proc q).parent} := by
  refine ⟨((s.exiting cur).proc q).state, (exiting_kept s cur q).state, ?_⟩
  simp only [exiting, reparent]
  split
  · simp only [wakeup1_proc, mapProc_proc, wakeup1_initproc]
    split <;> rfl
  · simp only [wakeup1_proc, mapProc_proc, wakeup1_initproc]
    split <;> rfl

theorem exit_fate (hc : s.cpu c = ⟨some cur, .run .user⟩) (hinit : cur ≠ s.initproc) (q : Slot) :
    Fate s c op (.exited cur) q ((s.exit cur).proc q) := by
  obtain ⟨st, hst, hproc⟩ := exiting_proc s cur q
  rw [exit_proc, hproc]
  split
  · rename_i hshare
    exact .killed rfl hc hinit hshare
  · rename_i hshare
    exact .handedOn rfl hc hinit hshare hst

/-- Past `Enter`, an entry is as before, or it is the caller's and the caller is running. -/
theorem enter_proc (h : Enter s c cur s₁) (q : Slot) :
    s₁.proc q = s.proc q ∨
      (q = cur ∧ (s.proc q).state = .runnable ∧ (s.proc q).kstack ≠ none ∧
        s₁.proc q = {s.proc q with state := .running, chan := .addr 0}) := by
  cases h with
  | call => exact .inl rfl
  | wake hm hp hr _ hstack =>
    by_cases hq : q = cur
    · subst hq
      exact .inr ⟨rfl, hp, hstack, by simp⟩
    · exact .inl (by rw [setProc_ne _ _ _ _ hq, setProc_ne _ _ _ _ hq, setCpu_proc])

theorem enter_zombie (h : Enter s c cur s₁)
    (hq : (s₁.proc q).state = .zombie) : s₁.proc q = s.proc q := by
  rcases enter_proc h q with hsame | ⟨-, -, -, hrun⟩
  · exact hsame
  · rw [hrun] at hq
    cases hq

theorem enter_moved (h : Enter s c cur s₁) (q : Slot) :
    Fate s c op e q (s₁.proc q) := by
  rcases enter_proc h q with hsame | ⟨-, hstate, hstack, hrun⟩
  · exact .of_eq hsame
  · rw [hrun]
    exact .moved (.inr (.inl hstate)) (.inr (.inl rfl)) (.inl ⟨rfl, .inl hstate⟩) fun _ => hstack

theorem body_fate (henter : Enter s c cur s₁) (hbody : Body s₁ c cur e s') (q : Slot) :
    Fate s c op e q (s'.proc q) := by
  have hshared : s₁.shared = s.shared := by
    cases henter <;> rfl
  cases hbody with
  | @reaped child own hfind hown =>
    have hwait := Fin.eq_true_of_find?_eq_some hfind
    simp only [waitable, decide_eq_true_eq] at hwait
    have hchild := enter_zombie henter hwait.2.1
    rw [release_proc]
    by_cases hl : Listed s₁ q own (List.finRange 6)
    · have hin : s.InThreads child q := by
        obtain ⟨-, -, i, -, hi⟩ := hl
        exact ⟨own, by rw [← hchild]; exact hown, i, by rw [← hshared]; exact hi⟩
      rw [reap_listed hl]
      obtain ⟨hz, hpid, -⟩ := hl
      have hq := enter_zombie henter hz
      rw [hq] at hz hpid ⊢
      exact .reaped rfl hz hpid hin
    · rcases (reapFold s₁ q own child (List.finRange 6)).2.2 hl with hq | ⟨rfl, hq⟩
      · rw [reap, hq]
        exact enter_moved henter q
      · rw [reap, hq, hchild]
        rw [hchild] at hwait
        exact .unstacked rfl hwait.2.1 hwait.2.2
  | @joined p t own stack hfind hstack hown =>
    have hjoin := Fin.eq_true_of_find?_eq_some hfind
    simp only [joinable, decide_eq_true_eq] at hjoin
    have hp := enter_zombie henter hjoin.2.1
    rw [release_proc, joinReap_proc]
    split
    · rename_i hq
      subst hq
      have hz := hjoin.2.1
      rw [hp] at hz ⊢
      exact .joined rfl hz
    · exact enter_moved henter q
  | failed => exact enter_moved henter q
  | asleep hr =>
    rw [Kernel.sleep, sched_proc, setProc_proc]
    split
    · rename_i hq
      subst hq
      have hloop : ∀ r : Resume, r = .waitLoop ∨ (∃ t, r = .joinLoop t) →
          ∀ k, (some r).bind Resume.ctx = some k → (s.cpu c).mode.ctx = some k := by
        intro r hr k hk
        rcases hr with rfl | ⟨t, rfl⟩ <;> cases hk
      cases henter with
      | call hc => exact .away (.inl (by rw [hc])) (.inr rfl) (.inr (hloop _ hr))
      | wake hm hp => simpa using Fate.away (.inr (.inl hp)) (.inr rfl) (.inr (hloop _ hr))
    · exact enter_moved henter q

theorem Case.fate (h : Case s c op e s') (q : Slot) : Fate s c op e q (s'.proc q) := by
  cases h with
  | acquire | letGo | tick | stay | killLeak | execFail => exact .kept
  | resume hm hp hr hstack =>
    rw [release_proc, setProc_proc]
    split
    · rename_i hq
      subst hq
      exact .moved (.inr (.inl hp)) (.inr (.inl rfl)) (.inl ⟨rfl, .inl hp⟩) fun _ => hstack
    · exact .kept
  | @awake i p k hm hp hr hstack =>
    rw [release_proc]
    by_cases hq : q = p
    · subst hq
      rw [setProc_same, setProc_same]
      exact .moved (.inr (.inl hp)) (.inr (.inl rfl)) (.inl ⟨rfl, .inl hp⟩) fun _ => hstack
    · rw [setProc_ne _ _ _ _ hq, setProc_ne _ _ _ _ hq]
      exact .kept
  | body henter hbody => exact body_fate henter hbody q
  | yield hc hl =>
    rw [sched_proc, setProc_proc]
    split
    · rename_i hq
      subst hq
      exact .away (.inl (by rw [hc])) (.inl rfl) (.inr fun k' hk => by rw [hc]; exact hk)
    · exact .kept
  | sleep hc hl =>
    rw [Kernel.sleep, sched_proc, setProc_proc]
    split
    · rename_i hq
      subst hq
      exact .away (.inl (by rw [hc])) (.inr rfl) (.inr fun k' hk => by rw [hc]; exact hk)
    · exact .kept
  | wakeup => exact .wakeup _
  | @alloc cur np s₁ k hc halloc hk =>
    refine .update np (fun hq => ?_) (allocproc_proc halloc q)
    subst hq
    exact .handedOut rfl (allocproc_eq halloc).1
  | @allocKstack cur np k k' hc hk =>
    refine .update np (fun hq => ?_) (allocKstack_proc s np q)
    subst hq
    refine .stacked (k := k) (by rw [hc]) ?_
    rcases hk with ⟨h, -⟩ | ⟨h, -⟩
    · exact .inl h
    · exact .inr h
  | @abandon cur np k stack hc hk hstack =>
    refine .update np (fun hq => ?_) (abandon_proc s np q stack)
    subst hq
    exact .abandoned (k := k) (by rw [hc]) hk hstack
  | @forkPage cur np hc =>
    refine .update np (fun hq => ?_) (forkPage_proc s np q)
    subst hq
    exact .paged (by rw [hc])
  | @forkCopy cur np own hc =>
    refine .update np (fun hq => ?_) (forkCopy_proc s cur np q own)
    subst hq
    exact .copied hc
  | @forkCopyFail cur np hc =>
    refine .update np (fun hq => ?_) (forkCopyFail_proc s np q)
    subst hq
    exact .copyFailed (by rw [hc])
  | @forkPublish cur np own hc =>
    refine .update np (fun hq => ?_) (forkPublish_proc s np q own)
    subst hq
    exact .published rfl (by rw [hc])
  | @create cur np own hc hown =>
    refine .update np (fun hq => ?_) (create_proc s cur np q own)
    subst hq
    refine .created ?_ hc hown
    rw [create_proc, if_pos rfl]
  | @createFail cur np own hc hown =>
    refine .update np (fun hq => ?_) (createFail_proc s cur np q)
    subst hq
    exact .createFailed hc
  | @threadExit cur own v hc hown =>
    rw [sched_proc, threadExit_proc]
    split
    · rename_i hq
      subst hq
      rw [wakeup1_proc]
      exact .left rfl hc
    · exact .wakeup _
  | exit hc hown hinit => exact exit_fate hc hinit q
  | kill hop hfind =>
    simp only [Kernel.kill, mapProc_proc]
    split
    · rename_i hshare
      exact .marked hop hfind hshare
    · exact .kept
  | @exec cur own s₁ k init hc hown hkill hk =>
    obtain ⟨-, -, hproc⟩ := killOtherThreads_eq s cur own hkill
    show Fate s c op _ q (s₁.proc q)
    by_cases hv : Victim s cur q own (List.finRange 6)
    · rw [(hproc q).1 hv]
      exact .freed rfl hown hv
    · exact .of_eq ((hproc q).2 hv)
  | @execCommit cur own init hc hown =>
    refine .update cur (fun hq => ?_) (execCommit_proc s cur q own)
    subst hq
    exact .led rfl

/-! ### Code in progress -/

theorem target_embryo (hi : Sound s) (hm : (s.cpu c).mode = .run k)
    (ht : k.target = some q) : (s.proc q).state = .embryo :=
  hi.embryo (h := .cpu c) (by rw [Kernel.code, hm]; rfl) ht

theorem target_context (hi : Sound s) (hm : (s.cpu c).mode = .run k)
    (hr : k.ready = some q) : (s.proc q).context = some (.release .user) :=
  hi.ready (h := .cpu c) (by rw [Kernel.code, hm]; rfl) hr

/-- A wakeup leaves the code of an entry where it is. -/
theorem ctx_of_woken (hk : y.ctx = some k) (hctx : y.context = x.context)
    (hst : y.state = x.state ∨ (x.state = .sleeping ∧ y.state = .runnable)) : x.ctx = some k := by
  rw [← hk]
  rcases hst with hst | ⟨hx, hy⟩
  · exact (Proc.ctx_congr hst hctx).symm
  · unfold Proc.ctx
    rw [if_pos (.inr hx), if_pos (.inl hy), hctx]

/-- Code kept in an entry was in progress before, or it has no slot from `allocproc`. -/
theorem Fate.ctx (hi : Sound s) (hf : Fate s c op e q y)
    (hk : y.ctx = some k) : (∃ h, s.code h = some k) ∨ k.target = none := by
  have hsame : (s.proc q).ctx = some k → (∃ h, s.code h = some k) ∨ k.target = none :=
    fun h => .inl ⟨.slot q, h⟩
  have hstarted : (s.proc q).context = some (.release .user) → y.context = (s.proc q).context →
      k.target = none := by
    intro hx hy
    unfold Proc.ctx at hk
    rw [hy, hx] at hk
    split at hk
    · cases hk
      rfl
    · cases hk
  cases hf with
  | kept | paged | copied | led | unstacked => exact hsame hk
  | moved _ hst hctx =>
    unfold Proc.ctx at hk
    split at hk
    · rcases hctx with ⟨rfl, hx⟩ | hcpu
      · exact hsame (by rw [Proc.ctx, if_pos hx]; exact hk)
      · exact .inl ⟨.cpu c, hcpu k hk⟩
    · cases hk
  | marked =>
    apply hsame
    apply ctx_of_woken (x := s.proc q) hk rfl
    by_cases hx : (s.proc q).state = .sleeping
    · exact .inr ⟨hx, if_pos hx⟩
    · exact .inl (if_neg hx)
  | handedOn _ _ _ _ hst => exact hsame (ctx_of_woken (x := s.proc q) hk rfl hst)
  | stacked hm hor =>
    have hembryo := target_embryo hi hm (q := q) (by rcases hor with rfl | rfl <;> rfl)
    simp [Proc.ctx, hembryo] at hk
  | published _ hm => exact .inr (hstarted (target_context hi hm rfl) rfl)
  | created _ hc => exact .inr (hstarted (target_context hi (c := c) (by rw [hc]) rfl) rfl)
  | handedOut | abandoned | copyFailed | createFailed | left | killed | reaped | joined | freed =>
    simp [Proc.ctx, reapedProc, freedProc] at hk

/-- Where the code on CPU `c` is after a step from `s` to `s'`: where code was already, on
this CPU or saved; or somewhere without a slot from `allocproc`; or at the next place of
its call. -/
inductive Resumed (s : Kernel) (e : Event) (s' : Kernel) (c : Nat) : Ctx → Prop where
  | cpu {k : Ctx} : (s.cpu c).mode.ctx = some k → Resumed s e s' c k
  | saved {p : Slot} {k : Ctx} : (s.proc p).ctx = some k → Resumed s e s' c k
  | free {k : Ctx} : k.target = none → Resumed s e s' c k
  | alloc {np : Slot} {k : Ctx} : (s.proc np).state = .unused →
      k = .forkAlloc np ∨ k = .createAlloc np → Resumed s e s' c k
  | stack {np : Slot} {k k' : Ctx} : (s.cpu c).mode = .run k →
      (k = .forkAlloc np ∧ k' = .forkPage np) ∨ (k = .createAlloc np ∧ k' = .createFinish np) →
      Resumed s e s' c k'
  | page {np : Slot} : (s.cpu c).mode = .run (.forkPage np) → Resumed s e s' c (.forkCopy np)
  | copy {cur np : Slot} : s.cpu c = ⟨some cur, .run (.forkCopy np)⟩ → e = .quiet →
      (s'.proc np).parent = some cur → Resumed s e s' c (.forkPublish np)

theorem enter_cpu (h : Enter s c cur s₁) :
    s₁.cpu c = ⟨some cur, .run .user⟩ ∧ ∀ c', c' ≠ c → s₁.cpu c' = s.cpu c' := by
  cases h with
  | call hc => exact ⟨hc, fun _ _ => rfl⟩
  | wake hm hp hr => exact ⟨by simp [setCpu_cpu], fun c' hc' => by simp [setCpu_cpu, hc']⟩

theorem body_cpu (h : Body s c cur e s') : (∀ c', c' ≠ c → s'.cpu c' = s.cpu c') ∧
    ∀ k, (s'.cpu c).mode.ctx = some k → k = .user := by
  have hrelease : ∀ t : Kernel, t.cpu = s.cpu →
      (∀ c', c' ≠ c → (t.release c .user).cpu c' = s.cpu c') ∧
        ∀ k, ((t.release c .user).cpu c).mode.ctx = some k → k = .user := by
    intro t ht
    refine ⟨fun c' hc' => by rw [release_cpu, if_neg hc', ht], fun k hk => ?_⟩
    rw [release_cpu, if_pos rfl] at hk
    exact (Option.some.inj hk).symm
  cases h with
  | @reaped child own => exact hrelease _ (reapFold s cur own child _).1.cpu
  | joined | failed => exact hrelease _ rfl
  | asleep =>
    refine ⟨fun c' hc' => by rw [Kernel.sleep, sched_cpu, if_neg hc', setProc_cpu], fun k hk => ?_⟩
    rw [Kernel.sleep, sched_cpu, if_pos rfl] at hk
    cases hk

/-- A step changes no CPU but its own. -/
theorem Case.cpu (h : Case s c op e s') : (∀ c', c' ≠ c → s'.cpu c' = s.cpu c') ∧
    ∀ k, (s'.cpu c).mode.ctx = some k → Resumed s e s' c k := by
  -- `x` is what the step leaves on CPU `c`
  have hset : ∀ {t : Kernel} {x : Cpu}, (∀ c', t.cpu c' = if c' = c then x else s.cpu c') →
      (∀ k, x.mode.ctx = some k → Resumed s e s' c k) →
      (∀ c', c' ≠ c → t.cpu c' = s.cpu c') ∧ ∀ k, (t.cpu c).mode.ctx = some k → Resumed s e s' c k := by
    intro t x ht hx
    refine ⟨fun c' hc' => by rw [ht, if_neg hc'], fun k hk => ?_⟩
    rw [ht, if_pos rfl] at hk
    exact hx k hk
  have hgoto : ∀ {t : Kernel} (k : Ctx), t.cpu = s.cpu → Resumed s e s' c k →
      (∀ c', c' ≠ c → (t.goto c k).cpu c' = s.cpu c') ∧
        ∀ k', ((t.goto c k).cpu c).mode.ctx = some k' → Resumed s e s' c k' := by
    intro t k ht hk
    refine hset (fun c' => by rw [Kernel.goto, setCpu_cpu, ht]) fun k' hk' => ?_
    cases hk'
    exact hk
  have hsame : s'.cpu = s.cpu → (∀ c', c' ≠ c → s'.cpu c' = s.cpu c') ∧
      ∀ k, (s'.cpu c).mode.ctx = some k → Resumed s e s' c k := by
    intro hcpu
    rw [hcpu]
    exact ⟨fun _ _ => rfl, fun k hk => .cpu hk⟩
  cases h with
  | acquire | letGo => exact hset (setCpu_cpu s c · _) fun k hk => by cases hk
  | @resume i p k hm hp hr | @awake i p k hm hp hr =>
    refine hset (x := ⟨some p, .run k⟩) (fun c' => ?_) fun k' hk' => ?_
    · simp only [release_cpu, setProc_cpu, setCpu_cpu, if_true]
      split <;> rfl
    · cases hk'
      exact .saved (p := p) (by simp [Proc.ctx, hp, hr, Resume.ctx])
  | body henter hbody =>
    obtain ⟨-, hothers⟩ := enter_cpu henter
    obtain ⟨hrest, hcur⟩ := body_cpu hbody
    refine ⟨fun c' hc' => (hrest c' hc').trans (hothers c' hc'), fun k hk => ?_⟩
    rw [hcur k hk]
    exact .free rfl
  | tick hc => exact hset (setCpu_cpu s c · _) fun k hk => .cpu (by rw [hc]; exact hk)
  | yield | sleep | threadExit => exact hset (fun c' => sched_cpu _ _ c c') fun k hk => by cases hk
  | wakeup | stay | killLeak => exact hsame rfl
  | @alloc cur np s₁ k hc halloc hk =>
    obtain ⟨hunused, -, rfl⟩ := allocproc_eq halloc
    exact hgoto k rfl (.alloc hunused hk)
  | allocKstack hc hk => exact hgoto _ rfl (.stack (by rw [hc]) hk)
  | abandon | forkCopyFail | forkPublish | createFail | execCommit => exact hgoto .user rfl (.free rfl)
  | forkPage hc => exact hgoto _ rfl (.page (by rw [hc]))
  | @forkCopy cur np own hc =>
    refine hgoto _ rfl (.copy hc rfl ?_)
    rw [Kernel.goto, setCpu_proc, forkCopy_proc, if_pos rfl]
  | create => exact hgoto .user (create_cpu ..) (.free rfl)
  | exit => exact hset (fun c' => by rw [sched_cpu, exit_cpu]) fun k hk => by cases hk
  | kill => exact hsame rfl
  | @exec cur own s₁ k init hc hown hkill hk =>
    exact hgoto _ (killOtherThreads_eq s cur own hkill).1.cpu (.free rfl)
  | execFail hc hown hk => exact hgoto _ rfl (.free (by rcases hk with ⟨rfl, -⟩ | ⟨rfl, -⟩ <;> rfl))

end Kernel

end ThreadKernel
