import ThreadKernel.Proc.Safety

/-! Whose child a proc is.

`fork` makes the calling thread the parent of the child, and `thread_create` gives the
new thread the parent of its process. `exit` hands the caller's children to `initproc`,
and only the caller's: the children of a thread that leaves by `thread_exit`, or that a
sibling's `exit` or `exec` does away with, go on pointing at its slot. Parents are right
on every run in which nobody who goes in one of these ways has children. -/
namespace ThreadKernel

open Lts

namespace Kernel

/-- Nobody in use has `q` for its parent. -/
def NoChild (s : Kernel) (q : Slot) : Prop :=
  ∀ r, (s.proc r).state ≠ .unused → (s.proc r).parent ≠ some q

instance (s : Kernel) (q : Slot) : Decidable (s.NoChild q) :=
  inferInstanceAs (Decidable (∀ _, _))

/-- What a call is asked to find, so that nobody is left with a dead parent. -/
def Childless (s : Kernel) : Event → Prop
  /- `thread_exit`: the caller has no children and is not `initproc` -/
  | .threadExited cur _ => cur ≠ s.initproc ∧ s.NoChild cur
  /- `exit`: the process is not `init`, the other procs with the caller's `sharePtr` have
  no children, and none of them is a free slot -/
  | .exited cur => (s.proc s.initproc).sharePtr ≠ (s.proc cur).sharePtr ∧
      ∀ q, q ≠ cur → (s.proc q).sharePtr = (s.proc cur).sharePtr →
        (s.proc q).state ≠ .unused ∧ s.NoChild q
  /- `exec`: the other registered procs have no children and are not `initproc` -/
  | .killedOthers cur => ∀ own ∈ (s.proc cur).sharePtr, ∀ i, (s.shared own).isThere i = true →
      ∀ q ∈ (s.shared own).threads i, q ≠ cur → q ≠ s.initproc ∧ s.NoChild q
  | .quiet | .handedOut _ | .forked _ _ | .created _ _ _ _ | .waited _ _ _ | .joined _ _ _ _
  | .execed _ => True

instance (s : Kernel) (e : Event) : Decidable (s.Childless e) := by
  apply @Event.casesOn _ e <;> intros <;> dsimp only [Childless] <;> infer_instance

/-- The same, and `exit` and `exec` leave running procs and slots in the making alone. -/
def Foster (s : Kernel) (e : Event) : Prop := Apart s e ∧ s.Childless e

instance (s : Kernel) (e : Event) : Decidable (s.Foster e) :=
  inferInstanceAs (Decidable (_ ∧ _))

/-- `q` is in use and has been given a parent: while it is in the making, that is when its
`fork` is about to publish it. -/
def Placed (s : Kernel) (q : Slot) : Prop :=
  (s.proc q).state ≠ .unused ∧
    ((s.proc q).state = .embryo → ∃ h, s.code h = some (.forkPublish q))

/-- `q` is `initproc` or a thread of it. -/
def OfInit (s : Kernel) (q : Slot) : Prop :=
  (s.proc q).sharePtr = (s.proc s.initproc).sharePtr

/-- Parents are alive, and so is `initproc`. -/
structure Housed (s : Kernel) : Prop where
  init : (s.proc s.initproc).Live
  parent : ∀ {q}, s.Placed q → ¬ s.OfInit q → ∃ p, (s.proc q).parent = some p ∧ (s.proc p).Live

variable {s s' : Kernel} {c : Nat} {op : Op} {e : Event} {p q : Slot}

theorem Case.initproc (h : Case s c op e s') : s'.initproc = s.initproc := by
  cases h with
  | body henter hbody =>
    have hs : ∀ {s₁ : Kernel} {cur : Slot}, Enter s c cur s₁ → s₁.initproc = s.initproc := by
      intro s₁ cur henter
      cases henter <;> rfl
    rw [← hs henter]
    cases hbody with
    | @reaped child own => exact (reapFold _ child own child _).1.initproc
    | _ => rfl
  | alloc hc halloc =>
    obtain ⟨-, -, rfl⟩ := allocproc_eq halloc
    rfl
  | create => rw [Kernel.goto, setCpu_initproc, create_initproc]
  | exit => rw [sched_initproc, exit_initproc]
  | exec hc hown hkill => exact (killOtherThreads_eq s _ _ hkill).1.initproc
  | _ => rfl

/-- A `fork` about to publish its child was about to before, or has just recorded the
parent. -/
theorem Case.publishing (hi : Sound s) (h : Case s c op e s') {holder : Holder}
    (hk : s'.code holder = some (.forkPublish q)) :
    (∃ h, s.code h = some (.forkPublish q)) ∨
      ∃ cur, (s.cpu c).proc = some cur ∧ e = .quiet ∧ (s'.proc q).parent = some cur := by
  cases holder with
  | slot p =>
    rcases (h.fate p).ctx hi hk with hbefore | hnone
    · exact .inl hbefore
    · cases hnone
  | cpu c' =>
    by_cases hc' : c' = c
    · subst hc'
      cases h.cpu.2 _ hk with
      | cpu hk => exact .inl ⟨.cpu c', hk⟩
      | @saved p _ hk => exact .inl ⟨.slot p, hk⟩
      | free hnone => cases hnone
      | alloc _ hk => rcases hk with hk | hk <;> cases hk
      | stack _ hk => rcases hk with ⟨-, hk⟩ | ⟨-, hk⟩ <;> cases hk
      | copy hc he hparent => exact .inr ⟨_, by rw [hc], he, hparent⟩
    · refine .inl ⟨.cpu c', ?_⟩
      rw [← hk, Kernel.code, Kernel.code, h.cpu.1 c' hc']

/-- Nobody whose child is in use dies in a step that keeps the rule; the children of the
caller of `exit` are handed on. -/
theorem Childless.spares (hg : s.Childless e) (hq : (s.proc q).state ≠ .unused)
    (hparent : (s.proc q).parent = some p) (hnot : e ≠ .exited p) : ¬ Dies s c p e := by
  intro hd
  cases hd with
  | left => exact hg.2 q hq hparent
  | @killed cur _ hshare =>
    by_cases hp : p = cur
    · exact hnot (by rw [hp])
    · exact (hg.2 p hp hshare).2 q hq hparent
  | freed hown hv =>
    obtain ⟨hne, i, -, hi, hthreads⟩ := hv
    exact (hg _ hown i hi p hthreads hne).2 q hq hparent

theorem Childless.spares_init (hg : s.Childless e) : ¬ Dies s c s.initproc e := by
  intro hd
  cases hd with
  | left => exact hg.1 rfl
  | killed _ hshare => exact hg.1 hshare
  | freed hown hv =>
    obtain ⟨hne, i, -, hi, hthreads⟩ := hv
    exact (hg _ hown i hi s.initproc hthreads hne).1 rfl

theorem Sound.placed (hi : Sound s) (hc : (s.cpu c).proc = some p) : s.Placed p := by
  have hrun := hi.running hc
  exact ⟨by rw [hrun]; simp, fun hembryo => by rw [hrun] at hembryo; cases hembryo⟩

/-- A slot belongs to one call, so no `fork` is about to publish it while another place
of a call has it. -/
theorem Sound.not_publishing (hi : Sound s) {k : Ctx} (hm : (s.cpu c).mode = .run k)
    (ht : k.target = some q) (hne : k ≠ .forkPublish q) :
    ¬ ∃ h, s.code h = some (.forkPublish q) := by
  intro ⟨holder, hk⟩
  have hcpu : s.code (.cpu c) = some k := by
    rw [Kernel.code, hm]
    rfl
  obtain rfl := hi.owner hk hcpu rfl ht
  rw [hcpu] at hk
  exact hne (Option.some.inj hk)

/-- Where the parent of a proc comes from, after a step. -/
inductive Lineage (s : Kernel) (c : Nat) (e : Event) (s' : Kernel) (q : Slot) : Prop where
  /-- Its `fork` has just recorded it. -/
  | recorded {cur : Slot} : (s.cpu c).proc = some cur → e = .quiet →
      (s'.proc q).parent = some cur → Lineage s c e s' q
  /-- It is a new thread. -/
  | created {cur : Slot} {own : Page} {i : Index} : (s.cpu c).proc = some cur →
      e = .created cur q own i → (s'.proc q).parent = (s.proc cur).parent →
      (s'.proc q).sharePtr = (s.proc cur).sharePtr → Lineage s c e s' q
  /-- Its parent called `exit`. -/
  | handedOn : s.Placed q → (s'.proc q).sharePtr = (s.proc q).sharePtr →
      (s'.proc q).parent = some s.initproc → Lineage s c e s' q
  | same : s.Placed q → (s'.proc q).sharePtr = (s.proc q).sharePtr →
      (s'.proc q).parent = (s.proc q).parent → (∀ p, (s.proc q).parent = some p → e ≠ .exited p) →
      Lineage s c e s' q

/-- A proc in the making had its parent recorded before, or has just now. -/
theorem Case.placed_before (hi : Sound s) (h : Case s c op e s') (hq : s'.Placed q)
    (hused : (s.proc q).state ≠ .unused)
    (hembryo : (s.proc q).state = .embryo → (s'.proc q).state = .embryo) :
    s.Placed q ∨ Lineage s c e s' q := by
  by_cases hmaking : (s.proc q).state = .embryo
  · obtain ⟨holder, hk⟩ := hq.2 (hembryo hmaking)
    rcases h.publishing hi hk with hbefore | ⟨cur, hcur, he, hparent⟩
    · exact .inl ⟨hused, fun _ => hbefore⟩
    · exact .inr (.recorded hcur he hparent)
  · exact .inl ⟨hused, fun hx => absurd hx hmaking⟩

/-- `exit` hands on the caller's children, and leaves everyone else's parent alone. -/
theorem exit_lineage (hi : Sound s) {cur : Slot} (h : Case s c op (.exited cur) s')
    (hapart : Apart s (.exited cur)) (hg : s.Childless (.exited cur)) (hq : s'.Placed q) :
    Lineage s c (.exited cur) s' q := by
  obtain ⟨hc, hs'⟩ := h.exited
  have hproc : s'.proc q = (s.exit cur).proc q := by rw [hs', sched_proc]
  obtain ⟨st, hst, hexiting⟩ := exiting_proc s cur q
  rw [exit_proc, hexiting] at hproc
  have hshare : (s'.proc q).sharePtr = (s.proc q).sharePtr := by
    rw [hproc]
    split <;> rfl
  have hparent : (s'.proc q).parent =
      if (s.proc q).parent = some cur then some s.initproc else (s.proc q).parent := by
    rw [hproc]
    split <;> rfl
  -- a free slot is not made a zombie, and a slot in the making is not touched
  have hbefore : s.Placed q ∨ Lineage s c (.exited cur) s' q := by
    by_cases hsame : (s.proc q).sharePtr = (s.proc cur).sharePtr
    · by_cases hcur : q = cur
      · rw [hcur]
        exact .inl (hi.placed (by rw [hc]))
      · refine .inl ⟨(hg.2 q hcur hsame).1, fun hx => absurd hx (hapart q hcur hsame).2⟩
    · rw [if_neg hsame] at hproc
      have hstate : (s'.proc q).state = st := by rw [hproc]
      refine h.placed_before hi hq (fun hx => hq.1 ?_) fun hx => ?_
      · rcases hst with hst | ⟨hst, -⟩
        · rw [hstate, hst, hx]
        · rw [hx] at hst
          cases hst
      · rcases hst with hst | ⟨hst, -⟩
        · rw [hstate, hst, hx]
        · rw [hx] at hst
          cases hst
  rcases hbefore with hbefore | hdone
  · by_cases hchild : (s.proc q).parent = some cur
    · exact .handedOn hbefore hshare (by rw [hparent, if_pos hchild])
    · refine .same hbefore hshare (by rw [hparent, if_neg hchild]) fun p hp he => ?_
      cases he
      exact hchild hp
  · exact hdone

/-- Every proc that has been given its parent has it from one of these. -/
theorem Case.lineage (hi : Sound s) (h : Case s c op e s') (hapart : Apart s e)
    (hg : s.Childless e) (hq : s'.Placed q) : Lineage s c e s' q := by
  by_cases hexit : ∃ cur, e = .exited cur
  · obtain ⟨cur, rfl⟩ := hexit
    exact exit_lineage hi h hapart hg hq
  have hsame : (s'.proc q).sharePtr = (s.proc q).sharePtr →
      (s'.proc q).parent = (s.proc q).parent → (s.proc q).state ≠ .unused →
      ((s.proc q).state = .embryo → (s'.proc q).state = .embryo) → Lineage s c e s' q := by
    intro hshare hparent hused hembryo
    rcases h.placed_before hi hq hused hembryo with hbefore | hdone
    · exact .same hbefore hshare hparent fun p _ he => hexit ⟨p, he⟩
    · exact hdone
  have hnew : (s'.proc q).state = .embryo → (¬ ∃ h, s.code h = some (.forkPublish q)) →
      Lineage s c e s' q := by
    intro hembryo hnone
    obtain ⟨holder, hk⟩ := hq.2 hembryo
    rcases h.publishing hi hk with hbefore | ⟨cur, hcur, he, hparent⟩
    · exact absurd hbefore hnone
    · exact .recorded hcur he hparent
  have hfate := h.fate q
  have hused := hq.1
  generalize hy : s'.proc q = y at hfate
  cases hfate with
  | kept | unstacked | led | stacked =>
    rw [hy] at hused
    exact hsame (by rw [hy]) (by rw [hy]) hused fun hx => by rw [hy]; exact hx
  | moved hx _ _ =>
    have hstate : (s.proc q).state ≠ .unused ∧ (s.proc q).state ≠ .embryo := by
      rcases hx with hx | hx | hx
      · rw [hi.running hx]
        simp
      · simp [hx]
      · simp [hx]
    exact hsame (by rw [hy]) (by rw [hy]) hstate.1 fun hx => absurd hx hstate.2
  | marked =>
    have hstate : (s.proc q).state ≠ .sleeping → (s'.proc q).state = (s.proc q).state := by
      intro hx
      rw [hy]
      exact if_neg hx
    refine hsame (by rw [hy]) (by rw [hy]) (fun hx => hused ?_) fun hx => ?_
    · rw [hstate (by rw [hx]; simp), hx]
    · rw [hstate (by rw [hx]; simp), hx]
  | handedOut _ hx =>
    exact hnew (by rw [hy]) fun ⟨holder, hk⟩ => by
      rw [hi.embryo hk rfl] at hx
      cases hx
  | paged hm => exact hnew (by rw [hy]; exact target_embryo hi hm rfl) (hi.not_publishing hm rfl (by simp))
  | copied hc =>
    have hm := congrArg Cpu.mode hc
    exact hnew (by rw [hy]; exact target_embryo hi hm rfl) (hi.not_publishing hm rfl (by simp))
  | published _ hm =>
    have hplaced : s.Placed q :=
      ⟨by rw [target_embryo hi hm rfl]; simp, fun _ => ⟨.cpu c, by rw [Kernel.code, hm]; rfl⟩⟩
    exact .same hplaced (by rw [hy]) (by rw [hy]) fun p _ he => hexit ⟨p, he⟩
  | left _ hc =>
    exact .same (hi.placed (congrArg Cpu.proc hc)) (by rw [hy]) (by rw [hy]) fun p _ he =>
      hexit ⟨p, he⟩
  | created he hc => exact .created (by rw [hc]) he (by rw [hy]) (by rw [hy])
  | killed he | handedOn he => exact absurd ⟨_, he⟩ hexit
  | abandoned | copyFailed | createFailed | reaped | joined | freed =>
    rw [hy] at hused
    exact absurd rfl hused

theorem Housed.step (hh : s.Housed) (hi : Sound s) (h : Case s c op e s') (hg : s.Foster e) :
    s'.Housed := by
  obtain ⟨hapart, hg⟩ := hg
  obtain ⟨hinit, hinitShare, -⟩ := (h.fate _).live hi hh.init hg.spares_init
  refine ⟨by rw [h.initproc]; exact hinit, fun {q} hq hnot => ?_⟩
  unfold OfInit at hnot
  rw [h.initproc, hinitShare] at hnot
  cases h.lineage hi hapart hg hq with
  | recorded hcur he hparent =>
    subst he
    have hlive : (s.proc _).Live := .inr (.inl (hi.running hcur))
    exact ⟨_, hparent, ((h.fate _).live hi hlive fun hd => by cases hd).1⟩
  | created hcur he hparent hshare =>
    subst he
    rw [hshare] at hnot
    obtain ⟨p, hp, hlive⟩ := hh.parent (hi.placed hcur) hnot
    exact ⟨p, hparent.trans hp, ((h.fate _).live hi hlive fun hd => by cases hd).1⟩
  | handedOn hbefore hshare hparent => exact ⟨s.initproc, hparent, hinit⟩
  | same hbefore hshare hparent hne =>
    rw [hshare] at hnot
    obtain ⟨p, hp, hlive⟩ := hh.parent hbefore hnot
    exact ⟨p, hparent.trans hp, ((h.fate _).live hi hlive (hg.spares hbefore.1 hp (hne p hp))).1⟩

end Kernel

open Kernel

theorem boot_housed : Housed boot := by
  refine ⟨.inl rfl, fun {q} hq hnot => ?_⟩
  by_cases h0 : q = 0
  · subst h0
    exact absurd rfl hnot
  · refine absurd ?_ hq.1
    simp [boot, h0]

theorem housed_run {h : List Event} {s : Kernel} (hr : Run (Guarded Step Kernel.Foster) boot h s) :
    Sound s ∧ Housed s := by
  refine hr.invariant (fun _ s => Sound s ∧ Housed s) ⟨boot_sound, boot_housed⟩ ?_
  intro h s e s' _ ⟨hi, hh⟩ ⟨⟨c, op, hs⟩, hg⟩
  exact ⟨hi.step (step_case hs) hg.1, hh.step hi (step_case hs) hg⟩

/-- On every run in which nobody goes whose children nobody is given (`Foster`), every
proc in use that has been given a parent, those of `init` apart, points at a proc that is
neither `UNUSED` nor `ZOMBIE`. -/
theorem parent_alive {h : List Event} {s : Kernel}
    (hr : Run (Guarded Step Kernel.Foster) boot h s) {q : Slot} (hq : s.Placed q)
    (hnot : ¬ s.OfInit q) :
    ∃ p, (s.proc q).parent = some p ∧ (s.proc p).state ≠ .unused ∧ (s.proc p).state ≠ .zombie := by
  obtain ⟨p, hp, hlive⟩ := (housed_run hr).2.parent hq hnot
  refine ⟨p, hp, ?_⟩
  rcases hlive with hlive | hlive | hlive <;> simp [hlive]

/-- A thread of slot 1, on slot 2, forks a child, waits for it and exits; slot 1 joins it
and forks again, which takes the free slot. -/
theorem parent_alive_reused : ∃ h s, Run (Guarded Step Kernel.Foster) boot h s ∧
    (.forked 2 3 ∈ h ∧ .joined 1 2 1 7 ∈ h ∧ .forked 1 2 ∈ h ∧ s.Placed 2 ∧ ¬ s.OfInit 2) ∧
    ∃ p, (s.proc 2).parent = some p ∧ (s.proc p).state ≠ .unused ∧ (s.proc p).state ≠ .zombie := by
  obtain ⟨h, s, hr, hforked, hjoined, hagain, hstate, hnot⟩ := reached Kernel.Foster
    (onCpu 0 (Op.childRuns ++ Op.creates ++
      [Op.threadJoin 1, .schedule] ++ Op.forks ++ [Op.wait, .schedule, .exit] ++ Op.rescan ++
      [Op.tick, .yield, .schedule] ++
      [Op.threadExit 7] ++ Op.rescan ++ Op.preempted ++ Op.forks))
    (P := fun h s => .forked 2 3 ∈ h ∧ .joined 1 2 1 7 ∈ h ∧ .forked 1 2 ∈ h ∧
      (s.proc 2).state = .runnable ∧ (s.proc 2).sharePtr ≠ (s.proc s.initproc).sharePtr)
    (by decide +kernel)
  have hplaced : s.Placed 2 := ⟨by rw [hstate]; simp, fun hx => by rw [hstate] at hx; cases hx⟩
  exact ⟨h, s, hr, ⟨hforked, hjoined, hagain, hplaced, hnot⟩, parent_alive hr hplaced hnot⟩

/-- A thread of slot 1, on slot 2, forks a child on slot 3 and exits; once slot 1 has
joined it, the child's parent is a free slot. -/
theorem join_leaves_orphan : ∃ h s, Run Step boot h s ∧ .joined 1 2 1 7 ∈ h ∧
    (s.proc 3).state = .runnable ∧ (s.proc 3).sharePtr ≠ (s.proc s.initproc).sharePtr ∧
    (s.proc 3).parent = some 2 ∧ (s.proc 2).state = .unused :=
  reaches
    (onCpu 0 (Op.childRuns ++ Op.creates ++
      [Op.threadJoin 1, .schedule] ++ Op.forks ++ [Op.threadExit 7, .schedule, .tick, .yield] ++
      Op.rescan ++ Op.preempted)) (by decide +kernel)

end ThreadKernel
