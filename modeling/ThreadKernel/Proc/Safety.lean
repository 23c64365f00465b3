import ThreadKernel.Proc.Fate

/-! Who runs, over whole runs.

A zombie made by `exit` stays off every CPU until `allocproc` hands its slot out
again, and no CPU has a proc that is not `RUNNING`, as long as `exit` and `exec` find
no sibling running or being set up. Nothing in the code sees to that: with two CPUs
`exit` makes a zombie of a proc that goes on running. -/
namespace ThreadKernel

/-- Zombie or free. -/
def Proc.Gone (x : Proc) : Prop :=
  x.state = .zombie ∨ x.state = .unused

/-- `RUNNABLE`, `RUNNING` or `SLEEPING`. -/
def Proc.Live (x : Proc) : Prop :=
  x.state = .runnable ∨ x.state = .running ∨ x.state = .sleeping

instance (x : Proc) : Decidable x.Live := inferInstanceAs (Decidable (_ ∨ _ ∨ _))

theorem Proc.Live.ne {x : Proc} (h : x.Live) :
    x.state ≠ .embryo ∧ x.state ≠ .zombie ∧ x.state ≠ .unused := by
  rcases h with h | h | h <;> simp [h]

theorem Proc.Gone.not_live {x : Proc} (h : x.Gone) : x.state ≠ .embryo ∧ ¬ x.Live := by
  rcases h with h | h <;> simp [Proc.Live, h]

namespace Kernel

variable {s s' : Kernel} {c : Nat} {e : Event} {op : Op} {cur q : Slot} {y : Proc}

theorem Case.exited (h : Case s c op (.exited cur) s') :
    s.cpu c = ⟨some cur, .run .user⟩ ∧ s' = (s.exit cur).sched c cur := by
  generalize he : Event.exited cur = e at h
  cases h with
  | exit hc => cases he; exact ⟨hc, rfl⟩
  | body henter hbody => cases hbody <;> cases he
  | _ => cases he

theorem Case.handedOut {np : Slot} (h : Case s c op (.handedOut np) s') :
    (s.proc np).state = .unused := by
  generalize he : Event.handedOut np = e at h
  cases h with
  | alloc hc halloc => cases he; exact (allocproc_eq halloc).1
  | body henter hbody => cases hbody <;> cases he
  | _ => cases he

/-- A zombie or free slot stays one until `allocproc` hands it out. -/
theorem Fate.gone (hi : Sound s) (hf : Fate s c op e q y) (hq : (s.proc q).Gone)
    (he : ¬ (e = .handedOut q ∧ (s.proc q).state = .unused)) : y.Gone := by
  obtain ⟨hembryo, hlive⟩ := hq.not_live
  cases hf with
  | kept | stacked | paged | copied | unstacked | led => exact hq
  | moved hold =>
    rcases hold with hc | hold | hold
    · exact absurd (.inr (.inl (hi.running hc))) hlive
    · exact absurd (.inl hold) hlive
    · exact absurd (.inr (.inr hold)) hlive
  | marked =>
    unfold Proc.Gone
    rw [if_neg fun hs => hlive (.inr (.inr hs))]
    exact hq
  | handedOut he' hunused => exact absurd ⟨he', hunused⟩ he
  | published _ hm => exact absurd (target_embryo hi hm rfl) hembryo
  | created _ hc => exact absurd (target_embryo hi (congrArg Cpu.mode hc) rfl) hembryo
  | left | killed => exact .inl rfl
  | handedOn _ _ _ _ hst =>
    rcases hst with rfl | ⟨hs, -⟩
    · exact hq
    · exact absurd (.inr (.inr hs)) hlive
  | abandoned | copyFailed | createFailed | reaped | joined | freed => exact .inr rfl

/-- The ways to go. -/
inductive Dies (s : Kernel) (c : Nat) (p : Slot) : Event → Prop where
  | left {v : Word} : s.cpu c = ⟨some p, .run .user⟩ → Dies s c p (.threadExited p v)
  | killed {cur : Slot} : s.cpu c = ⟨some cur, .run .user⟩ →
      (s.proc p).sharePtr = (s.proc cur).sharePtr → Dies s c p (.exited cur)
  | freed {cur : Slot} {own : Page} : (s.proc cur).sharePtr = some own →
      Victim s cur p own (List.finRange 6) → Dies s c p (.killedOthers cur)

/-- A live proc stays one, and of its process, unless it goes in one of these ways. -/
theorem Fate.live (hi : Sound s) (hf : Fate s c op e q y) (hq : (s.proc q).Live)
    (hd : ¬ Dies s c q e) :
    y.Live ∧ y.sharePtr = (s.proc q).sharePtr ∧ y.pid = (s.proc q).pid := by
  obtain ⟨hembryo, hzombie, hunused⟩ := hq.ne
  have hnot : ∀ {k : Ctx}, (s.cpu c).mode = .run k → k.target ≠ some q := fun hm ht =>
    hembryo (target_embryo hi hm ht)
  cases hf with
  | kept | stacked | copied | unstacked | led => exact ⟨hq, rfl, rfl⟩
  | moved _ hst => exact ⟨hst, rfl, rfl⟩
  | marked =>
    refine ⟨?_, rfl, rfl⟩
    by_cases hsleep : (s.proc q).state = .sleeping
    · exact .inl (if_pos hsleep)
    · unfold Proc.Live
      rw [if_neg hsleep]
      exact hq
  | handedOn _ _ _ _ hst =>
    refine ⟨?_, rfl, rfl⟩
    rcases hst with rfl | ⟨-, rfl⟩
    · exact hq
    · exact .inl rfl
  | paged hm | copyFailed hm | published _ hm => exact absurd rfl (hnot hm)
  | abandoned hm hk _ => exact absurd (by rcases hk with rfl | rfl | rfl <;> rfl) (hnot hm)
  | createFailed hc | created _ hc => exact absurd rfl (hnot (congrArg Cpu.mode hc))
  | handedOut _ hx => exact absurd hx hunused
  | reaped _ hx | joined _ hx => exact absurd hx hzombie
  | left he hc => exact absurd (he ▸ .left hc) hd
  | killed he hc _ hshare => exact absurd (he ▸ .killed hc hshare) hd
  | freed he hown hv => exact absurd (he ▸ .freed hown hv) hd

end Kernel

open Kernel Lts

/-! ### Runs -/

theorem boot_code {h : Holder} {k : Ctx} (hk : boot.code h = some k) : k.target = none := by
  cases h with
  | cpu c => cases hk
  | slot p =>
    simp only [Kernel.code, boot] at hk
    split at hk
    · cases hk
      rfl
    · cases hk

theorem boot_sound : Sound boot where
  running := fun h => by cases h
  unique := fun h => by cases h
  embryo := fun hk ht => by
    rw [boot_code hk] at ht
    cases ht
  ready := fun hk hr => by
    have ht := Ctx.target_of_ready hr
    rw [boot_code hk] at ht
    cases ht
  owner := fun hk _ ht _ => by
    rw [boot_code hk] at ht
    cases ht

theorem sound_step {s s' : Kernel} {e : Event} (hi : Sound s) (h : Guarded Step Apart s e s') :
    Sound s' := by
  obtain ⟨⟨c, op, hs⟩, hg⟩ := h
  exact hi.step (step_case hs) hg

theorem sound_run {s s' : Kernel} {h : List Event} (hi : Sound s)
    (hr : Run (Guarded Step Apart) s h s') : Sound s' :=
  hr.invariant (fun _ s => Sound s) hi fun _ _ _ _ _ hi hs => sound_step hi hs

/-- From a sound state, a zombie or free slot is that still, or was handed out since. -/
theorem gone_run {s s' : Kernel} {h : List Event} {q : Slot} (hi : Sound s) (hq : (s.proc q).Gone)
    (hr : Run (Guarded Step Apart) s h s') :
    (s'.proc q).Gone ∨ ∃ h₁ h₂ t, h = h₂ ++ .handedOut q :: h₁ ∧
      Run (Guarded Step Apart) s h₁ t ∧ (t.proc q).state = .unused := by
  have := hr.unless (fun t => Sound t ∧ (t.proc q).Gone)
    (fun t e => e = .handedOut q ∧ (t.proc q).state = .unused) ?_ ⟨hi, hq⟩
  · rcases this with ⟨-, hgone⟩ | ⟨h₁, h₂, e, t, t', hh, hr₁, -, ⟨rfl, hu⟩, -, -⟩
    · exact .inl hgone
    · exact .inr ⟨h₁, h₂, t, hh, hr₁, hu⟩
  · intro t e t' hs ⟨hi, hgone⟩ he
    refine ⟨sound_step hi hs, ?_⟩
    obtain ⟨⟨c, op, hs⟩, -⟩ := hs
    exact ((step_case hs).fate _).gone hi hgone he

/-- What `exit` by `cur` did to a sibling `q`, in `s'`, and what may come of it on a
run that keeps `rule`. -/
def StaysDead (rule : Kernel → Event → Prop) (s' : Kernel) (q : Slot) : Prop :=
  (s'.proc q).state = .zombie ∧ ∀ h t, Run (Guarded Step rule) s' h t →
    (t.proc q).state = .zombie ∨ (t.proc q).state = .unused ∨
      ∃ h₁ h₂ u, h = h₂ ++ .handedOut q :: h₁ ∧ Run (Guarded Step rule) s' h₁ u ∧
        (u.proc q).state = .unused

/-- On every run in which `exit` and `exec` find no sibling `RUNNING` or `EMBRYO`: a
proc is on one CPU at most, a CPU's proc is `RUNNING`, and the siblings `exit` made
zombies stay dead until they are freed and handed out anew. -/
theorem exclusive_of_apart {h : List Event} {s : Kernel} (hr : Run (Guarded Step Apart) boot h s) :
    (∀ c c' p, (s.cpu c).proc = some p → (s.cpu c').proc = some p → c = c') ∧
    (∀ c p, (s.cpu c).proc = some p → (s.proc p).state = .running) ∧
    ∀ cur q s', Guarded Step Apart s (.exited cur) s' → q ≠ cur →
      (s.proc q).sharePtr = (s.proc cur).sharePtr → StaysDead Apart s' q := by
  have hi := sound_run boot_sound hr
  refine ⟨fun c c' p => hi.unique, fun c p => hi.running, fun cur q s' hs hne hshare => ?_⟩
  have hzombie : (s'.proc q).state = .zombie := by
    obtain ⟨⟨c, op, hstep⟩, -⟩ := hs
    obtain ⟨-, rfl⟩ := (step_case hstep).exited
    rw [sched_proc, exit_proc, if_pos hshare]
  refine ⟨hzombie, fun h' t hr' => ?_⟩
  rcases gone_run (sound_step hi hs) (.inl hzombie) hr' with (hz | hu) | hout
  · exact .inl hz
  · exact .inr (.inl hu)
  · exact .inr (.inr hout)

/-- CPU 0 runs slot 2 and CPU 1 slot 1, another process, which has started a thread on slot 3
and exits before it ran. -/
theorem exclusive_of_apart_two_cpus : ∃ h s s', Run (Guarded Step Apart) boot h s ∧
    (s.cpu 0).proc = some 2 ∧ (s.cpu 1).proc = some 1 ∧ s.step 1 .exit = some (s', .exited 1) ∧
    (∀ c c' p, (s.cpu c).proc = some p → (s.cpu c').proc = some p → c = c') ∧
    (∀ c p, (s.cpu c).proc = some p → (s.proc p).state = .running) ∧ StaysDead Apart s' 3 := by
  obtain ⟨h, s, s', hr, hs, hcpu, hapart, hshare⟩ := reached_step Apart
    (onCpu 0 (Op.started ++ Op.forks ++ Op.forks) ++ onCpu 1 ([Op.schedule, .schedule] ++ Op.creates) ++
      onCpu 0 [Op.tick, .yield, .schedule]) 1 .exit (e := .exited 1)
    (Q := fun _ s _ => ((s.cpu 0).proc = some 2 ∧ (s.cpu 1).proc = some 1) ∧ Apart s (.exited 1) ∧
      (s.proc 3).sharePtr = (s.proc 1).sharePtr) (by decide +kernel)
  obtain ⟨hunique, hrunning, hdead⟩ := exclusive_of_apart hr
  exact ⟨h, s, s', hr, hcpu.1, hcpu.2, hs, hunique, hrunning,
    hdead 1 3 s' ⟨⟨1, _, hs⟩, hapart⟩ (by decide) hshare⟩

/-- Slot 1, a child of `init`, has started a thread (slot 2) that CPU 0 runs, and exits
on CPU 1: the lock is free again and CPU 0 is running a zombie. -/
theorem exit_leaves_zombie_running : ∃ h s, Run Step boot h s ∧
    s.lock = none ∧ (s.cpu 0).proc = some 2 ∧ (s.proc 2).state = .zombie :=
  reaches
    (onCpu 0 (Op.started ++ Op.forks) ++ onCpu 1 [.schedule, .schedule] ++ onCpu 0 [.wait, .schedule] ++
      onCpu 1 Op.creates ++ onCpu 0 [Op.schedule, .schedule] ++ onCpu 1 [Op.exit, .schedule])
    (by decide +kernel)

end ThreadKernel
