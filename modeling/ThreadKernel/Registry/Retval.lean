import ThreadKernel.Registry.Ids

/-! The value a thread has passed to `thread_exit`.

It stays in the entry of the thread until a `thread_join` takes it out, or until the
entry is given up; no other call writes it before `allocproc` hands the slot out again. The
kernel stack, which `thread_join` gives back, stays with it. -/
namespace ThreadKernel

open Table Lts

/-- The thread on slot `q` has ended with the value `v`, which is still there unless the
entry has been cleared. -/
def Table.Left (t : Table) (q : Slot) (v : Word) : Prop :=
  ((t.entry q).phase = .zombie ∧ (t.entry q).retval = v) ∨
    ((t.entry q).phase = .free ∧ ((t.entry q).retval = v ∨ (t.entry q).share = none))

variable {h : List Event} {t t' : Table} {e : Event} {q : Slot} {v : Word}

theorem Table.Left.turn (hq : t.Left q v) (hturn : Turn t t' e q) (he : e ≠ .handedOut q) :
    t'.Left q v := by
  have hphase : (t.entry q).phase = .zombie ∨ (t.entry q).phase = .free := hq.imp And.left And.left
  have hnot : ∀ {k : Stage}, (t.entry q).phase ≠ .live k := by
    intro k hk
    rw [hk] at hphase
    rcases hphase with hphase | hphase <;> cases hphase
  have hembryo : (t.entry q).phase.isEmbryo ≠ true := by
    rcases hphase with hphase | hphase <;> rw [hphase] <;> decide
  cases hturn with
  | same _ hentry =>
    unfold Table.Left
    rw [hentry]
    exact hq
  | handOut heq => exact absurd heq he
  | setUp _ hold => exact absurd hold hembryo
  | publish _ hpaged =>
    rw [hpaged] at hphase
    rcases hphase with hphase | hphase <;> cases hphase
  | create _ hold => exact absurd hold hembryo
  | threadExit _ hlive => exact absurd hlive hnot
  | exit _ _ _ hshare hkilled =>
    -- `exit` makes a zombie even of a slot that is not in use
    subst hkilled
    refine .inl ?_
    simp only [killed, if_pos hshare]
    rcases hq with ⟨-, hv⟩ | ⟨-, hv | hnone⟩
    · exact ⟨trivial, hv⟩
    · exact ⟨trivial, hv⟩
    · rw [hnone] at hshare
      cases hshare
  | reap _ hzombie hentry =>
    refine .inr ?_
    simp only [hentry]
    rcases hq with ⟨-, hv⟩ | ⟨hfree, -⟩
    · exact ⟨trivial, .inl hv⟩
    · rw [hzombie] at hfree
      cases hfree
  | join _ _ hentry | freed _ _ hentry => exact .inr (by simp [hentry])
  | enterExec _ hlive | commit _ hlive | leaveExec _ hlive => exact absurd hlive hnot

theorem left_run {rule : Table → Event → Prop} (hr : Run (Guarded Move rule) Table.boot h t) :
    ∀ {h' h₀ q v}, h = h' ++ .threadExited q v :: h₀ → .handedOut q ∉ h' → t.Left q v := by
  refine hr.invariant (fun h t => ∀ {h' h₀ q v}, h = h' ++ .threadExited q v :: h₀ →
    .handedOut q ∉ h' → t.Left q v) (fun heq => by simp at heq) ?_
  intro h t e t' _ ih hm h' h₀ q v heq hno
  have hturn := hm.1.turn q
  cases h' with
  | nil =>
    obtain ⟨rfl, rfl⟩ := List.cons.inj heq
    -- the thread has just ended
    cases hturn with
    | same habout => exact absurd rfl habout
    | setUp habout | reap habout | join habout | leaveExec habout => exact absurd rfl habout
    | threadExit he _ hentry =>
      cases he
      exact .inl (by simp [hentry])
    | handOut he | publish he | create he | exit he | freed he | enterExec he | commit he => cases he
  | cons e' h' =>
    obtain ⟨rfl, hrest⟩ := List.cons.inj heq
    simp only [List.mem_cons, not_or] at hno
    exact (ih hrest hno.2).turn hturn (Ne.symm hno.1)

/-! ### The kernel -/

open Kernel

variable {s s' : Kernel} {c : Nat} {op : Op} {y : Proc}

/-- The scheduler switches only to procs with a kernel stack, and nobody takes it from one
that runs. -/
theorem Kernel.Fate.stack (hf : Fate s c op e q y)
    (hx : (s.proc q).state = .running → (s.proc q).kstack ≠ none) (hy : y.state = .running) :
    y.kstack ≠ none := by
  cases hf with
  | kept | paged | copied | led => exact hx hy
  | moved _ _ _ hstack => exact hstack hy
  | marked =>
    dsimp only at hy
    split at hy
    · cases hy
    · exact hx hy
  | stacked => exact Option.some_ne_none _
  | handedOn _ _ _ _ hst =>
    rcases hst with rfl | ⟨-, rfl⟩
    · exact hx hy
    · cases hy
  | unstacked _ hz =>
    rw [show (s.proc q).state = .running from hy] at hz
    cases hz
  | handedOut | abandoned | copyFailed | createFailed | published | created | left | killed | reaped
  | joined | freed => cases hy

/-- A thread that has ended keeps its stack until its slot is given up; `wait` takes that of
a master before. -/
def Ended (x : Proc) : Prop := x.Gone ∧ (x.state = .zombie → x.imMaster = false → x.kstack ≠ none)

/-- It stays so unless the slot is handed out, or a free one becomes a zombie. -/
theorem Kernel.Fate.ended (hi : Sound s) (hf : Fate s c op e q y) (hx : Ended (s.proc q))
    (hno : e ≠ .handedOut q)
    (hexit : ∀ cur, e = .exited cur → q ≠ cur → (s.proc q).sharePtr = (s.proc cur).sharePtr →
      (s.proc q).state ≠ .unused) : Ended y := by
  refine ⟨hf.gone hi hx.1 fun h => hno h.1, ?_⟩
  have hidle : ∀ {k}, s.cpu c ≠ ⟨some q, .run k⟩ := fun hc =>
    hx.1.not_live.2 (.inr (.inl (hi.on hc)))
  cases hf with
  | kept | paged | copied => exact hx.2
  | moved _ hst => rcases hst with rfl | rfl | rfl <;> exact nofun
  | marked =>
    intro hz
    dsimp only at hz
    split at hz
    · cases hz
    · exact hx.2 hz
  | stacked => exact fun _ _ => Option.some_ne_none _
  | left _ hc => exact absurd hc hidle
  | killed he hc _ hshare =>
    rcases hx.1 with hz | hunused
    · exact fun _ => hx.2 hz
    · refine absurd hunused (hexit _ he (fun hq => ?_) hshare)
      exact hidle (hq ▸ hc)
  | handedOn _ _ _ _ hst =>
    rcases hst with rfl | ⟨-, rfl⟩
    · exact hx.2
    · exact nofun
  | unstacked _ _ hmaster =>
    intro _ hnot
    rw [hmaster] at hnot
    cases hnot
  | led => exact fun _ hnot => absurd hnot nofun
  | handedOut | abandoned | copyFailed | createFailed | published | created | reaped | joined
  | freed => exact nofun

theorem ended_of_threadExited (hstack : ∀ {p}, (s.proc p).state = .running → (s.proc p).kstack ≠ none)
    (hi : Sound s) (h : s.step c op = some (s', .threadExited q v)) : Ended (s'.proc q) := by
  generalize he : Event.threadExited q v = e at h
  cases step_case h with
  | threadExit hc hown =>
    cases he
    refine ⟨.inl ?_, fun _ _ => ?_⟩
    · simp [threadExit_proc]
    · have hrunning := hstack (hi.running (congrArg Cpu.proc hc))
      simpa [threadExit_proc, wakeup1_proc, apply_ite Proc.kstack] using hrunning
  | body _ hbody => cases hbody <;> cases he
  | _ => cases he

/-- Who runs has a kernel stack, and a thread that has ended keeps its own. -/
theorem ended_run (hr : Run (Guarded Step NewIds) boot h s) :
    (Sound s ∧ ∀ {p}, (s.proc p).state = .running → (s.proc p).kstack ≠ none) ∧
    ∀ {h' h₀ q v}, h = h' ++ .threadExited q v :: h₀ → .handedOut q ∉ h' → Ended (s.proc q) := by
  refine hr.invariant (fun h s => (Sound s ∧ ∀ {p}, (s.proc p).state = .running →
    (s.proc p).kstack ≠ none) ∧ ∀ {h' h₀ q v}, h = h' ++ .threadExited q v :: h₀ →
    .handedOut q ∉ h' → Ended (s.proc q)) ⟨⟨boot_sound, ?_⟩, fun heq => by simp at heq⟩ ?_
  · intro p hp
    simp only [Kernel.boot] at hp
    split at hp <;> cases hp
  rintro h s e s' - ⟨⟨hi, hstack⟩, ih⟩ ⟨⟨c, op, hs⟩, hapart, hnew⟩
  have hfate := (step_case hs).fate
  refine ⟨⟨hi.step (step_case hs) hapart, fun {p} => (hfate p).stack hstack⟩, ?_⟩
  intro h' h₀ q v heq hno
  cases h' with
  | nil =>
    obtain ⟨rfl, rfl⟩ := List.cons.inj heq
    exact ended_of_threadExited hstack hi hs
  | cons e' h' =>
    obtain ⟨rfl, hrest⟩ := List.cons.inj heq
    simp only [List.mem_cons, not_or] at hno
    refine (hfate q).ended hi (ih hrest hno.2) (Ne.symm hno.1) ?_
    rintro cur rfl hq hshare
    exact hnew q hq hshare

end ThreadKernel
