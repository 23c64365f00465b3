import ThreadKernel.Proc.Safety
import ThreadKernel.Registry.Machine

/-! The kernel refines the registry machine.

`Abs` relates a kernel state to a table: the entries agree field by field, the stage of
a live entry is where its code stands (on a CPU, or in its saved context), and an entry
that `fork` has given a page is `paged`. Every step that keeps `Apart` from a sound state
is a move of the machine. -/
namespace ThreadKernel

def Ctx.stage : Ctx → Stage
  | .initcode => .boot
  | .execing init => .exec init
  | .user | .forkAlloc _ | .forkPage _ | .forkCopy _ | .forkPublish _ | .createAlloc _
  | .createFinish _ => .user

/-- Where a saved context will go on; `wait` and `thread_join` are called from user code. -/
def Resume.stage : Resume → Stage
  | .release k | .slept k => k.stage
  | .waitLoop | .joinLoop _ => .user

/-- The stage a saved context stands for. -/
def Proc.stage (x : Proc) : Stage :=
  (x.context.map Resume.stage).getD .user

def ProcState.isPhase : ProcState → Phase → Bool
  | .unused, p => p = .free
  | .embryo, p => p.isEmbryo
  | .zombie, p => p = .zombie
  | .sleeping, p | .runnable, p | .running, p => p.isLive

/-- An entry of the kernel's table and one of the machine's. -/
structure Agree (x : Proc) (e : Entry) : Prop where
  share : e.share = x.sharePtr
  order : e.order = x.orderOfThread
  master : e.master = x.imMaster
  retval : e.retval = x.retval
  phase : x.state.isPhase e.phase = true

def SharedData.toReg (d : SharedData) : Reg := ⟨d.numOfThread, d.threads, d.isThere⟩

/-- The waiting side of the scheduler: the proc may still be switched to. -/
def Proc.Waiting (x : Proc) : Prop := x.state = .runnable ∨ x.state = .sleeping

structure Abs (s : Kernel) (t : Table) : Prop where
  agree : ∀ q, Agree (s.proc q) (t.entry q)
  cpu : ∀ {c p k}, (s.cpu c).proc = some p → (s.cpu c).mode.ctx = some k →
    (t.entry p).phase = .live k.stage
  saved : ∀ {p}, (s.proc p).Waiting → (t.entry p).phase = .live (s.proc p).stage
  paged : ∀ {h k np}, s.code h = some k → k.paged = some np → (t.entry np).phase = .paged
  reg : ∀ a, t.reg a = (s.shared a).toReg
  next : t.next = s.nextPage

theorem Ctx.target_of_paged {k : Ctx} {np : Slot} (h : k.paged = some np) : k.target = some np := by
  cases k <;> simp_all [Ctx.paged, Ctx.target]

namespace Agree

variable {x y : Proc} {e : Entry}

section
variable (h : Agree x e)
include h

theorem free_iff : e.phase = .free ↔ x.state = .unused := by
  have := h.phase
  cases hx : x.state <;> cases he : e.phase <;> simp_all [ProcState.isPhase, Phase.isLive, Phase.isEmbryo]

theorem zombie_iff : e.phase = .zombie ↔ x.state = .zombie := by
  have := h.phase
  cases hx : x.state <;> cases he : e.phase <;> simp_all [ProcState.isPhase, Phase.isLive, Phase.isEmbryo]

theorem embryo_iff : e.phase.isEmbryo = true ↔ x.state = .embryo := by
  have := h.phase
  cases hx : x.state <;> cases he : e.phase <;> simp_all [ProcState.isPhase, Phase.isLive, Phase.isEmbryo]

theorem live_iff : e.phase.isLive = true ↔
    x.state = .runnable ∨ x.state = .running ∨ x.state = .sleeping := by
  have := h.phase
  cases hx : x.state <;> cases he : e.phase <;> simp_all [ProcState.isPhase, Phase.isLive, Phase.isEmbryo]

/-- The fields of the registry are the same, the phase fits the new state. -/
theorem carry {ph : Phase} (hshare : y.sharePtr = x.sharePtr)
    (horder : y.orderOfThread = x.orderOfThread) (hmaster : y.imMaster = x.imMaster)
    (hretval : y.retval = x.retval) (hphase : y.state.isPhase ph = true) : Agree y {e with phase := ph} :=
  ⟨h.share.trans hshare.symm, h.order.trans horder.symm, h.master.trans hmaster.symm,
    h.retval.trans hretval.symm, hphase⟩

theorem kept (hk : Kept x y) : Agree y e := by
  refine h.carry hk.sharePtr hk.order hk.master hk.retval ?_
  rcases hk.state with hs | ⟨hs, hs'⟩
  · rw [hs]
    exact h.phase
  · have := h.phase
    rw [hs] at this
    rw [hs']
    exact this

end

end Agree

namespace Abs

open Kernel Function

variable {s s' : Kernel} {t t' : Table} {c : Nat} {cur p : Slot} {k k' : Ctx}
  {m : Mode} {x : Proc} {y : Entry}

/-- What may happen to an entry while the CPUs stay as they are. -/
inductive Carried (x y : Proc) (e e' : Entry) : Prop where
  | kept : Kept x y → e'.phase = e.phase → Carried x y e e'
  | same : y.state = x.state → y.context = x.context → e'.phase = e.phase → Carried x y e e'
  | embryo : x.state = .embryo → y.state = .embryo → (e'.phase = e.phase ∨ e'.phase = .paged) →
      Carried x y e e'
  | gone : x.state ≠ .running → x.state ≠ .embryo → ¬ y.Waiting → Carried x y e e'

namespace Carried

variable {x y : Proc} {e e' : Entry}

theorem of_running (h : Carried x y e e') (hx : x.state = .running) : e'.phase = e.phase := by
  cases h with
  | kept _ hp | same _ _ hp => exact hp
  | embryo hx' => rw [hx] at hx'; cases hx'
  | gone hx' => exact absurd hx hx'

theorem of_embryo (h : Carried x y e e') (hx : x.state = .embryo) :
    e'.phase = e.phase ∨ e'.phase = .paged := by
  cases h with
  | kept _ hp | same _ _ hp => exact .inl hp
  | embryo _ _ hp => exact hp
  | gone _ hx' => exact absurd hx hx'

theorem of_waiting (h : Carried x y e e') (hy : y.Waiting) :
    x.Waiting ∧ y.context = x.context ∧ e'.phase = e.phase := by
  cases h with
  | kept hk hp =>
    refine ⟨?_, hk.context, hp⟩
    rcases hk.state with hs | ⟨hs, -⟩
    · unfold Proc.Waiting
      rw [← hs]
      exact hy
    · exact .inr hs
  | same hs hc hp =>
    refine ⟨?_, hc, hp⟩
    unfold Proc.Waiting
    rw [← hs]
    exact hy
  | embryo _ hs => rcases hy with hy | hy <;> rw [hs] at hy <;> cases hy
  | gone _ _ hs => exact absurd hy hs

end Carried

theorem phase_on (ha : Abs s t) (hc : s.cpu c = ⟨some cur, m⟩) (hm : m.ctx = some k) :
    (t.entry cur).phase = .live k.stage :=
  ha.cpu (by rw [hc]) (by rw [hc]; exact hm)

theorem ctx_eq_some :
    x.ctx = some k ↔ x.Waiting ∧ x.context.bind Resume.ctx = some k := by
  unfold Proc.ctx
  split
  · rename_i h
    exact ⟨fun hk => ⟨h, hk⟩, fun hk => hk.2⟩
  · rename_i h
    exact ⟨fun hk => (by cases hk), fun hk => absurd hk.1 h⟩

theorem table (hi : Sound s) (ha : Abs s t) (hcpu : s'.cpu = s.cpu)
    (hagree : ∀ q, Agree (s'.proc q) (t'.entry q))
    (hcarried : ∀ q, Carried (s.proc q) (s'.proc q) (t.entry q) (t'.entry q))
    (hreg : ∀ a, t'.reg a = (s'.shared a).toReg) (hnext : t'.next = s'.nextPage) : Abs s' t' where
  agree := hagree
  cpu := fun {c p k} hp hk => by
    rw [hcpu] at hp hk
    rw [(hcarried p).of_running (hi.running hp)]
    exact ha.cpu hp hk
  saved := fun {p} hp => by
    obtain ⟨hw, hc, hphase⟩ := (hcarried p).of_waiting hp
    rw [hphase, ha.saved hw]
    simp only [Proc.stage, hc]
  paged := fun {h k np} hk hp => by
    have hcode : s.code h = some k := by
      cases h with
      | cpu c =>
        show (s.cpu c).mode.ctx = some k
        rw [← hcpu]
        exact hk
      | slot q =>
        obtain ⟨hw', hk'⟩ := ctx_eq_some.mp hk
        obtain ⟨hw, hc, -⟩ := (hcarried q).of_waiting hw'
        exact ctx_eq_some.mpr ⟨hw, by rw [← hc]; exact hk'⟩
    rcases (hcarried np).of_embryo (hi.embryo hcode (Ctx.target_of_paged hp)) with h | h
    · rw [h]
      exact ha.paged hcode hp
    · exact h
  reg := hreg
  next := hnext

theorem one (hi : Sound s) (ha : Abs s t) {np : Slot}
    (hproc : ∀ q, s'.proc q = if q = np then x else s.proc q) (hentry : t'.entry = update t.entry np y)
    (hagree : Agree x y) (hcarried : Carried (s.proc np) x (t.entry np) y) (hcpu : s'.cpu = s.cpu)
    (hreg : ∀ a, t'.reg a = (s'.shared a).toReg) (hnext : t'.next = s'.nextPage) : Abs s' t' := by
  refine ha.table hi hcpu (fun q => ?_) (fun q => ?_) hreg hnext
  · rw [hproc, hentry, update_apply]
    split
    · exact hagree
    · exact ha.agree q
  · rw [hproc, hentry, update_apply]
    split
    · rename_i h
      rw [h]
      exact hcarried
    · exact .same rfl rfl rfl

/-- The code on one CPU goes on within its stage, or the CPU lets go of its proc. -/
theorem recode (ha : Abs s t) (c : Nat) (hproc : s'.proc = s.proc)
    (hother : ∀ c', c' ≠ c → s'.cpu c' = s.cpu c')
    (hcur : ∀ p k, (s'.cpu c).proc = some p → (s'.cpu c).mode.ctx = some k →
      (t.entry p).phase = .live k.stage)
    (hpaged : ∀ k np, (s'.cpu c).mode.ctx = some k → k.paged = some np → (t.entry np).phase = .paged)
    (hshared : s'.shared = s.shared) (hnext : s'.nextPage = s.nextPage) : Abs s' t where
  agree := by
    rw [hproc]
    exact ha.agree
  cpu := fun {c' p k} hp hk => by
    by_cases hc : c' = c
    · subst hc
      exact hcur p k hp hk
    · rw [hother c' hc] at hp hk
      exact ha.cpu hp hk
  saved := by
    rw [hproc]
    exact ha.saved
  paged := fun {h k np} hk hp => by
    cases h with
    | cpu c' =>
      by_cases hc : c' = c
      · subst hc
        exact hpaged k np hk hp
      · refine ha.paged (h := .cpu c') ?_ hp
        show (s.cpu c').mode.ctx = some k
        rw [← hother c' hc]
        exact hk
    | slot q =>
      refine ha.paged (h := .slot q) ?_ hp
      show (s.proc q).ctx = some k
      rw [← hproc]
      exact hk
  reg := by
    rw [hshared]
    exact ha.reg
  next := by
    rw [hnext]
    exact ha.next

theorem unload (ha : Abs s t) (hcpu : s'.cpu = (s.setCpu c ⟨none, m⟩).cpu)
    (hm : m.ctx = none) (hproc : s'.proc = s.proc) (hshared : s'.shared = s.shared)
    (hnext : s'.nextPage = s.nextPage) : Abs s' t := by
  have hc : s'.cpu c = ⟨none, m⟩ := by rw [hcpu, setCpu_cpu, if_pos rfl]
  refine ha.recode c hproc (fun c' hc' => ?_) (fun p k hp => ?_) (fun k np hk => ?_) hshared hnext
  · rw [hcpu, setCpu_cpu, if_neg hc']
  · rw [hc] at hp
    cases hp
  · rw [hc, hm] at hk
    cases hk

/-- The proc on a CPU goes on in another stage. -/
theorem restage (hi : Sound s) (ha : Abs s t) (hc : s.cpu c = ⟨some cur, .run k⟩)
    (hk' : k'.target = none) (x : Entry) (hx : Agree (s.proc cur) x) (hphase : x.phase = .live k'.stage) :
    Abs (s.goto c k') (t.set cur x) where
  agree := fun q => by
    rw [Table.set_entry]
    split
    · rename_i h
      rw [h]
      exact hx
    · exact ha.agree q
  cpu := fun {c' p k₁} hp hk => by
    rw [Kernel.goto, setCpu_cpu] at hp hk
    split at hp
    · rename_i h
      subst h
      rw [hc] at hp
      cases hp
      rw [if_pos rfl] at hk
      cases hk
      rw [Table.set_same, hphase]
    · rename_i h
      rw [if_neg h] at hk
      have hne : p ≠ cur := fun heq => h (hi.unique hp (by rw [hc, heq]))
      rw [Table.set_entry, if_neg hne]
      exact ha.cpu hp hk
  saved := fun {p} hp => by
    have hne : p ≠ cur := by
      rintro rfl
      have hrun : (s.proc p).state = .running := hi.on hc
      rcases hp with hp | hp <;> rw [Kernel.goto, setCpu_proc, hrun] at hp <;> cases hp
    rw [Table.set_entry, if_neg hne]
    exact ha.saved hp
  paged := fun {h k₁ np} hk hp => by
    have hne : ∀ h', s.code h' = some k₁ → np ≠ cur := by
      rintro h' hcode rfl
      have hembryo := hi.embryo hcode (Ctx.target_of_paged hp)
      rw [hi.on hc] at hembryo
      cases hembryo
    cases h with
    | cpu c' =>
      have hmode : ((s.goto c k').cpu c').mode.ctx = some k₁ := hk
      rw [Kernel.goto, setCpu_cpu] at hmode
      split at hmode
      · cases hmode
        rw [Ctx.target_of_paged hp] at hk'
        cases hk'
      · have hcode : s.code (.cpu c') = some k₁ := hmode
        rw [Table.set_entry, if_neg (hne _ hcode)]
        exact ha.paged hcode hp
    | slot q =>
      have hcode : s.code (.slot q) = some k₁ := hk
      rw [Table.set_entry, if_neg (hne _ hcode)]
      exact ha.paged hcode hp
  reg := ha.reg
  next := ha.next

theorem switchOut (hi : Sound s) (ha : Abs s t) (hc : s.cpu c = ⟨some p, m⟩)
    (f : Proc → Proc) (x : Entry) (hx : Agree (f (s.proc p)) x)
    (hsaved : (f (s.proc p)).Waiting → x.phase = .live (f (s.proc p)).stage)
    (hctx : ∀ k, (f (s.proc p)).ctx = some k → m.ctx = some k) :
    Abs ((s.setProc p f).sched c p) (t.set p x) where
  agree := fun q => by
    rw [Table.set_entry, sched_proc, setProc_proc]
    split
    · exact hx
    · exact ha.agree q
  cpu := fun {c' q k} hp hk => by
    rw [sched_cpu] at hp hk
    split at hp
    · cases hp
    · rename_i h
      rw [if_neg h] at hk
      have hne : q ≠ p := fun heq => h (hi.unique hp (by rw [hc, heq]))
      rw [Table.set_entry, if_neg hne]
      exact ha.cpu hp hk
  saved := fun {q} hq => by
    rw [sched_proc, setProc_proc] at hq ⊢
    rw [Table.set_entry]
    split at hq
    · rename_i h
      rw [if_pos h, if_pos h]
      exact hsaved hq
    · rename_i h
      rw [if_neg h, if_neg h]
      exact ha.saved hq
  paged := fun {h k np} hk hp => by
    have hold : ∃ h', s.code h' = some k := by
      cases h with
      | cpu c' =>
        have hmode : (((s.setProc p f).sched c p).cpu c').mode.ctx = some k := hk
        rw [sched_cpu] at hmode
        split at hmode
        · cases hmode
        · exact ⟨.cpu c', hmode⟩
      | slot q =>
        have hctx' : (((s.setProc p f).sched c p).proc q).ctx = some k := hk
        rw [sched_proc, setProc_proc] at hctx'
        split at hctx'
        · exact ⟨.cpu c, by show (s.cpu c).mode.ctx = _; rw [hc]; exact hctx k hctx'⟩
        · exact ⟨.slot q, hctx'⟩
    obtain ⟨h', hcode⟩ := hold
    have hne : np ≠ p := by
      rintro rfl
      have hembryo := hi.embryo hcode (Ctx.target_of_paged hp)
      rw [hi.on hc] at hembryo
      cases hembryo
    rw [Table.set_entry, if_neg hne]
    exact ha.paged hcode hp
  reg := ha.reg
  next := ha.next

theorem switchIn (ha : Abs s t) (hp : (s.proc p).state = .runnable) (f : Proc → Proc)
    (hf : Agree (f (s.proc p)) (t.entry p)) (hrun : (f (s.proc p)).state = .running)
    (hcpu : ∀ c', s'.cpu c' = if c' = c then ⟨some p, .run k⟩ else s.cpu c')
    (hproc : s'.proc = (s.setProc p f).proc) (hshared : s'.shared = s.shared)
    (hnext : s'.nextPage = s.nextPage) (hstage : (s.proc p).stage = k.stage)
    (hpaged : ∀ np, k.paged = some np → (s.proc p).ctx = some k) : Abs s' t where
  agree := fun q => by
    rw [hproc, setProc_proc]
    split
    · rename_i h
      rw [h]
      exact hf
    · exact ha.agree q
  cpu := fun {c' q k₁} hq hk => by
    rw [hcpu] at hq hk
    split at hq
    · rename_i h
      cases hq
      rw [if_pos h] at hk
      cases hk
      rw [ha.saved (.inl hp), hstage]
    · rename_i h
      rw [if_neg h] at hk
      exact ha.cpu hq hk
  saved := fun {q} hq => by
    rw [hproc, setProc_proc] at hq ⊢
    split at hq
    · rcases hq with hq | hq <;> rw [hrun] at hq <;> cases hq
    · rename_i h
      rw [if_neg h]
      exact ha.saved hq
  paged := fun {h k₁ np} hk hnp => by
    cases h with
    | cpu c' =>
      have hmode : (s'.cpu c').mode.ctx = some k₁ := hk
      rw [hcpu] at hmode
      split at hmode
      · cases hmode
        exact ha.paged (h := .slot p) (hpaged np hnp) hnp
      · exact ha.paged (h := .cpu c') hmode hnp
    | slot q =>
      have hctx : (s'.proc q).ctx = some k₁ := hk
      rw [hproc, setProc_proc] at hctx
      split at hctx
      · have := (ctx_eq_some.mp hctx).1
        rcases this with h | h <;> rw [hrun] at h <;> cases h
      · exact ha.paged (h := .slot q) hctx hnp
  reg := by
    rw [hshared]
    exact ha.reg
  next := by
    rw [hnext]
    exact ha.next

theorem goto (ha : Abs s t) (hc : s.cpu c = ⟨some cur, .run k⟩) (hstage : k'.stage = k.stage)
    (hpaged : ∀ np, k'.paged = some np → (t.entry np).phase = .paged) : Abs (s.goto c k') t := by
  have hcpu : (s.goto c k').cpu c = ⟨some cur, .run k'⟩ := by
    rw [Kernel.goto, setCpu_cpu, if_pos rfl, hc]
  refine ha.recode c rfl (fun c' hc' => ?_) (fun p k₁ hp hk => ?_) (fun k₁ np hk hnp => ?_) rfl rfl
  · rw [Kernel.goto, setCpu_cpu, if_neg hc']
  · rw [hcpu] at hp hk
    cases hp
    cases hk
    rw [hstage]
    exact ha.phase_on hc rfl
  · rw [hcpu] at hk
    cases hk
    exact hpaged np hnp

/-- An entry that no call in progress has any more is published or given up. -/
theorem advance (hi : Sound s) (ha : Abs s t) {np : Slot} (hcpu : s'.cpu = s.cpu)
    (hfree : ∀ h k, s.code h = some k → k.target ≠ some np) (hidle : (s.proc np).state = .embryo)
    (hproc : ∀ q, s'.proc q = if q = np then x else s.proc q) (hentry : t'.entry = update t.entry np y)
    (hagree : Agree x y)
    (hsaved : x.Waiting → y.phase = .live .user ∧ x.context = some (.release .user))
    (hreg : ∀ a, t'.reg a = (s'.shared a).toReg) (hnext : t'.next = s'.nextPage) : Abs s' t' where
  agree := fun q => by
    rw [hproc, hentry, update_apply]
    split
    · exact hagree
    · exact ha.agree q
  cpu := fun {c p k} hp hk => by
    rw [hcpu] at hp hk
    have hne : p ≠ np := by
      rintro rfl
      rw [hi.running hp] at hidle
      cases hidle
    rw [hentry, update_of_ne hne]
    exact ha.cpu hp hk
  saved := fun {q} hq => by
    rw [hproc] at hq ⊢
    rw [hentry, update_apply]
    split at hq
    · rename_i h
      rw [if_pos h, if_pos h, (hsaved hq).1, Proc.stage, (hsaved hq).2]
      rfl
    · rename_i h
      rw [if_neg h, if_neg h]
      exact ha.saved hq
  paged := fun {h k np'} hk hp => by
    have hcode : s.code h = some k := by
      cases h with
      | cpu c =>
        show (s.cpu c).mode.ctx = some k
        rw [← hcpu]
        exact hk
      | slot q =>
        have hctx : (s'.proc q).ctx = some k := hk
        rw [hproc] at hctx
        split at hctx
        · obtain ⟨hw, hctx⟩ := ctx_eq_some.mp hctx
          rw [(hsaved hw).2] at hctx
          cases hctx
          cases hp
        · exact hctx
    have hne : np' ≠ np := by
      rintro rfl
      exact hfree h k hcode (Ctx.target_of_paged hp)
    rw [hentry, update_of_ne hne]
    exact ha.paged hcode hp
  reg := hreg
  next := hnext

end Abs

end ThreadKernel
