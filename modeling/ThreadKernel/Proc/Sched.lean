import ThreadKernel.Proc.Effects
import ThreadKernel.Proc.Inversion

/-! Who runs, and who owns a slot that is being set up.

`Sound` says that a CPU's proc is `RUNNING` and on that CPU alone, and that a slot
`allocproc` handed out stays `EMBRYO` and belongs to one call in progress until that
call gives it up. It is an invariant of every run in which `exit` and `exec` do not
touch a sibling that is running or being set up (`Apart`). -/
namespace ThreadKernel

/-- The slot a call in progress has from `allocproc`. -/
def Ctx.target : Ctx → Option Slot
  | .forkAlloc np | .forkPage np | .forkCopy np | .forkPublish np | .createAlloc np
  | .createFinish np => some np
  | .user | .initcode | .execing _ => none

/-- The same, once the slot has its kernel stack and context. -/
def Ctx.ready : Ctx → Option Slot
  | .forkPage np | .forkCopy np | .forkPublish np | .createFinish np => some np
  | .user | .initcode | .execing _ | .forkAlloc _ | .createAlloc _ => none

/-- The same, once the slot has its own shared page. -/
def Ctx.paged : Ctx → Option Slot
  | .forkCopy np | .forkPublish np => some np
  | .user | .initcode | .execing _ | .forkAlloc _ | .createAlloc _ | .forkPage _
  | .createFinish _ => none

def Resume.ctx : Resume → Option Ctx
  | .release k | .slept k => some k
  | .waitLoop | .joinLoop _ => none

def Mode.ctx : Mode → Option Ctx
  | .run k | .tick k => some k
  | .idle | .scan _ => none

/-- The saved context counts while the scheduler may still switch to it. -/
def Proc.ctx (x : Proc) : Option Ctx :=
  if x.state = .runnable ∨ x.state = .sleeping then x.context.bind Resume.ctx else none

/-- Where code in progress is kept: on a CPU, or in a saved context. -/
inductive Holder where
  | cpu (c : Nat)
  | slot (p : Slot)

namespace Kernel

def code (s : Kernel) : Holder → Option Ctx
  | .cpu c => (s.cpu c).mode.ctx
  | .slot p => (s.proc p).ctx

/-- Each CPU's proc is `RUNNING`, on that CPU only. -/
structure Scheduled (s : Kernel) : Prop where
  running : ∀ {c p}, (s.cpu c).proc = some p → (s.proc p).state = .running
  unique : ∀ {c c' p}, (s.cpu c).proc = some p → (s.cpu c').proc = some p → c = c'

/-- A slot handed out belongs to one call in progress. -/
structure Owned (s : Kernel) : Prop where
  embryo : ∀ {h k np}, s.code h = some k → k.target = some np → (s.proc np).state = .embryo
  ready : ∀ {h k np}, s.code h = some k → k.ready = some np →
    (s.proc np).context = some (.release .user)
  owner : ∀ {h h' k k' np}, s.code h = some k → s.code h' = some k' → k.target = some np →
    k'.target = some np → h = h'

structure Sound (s : Kernel) : Prop extends Scheduled s, Owned s

theorem Scheduled.on {s : Kernel} {c : Nat} {p : Slot} {m : Mode} (h : Scheduled s)
    (hc : s.cpu c = ⟨some p, m⟩) : (s.proc p).state = .running :=
  h.running (by rw [hc])

end Kernel

open Kernel

theorem Ctx.target_of_ready {k : Ctx} {np : Slot} (h : k.ready = some np) : k.target = some np := by
  cases k <;> simp_all [Ctx.ready, Ctx.target]

theorem Proc.ctx_congr {x y : Proc} (hs : y.state = x.state) (hc : y.context = x.context) :
    y.ctx = x.ctx := by
  unfold Proc.ctx
  rw [hs, hc]

theorem Proc.ctx_none {x : Proc} (h : x.state ≠ .runnable) (h' : x.state ≠ .sleeping) : x.ctx = none := by
  unfold Proc.ctx
  rw [if_neg (by simp [h, h'])]

/-- What an entry may become while the CPUs stay as they are: it is kept, or it is
dropped without having been running or in the making. -/
def TableOk (x y : Proc) : Prop :=
  Kept x y ∨ (y.state = x.state ∧ y.context = x.context) ∨
    (x.state ≠ .running ∧ x.state ≠ .embryo ∧ (y.state = .zombie ∨ y.state = .unused))

theorem TableOk.state_of_busy {x y : Proc} (h : TableOk x y)
    (hx : x.state = .running ∨ x.state = .embryo) : y.state = x.state ∧ y.context = x.context := by
  rcases h with h | h | ⟨h, h', _⟩
  · rcases h.state with hs | ⟨hs, _⟩
    · exact ⟨hs, h.context⟩
    · rcases hx with hx | hx <;> rw [hs] at hx <;> cases hx
  · exact h
  · rcases hx with hx | hx
    · exact absurd hx h
    · exact absurd hx h'

theorem TableOk.ctx {x y : Proc} (h : TableOk x y) {k : Ctx} (hk : y.ctx = some k) : x.ctx = some k := by
  rcases h with h | h | ⟨_, _, h⟩
  · rcases h.state with hs | ⟨hs, hs'⟩
    · rwa [Proc.ctx_congr hs h.context] at hk
    · unfold Proc.ctx at hk ⊢
      rw [if_pos (.inl hs'), h.context] at hk
      rw [if_pos (.inr hs)]
      exact hk
  · rwa [Proc.ctx_congr h.1 h.2] at hk
  · rw [Proc.ctx_none] at hk
    · cases hk
    · rcases h with h | h <;> rw [h] <;> simp
    · rcases h with h | h <;> rw [h] <;> simp

namespace Kernel

variable {s s' : Kernel} {c : Nat} {p np cur : Slot} {k k' : Ctx}

/-- The rule by which `Owned` is carried over a step that hands out nothing: code in
progress after it was in progress before, perhaps in another place (`φ`). -/
theorem Owned.transfer (hi : Owned s) (φ : Holder → Holder) (embryos : ∀ q, (s.proc q).state = .embryo →
      (s'.proc q).state = .embryo ∧ (s'.proc q).context = (s.proc q).context)
    (codes : ∀ h k, s'.code h = some k → k.target = none ∨ ∃ k₀, s.code (φ h) = some k₀ ∧
      k.target = k₀.target ∧ (k.ready = none ∨ k.ready = k₀.ready))
    (places : ∀ h h', s'.code h ≠ none → s'.code h' ≠ none → φ h = φ h' → h = h') : Owned s' := by
  have back : ∀ {h k np}, s'.code h = some k → k.target = some np → ∃ k₀, s.code (φ h) = some k₀ ∧
      k₀.target = some np ∧ (k.ready = none ∨ k.ready = k₀.ready) := by
    intro h k np hk ht
    rcases codes h k hk with hnone | ⟨k₀, hk₀, htarget, hready⟩
    · rw [hnone] at ht
      cases ht
    · exact ⟨k₀, hk₀, by rw [← htarget, ht], hready⟩
  refine ⟨?_, ?_, ?_⟩
  · intro h k np hk ht
    obtain ⟨k₀, hk₀, ht₀, _⟩ := back hk ht
    exact (embryos np (hi.embryo hk₀ ht₀)).1
  · intro h k np hk hr
    obtain ⟨k₀, hk₀, ht₀, hready⟩ := back hk (Ctx.target_of_ready hr)
    rcases hready with hnone | hready
    · rw [hnone] at hr
      cases hr
    · rw [(embryos np (hi.embryo hk₀ ht₀)).2]
      exact hi.ready hk₀ (by rw [← hready, hr])
  · intro h h' k k' np hk hk' ht ht'
    obtain ⟨k₀, hk₀, ht₀, _⟩ := back hk ht
    obtain ⟨k₁, hk₁, ht₁, _⟩ := back hk' ht'
    exact places h h' (by simp [hk]) (by simp [hk']) (hi.owner hk₀ hk₁ ht₀ ht₁)

section

variable (hi : Sound s)
include hi

/-- The CPUs stay, the entries change as `TableOk` allows. -/
theorem Sound.table (hcpu : s'.cpu = s.cpu)
    (hproc : ∀ q, TableOk (s.proc q) (s'.proc q)) : Sound s' where
  running := fun {c p} h => by
    rw [hcpu] at h
    have hr := hi.running h
    rw [((hproc p).state_of_busy (.inl hr)).1, hr]
  unique := fun {c c' p} h h' => by
    rw [hcpu] at h h'
    exact hi.unique h h'
  toOwned := by
    refine hi.toOwned.transfer id ?_ ?_ ?_
    · intro q hq
      obtain ⟨hs, hc⟩ := (hproc q).state_of_busy (.inr hq)
      exact ⟨hs.trans hq, hc⟩
    · intro h k hk
      refine .inr ⟨k, ?_, rfl, .inr rfl⟩
      cases h with
      | cpu c =>
        show (s.cpu c).mode.ctx = some k
        rw [← hcpu]
        exact hk
      | slot q => exact (hproc q).ctx hk
    · exact fun h h' _ _ heq => heq

/-- The code on one CPU moves on with the slot it has, or without one. -/
theorem Sound.recode (c : Nat) (hproc : s'.proc = s.proc) (hother : ∀ c', c' ≠ c → s'.cpu c' = s.cpu c')
    (hcur : (s'.cpu c).proc = none ∨ (s'.cpu c).proc = (s.cpu c).proc)
    (hcode : ∀ k, (s'.cpu c).mode.ctx = some k → k.target = none ∨ ∃ k₀, (s.cpu c).mode.ctx = some k₀ ∧
      k.target = k₀.target ∧ (k.ready = none ∨ k.ready = k₀.ready)) : Sound s' := by
  have hsub : ∀ {c' p}, (s'.cpu c').proc = some p → (s.cpu c').proc = some p := by
    intro c' p h
    by_cases hc : c' = c
    · subst hc
      rcases hcur with hnone | hsame
      · rw [hnone] at h
        cases h
      · rwa [hsame] at h
    · rwa [hother c' hc] at h
  refine ⟨⟨fun h => ?_, fun h h' => hi.unique (hsub h) (hsub h')⟩, hi.toOwned.transfer id ?_ ?_ ?_⟩
  · rw [hproc]
    exact hi.running (hsub h)
  · intro q hq
    rw [hproc]
    exact ⟨hq, rfl⟩
  · intro h k hk
    cases h with
    | cpu c' =>
      by_cases hc : c' = c
      · subst hc
        exact hcode k hk
      · refine .inr ⟨k, ?_, rfl, .inr rfl⟩
        show (s.cpu c').mode.ctx = some k
        rw [← hother c' hc]
        exact hk
    | slot q =>
      refine .inr ⟨k, ?_, rfl, .inr rfl⟩
      show (s.proc q).ctx = some k
      rw [← hproc]
      exact hk
  · exact fun h h' _ _ heq => heq

theorem Sound.goto (k' : Ctx) (hc : (s.cpu c).mode.ctx = some k')
    (hk : k.target = none ∨ (k.target = k'.target ∧ k.ready = k'.ready)) : Sound (s.goto c k) := by
  refine hi.recode c rfl (fun c' hc' => ?_) (.inr ?_) (fun k₁ hk₁ => ?_)
  · rw [Kernel.goto, setCpu_cpu, if_neg hc']
  · rw [Kernel.goto, setCpu_cpu, if_pos rfl]
  · rw [Kernel.goto, setCpu_cpu, if_pos rfl] at hk₁
    cases hk₁
    rcases hk with hk | ⟨ht, hr⟩
    · exact .inl hk
    · exact .inr ⟨k', hc, ht, .inr hr⟩

theorem Sound.release (hk : k.target = none) : Sound (s.release c k) := by
  refine hi.recode c rfl (fun c' hc' => ?_) (.inr ?_) (fun k₁ hk₁ => ?_)
  · rw [release_cpu, if_neg hc']
  · rw [release_cpu, if_pos rfl]
  · rw [release_cpu, if_pos rfl] at hk₁
    cases hk₁
    exact .inl hk

/-- A proc leaves its CPU: what it was doing is saved, or forgotten. -/
theorem Sound.switchOut {m : Mode} (hc : s.cpu c = ⟨some p, m⟩) (f : Proc → Proc)
    (hrun : (f (s.proc p)).state ≠ .running)
    (hctx : ∀ k, (f (s.proc p)).ctx = some k → m.ctx = some k) :
    Sound ((s.setProc p f).sched c p) := by
  have hp : (s.proc p).state = .running := hi.on hc
  have hcode : ∀ h, h ≠ .slot p → h ≠ .cpu c → ((s.setProc p f).sched c p).code h = s.code h := by
    intro h hslot hcpu
    cases h with
    | cpu c' =>
      have : c' ≠ c := fun h => hcpu (by rw [h])
      simp only [code, sched_cpu, if_neg this, setProc_cpu]
    | slot q =>
      have : q ≠ p := fun h => hslot (by rw [h])
      simp only [code, sched_proc, setProc_ne s p q f this]
  have hgone : ((s.setProc p f).sched c p).code (.cpu c) = none := by
    simp only [code, sched_cpu, if_true, Mode.ctx]
  have hsaved : ((s.setProc p f).sched c p).code (.slot p) = (f (s.proc p)).ctx := by
    simp only [code, sched_proc, setProc_same]
  refine ⟨⟨?_, ?_⟩, hi.toOwned.transfer (fun h => match h with
    | .slot q => if q = p then .cpu c else .slot q
    | .cpu c' => .cpu c') ?_ ?_ ?_⟩
  · intro c' q h
    rw [sched_cpu] at h
    split at h
    · cases h
    · rename_i hc'
      have hne : q ≠ p := fun heq => hc' (hi.unique h (by rw [hc, heq]))
      rw [sched_proc, setProc_ne s p q f hne]
      exact hi.running h
  · intro c₁ c₂ q h h'
    rw [sched_cpu] at h h'
    split at h
    · cases h
    · split at h'
      · cases h'
      · exact hi.unique h h'
  · intro q hq
    have hne : q ≠ p := by
      rintro rfl
      rw [hp] at hq
      cases hq
    rw [sched_proc, setProc_ne s p q f hne]
    exact ⟨hq, rfl⟩
  · intro h k hk
    refine .inr ⟨k, ?_, rfl, .inr rfl⟩
    cases h with
    | cpu c' =>
      have hne : c' ≠ c := by
        rintro rfl
        rw [hgone] at hk
        cases hk
      rw [hcode _ (by simp) (by simpa using hne)] at hk
      exact hk
    | slot q =>
      by_cases hq : q = p
      · subst hq
        rw [hsaved] at hk
        simp only [if_true, code, hc]
        exact hctx k hk
      · rw [hcode _ (by simpa using hq) (by simp)] at hk
        simp only [if_neg hq]
        exact hk
  · intro h h' hh hh' heq
    cases h with
    | cpu c₁ =>
      have hc₁ : c₁ ≠ c := by
        rintro rfl
        exact hh hgone
      cases h' with
      | cpu c₂ => exact heq
      | slot q =>
        simp only at heq
        split at heq
        · exact absurd (Holder.cpu.inj heq) hc₁
        · cases heq
    | slot q =>
      cases h' with
      | cpu c₂ =>
        have hc₂ : c₂ ≠ c := by
          rintro rfl
          exact hh' hgone
        simp only at heq
        split at heq
        · exact absurd (Holder.cpu.inj heq).symm hc₂
        · cases heq
      | slot q' =>
        simp only at heq
        split at heq
        · split at heq
          · rename_i h₁ h₂
            rw [h₁, h₂]
          · cases heq
        · split at heq
          · cases heq
          · exact heq

/-- The scheduler switches to a proc: it goes on with what was saved, or without it. -/
theorem Sound.switchIn (hp : (s.proc p).state = .runnable) (f : Proc → Proc)
    (hrun : (f (s.proc p)).state = .running)
    (hother : ∀ c', c' ≠ c → s'.cpu c' = s.cpu c') (hcpu : s'.cpu c = ⟨some p, .run k⟩)
    (hproc : s'.proc = (s.setProc p f).proc)
    (hk : k.target = none ∨ (s.proc p).ctx = some k) : Sound s' := by
  have hnot : ∀ c', (s.cpu c').proc ≠ some p := by
    intro c' h
    rw [hi.running h] at hp
    cases hp
  have hgone : s'.code (.slot p) = none := by
    simp only [code, hproc, setProc_same]
    exact Proc.ctx_none (by rw [hrun]; simp) (by rw [hrun]; simp)
  have hother' : ∀ q, q ≠ p → s'.proc q = s.proc q := fun q hq => by rw [hproc, setProc_ne s p q f hq]
  refine ⟨⟨?_, ?_⟩, hi.toOwned.transfer (fun h => match h with
    | .cpu c' => if c' = c then .slot p else .cpu c'
    | .slot q => .slot q) ?_ ?_ ?_⟩
  · intro c' q h
    by_cases hc : c' = c
    · subst hc
      rw [hcpu] at h
      cases h
      rw [hproc, setProc_same, hrun]
    · rw [hother c' hc] at h
      have hne : q ≠ p := fun heq => hnot c' (by rw [h, heq])
      rw [hother' q hne]
      exact hi.running h
  · intro c₁ c₂ q h₁ h₂
    by_cases hc₁ : c₁ = c
    · by_cases hc₂ : c₂ = c
      · rw [hc₁, hc₂]
      · rw [hc₁, hcpu] at h₁
        rw [hother c₂ hc₂] at h₂
        cases h₁
        exact absurd h₂ (hnot c₂)
    · rw [hother c₁ hc₁] at h₁
      by_cases hc₂ : c₂ = c
      · rw [hc₂, hcpu] at h₂
        cases h₂
        exact absurd h₁ (hnot c₁)
      · rw [hother c₂ hc₂] at h₂
        exact hi.unique h₁ h₂
  · intro q hq
    have hne : q ≠ p := by
      rintro rfl
      rw [hp] at hq
      cases hq
    rw [hother' q hne]
    exact ⟨hq, rfl⟩
  · intro h k₁ hk₁
    cases h with
    | cpu c' =>
      by_cases hc : c' = c
      · subst hc
        simp only [code, hcpu, Mode.ctx] at hk₁
        cases hk₁
        rcases hk with hk | hk
        · exact .inl hk
        · refine .inr ⟨k, ?_, rfl, .inr rfl⟩
          simp only [if_true, code]
          exact hk
      · refine .inr ⟨k₁, ?_, rfl, .inr rfl⟩
        simp only [if_neg hc, code]
        simpa only [code, hother c' hc] using hk₁
    | slot q =>
      have hne : q ≠ p := by
        rintro rfl
        rw [hgone] at hk₁
        cases hk₁
      refine .inr ⟨k₁, ?_, rfl, .inr rfl⟩
      simpa only [code, hother' q hne] using hk₁
  · intro h h' hh hh' heq
    cases h with
    | cpu c₁ =>
      cases h' with
      | cpu c₂ =>
        simp only at heq
        split at heq
        · split at heq
          · rename_i h₁ h₂
            rw [h₁, h₂]
          · cases heq
        · split at heq
          · cases heq
          · exact heq
      | slot q =>
        simp only at heq
        split at heq
        · rw [← Holder.slot.inj heq] at hh'
          exact absurd hgone hh'
        · cases heq
    | slot q =>
      cases h' with
      | cpu c₂ =>
        simp only at heq
        split at heq
        · rw [Holder.slot.inj heq] at hh
          exact absurd hgone hh
        · cases heq
      | slot q' => exact heq

/-- A call moves on with a slot that no other call has: taken just now, kept, or given
up. -/
theorem Sound.advance (np : Slot) (hcpu : s'.cpu = s.cpu)
    (hothers : ∀ q, q ≠ np → TableOk (s.proc q) (s'.proc q))
    (hfree : ∀ h k₁, h ≠ .cpu c → s.code h = some k₁ → k₁.target ≠ some np)
    (hidle : (s.proc np).state ≠ .running)
    (hsaved : ∀ k₁, (s'.proc np).ctx = some k₁ → k₁.target = none)
    (hnext : ∀ t, k'.target = some t → t = np ∧ (s'.proc np).state = .embryo ∧
      (k'.ready = some np → (s'.proc np).context = some (.release .user))) :
    Sound (s'.goto c k') := by
  have hcur : ∀ c', ((s'.goto c k').cpu c').proc = (s.cpu c').proc := by
    intro c'
    rw [Kernel.goto, setCpu_cpu, hcpu]
    split
    · rename_i h
      rw [h]
    · rfl
  have hnow : (s'.goto c k').code (.cpu c) = some k' := by
    simp only [code, Kernel.goto, setCpu_cpu, if_true, Mode.ctx]
  -- code elsewhere that has a slot is as it was, and its slot is another one
  have hback : ∀ {h k₁ t}, h ≠ .cpu c → (s'.goto c k').code h = some k₁ → k₁.target = some t →
      s.code h = some k₁ ∧ t ≠ np := by
    intro h k₁ t hne hk₁ ht
    have hs : s.code h = some k₁ := by
      cases h with
      | cpu c' =>
        have hc' : c' ≠ c := fun h => hne (by rw [h])
        simpa only [code, Kernel.goto, setCpu_cpu, if_neg hc', hcpu] using hk₁
      | slot q =>
        by_cases hq : q = np
        · subst hq
          have := hsaved k₁ hk₁
          rw [ht] at this
          cases this
        · exact (hothers q hq).ctx hk₁
    exact ⟨hs, fun heq => hfree h k₁ hne hs (by rw [ht, heq])⟩
  refine ⟨⟨?_, ?_⟩, ?_, ?_, ?_⟩
  · intro c' p h
    rw [hcur] at h
    have hr := hi.running h
    have hne : p ≠ np := fun heq => hidle (by rw [← heq, hr])
    show (s'.proc p).state = .running
    rw [((hothers p hne).state_of_busy (.inl hr)).1, hr]
  · intro c₁ c₂ p h₁ h₂
    rw [hcur] at h₁ h₂
    exact hi.unique h₁ h₂
  · intro h k₁ t hk₁ ht
    by_cases hh : h = .cpu c
    · subst hh
      rw [hnow] at hk₁
      cases hk₁
      obtain ⟨rfl, hembryo, -⟩ := hnext t ht
      exact hembryo
    · obtain ⟨hs, hne⟩ := hback hh hk₁ ht
      have he := hi.embryo hs ht
      show (s'.proc t).state = .embryo
      rw [((hothers t hne).state_of_busy (.inr he)).1, he]
  · intro h k₁ t hk₁ hr
    have ht := Ctx.target_of_ready hr
    by_cases hh : h = .cpu c
    · subst hh
      rw [hnow] at hk₁
      cases hk₁
      obtain ⟨rfl, -, hready⟩ := hnext t ht
      exact hready hr
    · obtain ⟨hs, hne⟩ := hback hh hk₁ ht
      show (s'.proc t).context = some (.release .user)
      rw [((hothers t hne).state_of_busy (.inr (hi.embryo hs ht))).2]
      exact hi.ready hs hr
  · intro h h' k₁ k₂ t hk₁ hk₂ ht₁ ht₂
    by_cases hh : h = .cpu c
    · by_cases hh' : h' = .cpu c
      · rw [hh, hh']
      · subst hh
        rw [hnow] at hk₁
        cases hk₁
        exact absurd (hnext t ht₁).1 (hback hh' hk₂ ht₂).2
    · by_cases hh' : h' = .cpu c
      · subst hh'
        rw [hnow] at hk₂
        cases hk₂
        exact absurd (hnext t ht₂).1 (hback hh hk₁ ht₁).2
      · exact hi.owner (hback hh hk₁ ht₁).1 (hback hh' hk₂ ht₂).1 ht₁ ht₂

/-- The slot of the call on CPU `c` is nobody else's and not running. -/
theorem Sound.own (hc : (s.cpu c).mode.ctx = some k) (hk : k.target = some np) :
    (s.proc np).state = .embryo ∧ ∀ h k₁, h ≠ .cpu c → s.code h = some k₁ → k₁.target ≠ some np :=
  ⟨hi.embryo (h := .cpu c) hc hk,
    fun _ _ hne hk₁ ht => hne (hi.owner hk₁ (show s.code (.cpu c) = some k from hc) ht hk)⟩

/-- A call in progress that gives up its slot, the entry `UNUSED` or `RUNNABLE`. -/
theorem Sound.giveUp (np : Slot) (hc : (s.cpu c).mode.ctx = some k)
    (hk : k.target = some np) (hcpu : s'.cpu = s.cpu)
    (hproc : ∀ q, s'.proc q = if q = np then x else s.proc q)
    (hnp : x.state = .unused ∨ (x.state = .runnable ∧ x.context = some (.release .user))) :
    Sound (s'.goto c .user) := by
  obtain ⟨hembryo, hfree⟩ := hi.own hc hk
  refine hi.advance np hcpu (fun q hq => .inr (.inl ?_)) hfree (by rw [hembryo]; simp) ?_ ?_
  · rw [hproc, if_neg hq]
    exact ⟨rfl, rfl⟩
  · intro k₁ hk₁
    rw [hproc, if_pos rfl] at hk₁
    rcases hnp with hnp | ⟨hnp, hctx⟩
    · rw [Proc.ctx_none (by rw [hnp]; simp) (by rw [hnp]; simp)] at hk₁
      cases hk₁
    · unfold Proc.ctx at hk₁
      rw [if_pos (.inl hnp), hctx] at hk₁
      cases hk₁
      rfl
  · intro t ht
    cases ht

theorem Sound.fill (np : Slot) (hc : (s.cpu c).mode.ctx = some k)
    (hk : k.target = some np) (hk' : k'.target = some np) (hcpu : s'.cpu = s.cpu)
    (hproc : ∀ q, s'.proc q = if q = np then x else s.proc q)
    (hnp : x.state = (s.proc np).state) (hctx : x.context = some (.release .user)) :
    Sound (s'.goto c k') := by
  obtain ⟨hembryo, hfree⟩ := hi.own hc hk
  refine hi.advance np hcpu (fun q hq => .inr (.inl ?_)) hfree (by rw [hembryo]; simp) ?_ ?_
  · rw [hproc, if_neg hq]
    exact ⟨rfl, rfl⟩
  · intro k₁ hk₁
    rw [hproc, if_pos rfl, Proc.ctx_none (by rw [hnp, hembryo]; simp) (by rw [hnp, hembryo]; simp)] at hk₁
    cases hk₁
  · intro t ht
    rw [hk'] at ht
    cases ht
    rw [hproc, if_pos rfl]
    exact ⟨rfl, hnp.trans hembryo, fun _ => hctx⟩

end

end Kernel

/-- `exit` and `exec` leave running procs and slots in the making alone. -/
def Apart (s : Kernel) : Event → Prop
  | .exited cur => ∀ q, q ≠ cur → (s.proc q).sharePtr = (s.proc cur).sharePtr →
      (s.proc q).state ≠ .running ∧ (s.proc q).state ≠ .embryo
  | .killedOthers cur => ∀ own ∈ (s.proc cur).sharePtr, ∀ i, (s.shared own).isThere i = true →
      ∀ q ∈ (s.shared own).threads i, q ≠ cur →
        (s.proc q).state ≠ .running ∧ (s.proc q).state ≠ .embryo
  | _ => True

instance (s : Kernel) (e : Event) : Decidable (Apart s e) := by
  apply @Event.casesOn _ e <;> intros <;> dsimp only [Apart] <;> infer_instance

namespace Kernel

variable {s s' : Kernel} {c : Nat} {e : Event} {op : Op} {cur : Slot} {own : Page} {s₁ : Kernel}

section
variable (hi : Sound s)
include hi

theorem Sound.idle {m : Mode} (hm : m.ctx = none) {l : Option Nat} :
    Sound {s.setCpu c ⟨none, m⟩ with lock := l} := by
  refine hi.recode c rfl (fun c' hc' => ?_) (.inl ?_) (fun k hk => ?_)
  · show (s.setCpu c ⟨none, m⟩).cpu c' = _
    rw [setCpu_cpu, if_neg hc']
  · show ((s.setCpu c ⟨none, m⟩).cpu c).proc = none
    rw [setCpu_cpu, if_pos rfl]
  · have : ((s.setCpu c ⟨none, m⟩).cpu c).mode.ctx = some k := hk
    rw [setCpu_cpu, if_pos rfl] at this
    rw [hm] at this
    cases this

/-- The scheduler's switch to `p`, up to where its code goes on as `k`. -/
theorem Sound.resumed {p : Slot} {k : Ctx} (hp : (s.proc p).state = .runnable)
    (f : Proc → Proc) (hrun : (f (s.proc p)).state = .running)
    (hcpu : ∀ c', s'.cpu c' = if c' = c then ⟨some p, .run k⟩ else s.cpu c')
    (hproc : s'.proc = (s.setProc p f).proc) (hk : k.target = none ∨ (s.proc p).ctx = some k) :
    Sound s' :=
  hi.switchIn hp f hrun (fun c' hc' => by rw [hcpu, if_neg hc']) (by rw [hcpu, if_pos rfl]) hproc hk

theorem enter_sound (h : Enter s c cur s₁) :
    Sound s₁ ∧ s₁.cpu c = ⟨some cur, .run .user⟩ := by
  cases h with
  | call hc hl => exact ⟨hi, hc⟩
  | wake hm hp hr =>
    refine ⟨hi.resumed (k := .user) hp (fun x => {x with state := .running, chan := .addr 0}) rfl
      (fun c' => setCpu_cpu s c c' _) ?_ (.inl rfl), ?_⟩
    · funext q
      simp only [setProc_proc, setCpu_proc]
      split
      · simp
      · rfl
    · simp [setCpu_cpu]

/-- `wait` and `thread_join` free only zombies. -/
theorem body_sound (hc : s.cpu c = ⟨some cur, .run .user⟩) (h : Body s c cur e s') :
    Sound s' := by
  cases h with
  | @reaped child own hfind hown =>
    refine Sound.release (hi.table (reapFold s cur own child _).1.cpu fun q => ?_) rfl
    obtain ⟨-, hin, hout⟩ := reapFold s q own child (List.finRange 6)
    by_cases hl : Listed s q own (List.finRange 6)
    · refine .inr (.inr ⟨by rw [hl.1]; simp, by rw [hl.1]; simp, .inr ?_⟩)
      have := hin hl
      simp only [reap, this, reapedProc]
    · rcases hout hl with h | ⟨_, h⟩
      · exact .inr (.inl ⟨by simp only [reap, h], by simp only [reap, h]⟩)
      · exact .inr (.inl ⟨by simp only [reap, h], by simp only [reap, h]⟩)
  | @joined p t own stack hfind hstack hown =>
    have hz : (s.proc p).state = .zombie := by
      have := Fin.eq_true_of_find?_eq_some hfind
      simp only [joinable, decide_eq_true_eq] at this
      exact this.2.1
    refine Sound.release (hi.table rfl fun q => ?_) rfl
    by_cases hq : q = p
    · subst hq
      exact .inr (.inr ⟨by rw [hz]; simp, by rw [hz]; simp, .inr (by rw [joinReap_proc, if_pos rfl])⟩)
    · rw [joinReap_proc, if_neg hq]
      exact .inl (.refl _)
  | failed => exact hi.release rfl
  | asleep hr =>
    refine hi.switchOut hc _ (by simp) (fun k hk => ?_)
    rcases hr with rfl | ⟨t, rfl⟩ <;> cases hk

theorem killSiblings_sound (hg : Apart s (.exited cur)) :
    Sound ((s.exiting cur).killSiblings cur) := by
  have hexiting : Sound (s.exiting cur) :=
    hi.table (by simp [exiting]) fun q => .inl (exiting_kept s cur q)
  refine hexiting.table (mapProc_cpu _ _) fun q => ?_
  have hkept := exiting_kept s cur q
  simp only [killSiblings, mapProc_proc]
  split
  · rename_i hq
    rw [hkept.sharePtr, (exiting_kept s cur cur).sharePtr] at hq
    obtain ⟨hrun, hembryo⟩ := hg q hq.2 hq.1
    refine .inr (.inr ⟨?_, ?_, .inl rfl⟩)
    · rcases hkept.state with h | ⟨_, h⟩ <;> rw [h]
      · exact hrun
      · simp
    · rcases hkept.state with h | ⟨_, h⟩ <;> rw [h]
      · exact hembryo
      · simp
  · exact .inl (.refl _)

theorem exit_sound (hc : s.cpu c = ⟨some cur, .run .user⟩)
    (hg : Apart s (.exited cur)) : Sound ((s.exit cur).sched c cur) := by
  have hcpu : ((s.exiting cur).killSiblings cur).cpu c = ⟨some cur, .run .user⟩ := by
    simp [killSiblings, exiting, hc]
  exact (killSiblings_sound hi hg).switchOut hcpu _ (by simp) fun k hk => by
    cases hk

theorem threadExit_sound {v : Word}
    (hc : s.cpu c = ⟨some cur, .run .user⟩) : Sound ((s.threadExit cur own v).sched c cur) := by
  have hwoken : Sound ((s.wakeup1 (s.masterChan own)).setShared own fun d =>
      {d with isThere := Function.update d.isThere (s.proc cur).orderOfThread false}) :=
    hi.table rfl fun q => .inl (wakeup1_kept s q _)
  exact hwoken.switchOut hc _ (by simp) fun k hk => by
    cases hk

theorem exec_sound {k : Ctx} {init : Bool}
    (hc : s.cpu c = ⟨some cur, .run k⟩) (hown : (s.proc cur).sharePtr = some own)
    (h : s.killOtherThreads cur own = some s₁) (hg : Apart s (.killedOthers cur)) :
    Sound (s₁.goto c (.execing init)) := by
  obtain ⟨hrest, -, hproc⟩ := killOtherThreads_eq s cur own h
  have hkilled : Sound s₁ := by
    refine hi.table hrest.cpu fun q => ?_
    by_cases hv : Victim s cur q own (List.finRange 6)
    · have hq := (hproc q).1 hv
      obtain ⟨hne, i, -, hi, ht⟩ := hv
      obtain ⟨hrun, hembryo⟩ := hg own hown i hi q ht hne
      exact .inr (.inr ⟨hrun, hembryo, .inr (by rw [hq]; rfl)⟩)
    · rw [(hproc q).2 hv]
      exact .inl (.refl _)
  exact hkilled.goto k (by rw [hrest.cpu, hc]; rfl) (.inl rfl)

theorem execCommit_sound : Sound (s.execCommit cur own) := by
  refine hi.table rfl fun q => .inr (.inl ?_)
  rw [execCommit_proc]
  split
  · rename_i h
    subst h
    exact ⟨rfl, rfl⟩
  · exact ⟨rfl, rfl⟩

theorem Sound.step (h : Case s c op e s') (hg : Apart s e) : Sound s' := by
  cases h with
  | acquire hm hl => exact hi.idle rfl
  | letGo hm => exact hi.idle rfl
  | @resume i p k hm hp hr =>
    refine hi.resumed (c := c) (k := k) hp (fun x => {x with state := .running}) rfl
      (fun c' => ?_) rfl (.inr ?_)
    · rw [release_cpu]
      simp only [setProc_cpu, setCpu_cpu, if_true]
      split <;> rfl
    · unfold Proc.ctx
      rw [if_pos (.inl hp), hr]
      rfl
  | @awake i p k hm hp hr =>
    refine hi.resumed (c := c) (k := k) hp
      (fun x => {x with state := .running, chan := .addr 0}) rfl (fun c' => ?_) ?_ (.inr ?_)
    · rw [release_cpu]
      simp only [setProc_cpu, setCpu_cpu, if_true]
      split <;> rfl
    · funext q
      simp only [release_proc, setProc_proc, setCpu_proc]
      split
      · simp
      · rfl
    · unfold Proc.ctx
      rw [if_pos (.inl hp), hr]
      rfl
  | body henter hbody =>
    obtain ⟨hi₁, hc⟩ := enter_sound hi henter
    exact body_sound hi₁ hc hbody
  | @tick cur k hc =>
    refine hi.recode c rfl (fun c' hc' => ?_) (.inr ?_) (fun k₁ hk₁ => ?_)
    · rw [setCpu_cpu, if_neg hc']
    · rw [setCpu_cpu, if_pos rfl, hc]
    · rw [setCpu_cpu, if_pos rfl] at hk₁
      cases hk₁
      exact .inr ⟨k, by rw [hc]; rfl, rfl, .inr rfl⟩
  | yield hc hl | sleep hc hl =>
    exact hi.switchOut hc _ (by simp) fun k hk => by simpa [Proc.ctx, Resume.ctx, Mode.ctx] using hk
  | wakeup => exact hi.table rfl fun q => .inl (wakeup1_kept s q _)
  | stay => exact hi
  | @alloc cur np s₁ k hc halloc hk =>
    obtain ⟨hunused, -, rfl⟩ := allocproc_eq halloc
    refine hi.advance np rfl (fun q hq => .inr (.inl ?_)) (fun h k₁ _ hk₁ ht => ?_)
      (by rw [hunused]; simp) (fun k₁ hk₁ => ?_) (fun t ht => ?_)
    · simp only [setProc_ne s np q _ hq, and_self]
    · rw [hi.embryo hk₁ ht] at hunused
      cases hunused
    · rw [Proc.ctx_none (by simp) (by simp)] at hk₁
      cases hk₁
    · rcases hk with rfl | rfl
      · cases ht
        exact ⟨rfl, by simp, fun h => by cases h⟩
      · cases ht
        exact ⟨rfl, by simp, fun h => by cases h⟩
  | @allocKstack cur np k k' hc hk =>
    have hctx : (s.cpu c).mode.ctx = some k := by rw [hc]; rfl
    refine hi.fill np hctx ?_ ?_ rfl (fun q => allocKstack_proc ..) rfl rfl
    · rcases hk with ⟨rfl, -⟩ | ⟨rfl, -⟩ <;> rfl
    · rcases hk with ⟨-, rfl⟩ | ⟨-, rfl⟩ <;> rfl
  | @abandon cur np k stack hc hk _ =>
    have hctx : (s.cpu c).mode.ctx = some k := by rw [hc]; rfl
    refine hi.giveUp np hctx ?_ rfl (fun q => abandon_proc ..) (.inl rfl)
    rcases hk with rfl | rfl | rfl <;> rfl
  | @forkPage cur np hc =>
    have hctx : (s.cpu c).mode.ctx = some (.forkPage np) := by rw [hc]; rfl
    exact hi.fill np hctx rfl rfl rfl (fun q => forkPage_proc ..) rfl (hi.ready (h := .cpu c) hctx rfl)
  | @forkCopy cur np own hc hown =>
    have hctx : (s.cpu c).mode.ctx = some (.forkCopy np) := by rw [hc]; rfl
    exact hi.fill np hctx rfl rfl rfl (fun q => forkCopy_proc ..) rfl (hi.ready (h := .cpu c) hctx rfl)
  | @forkCopyFail cur np hc =>
    have hctx : (s.cpu c).mode.ctx = some (.forkCopy np) := by rw [hc]; rfl
    exact hi.giveUp np hctx rfl rfl (fun q => forkCopyFail_proc ..) (.inl rfl)
  | @forkPublish cur np own hc hown =>
    have hctx : (s.cpu c).mode.ctx = some (.forkPublish np) := by rw [hc]; rfl
    exact hi.giveUp np hctx rfl rfl (fun q => forkPublish_proc ..)
      (.inr ⟨rfl, hi.ready (h := .cpu c) hctx rfl⟩)
  | @create cur np own hc hown =>
    have hctx : (s.cpu c).mode.ctx = some (.createFinish np) := by rw [hc]; rfl
    exact hi.giveUp np hctx rfl (create_cpu ..) (fun q => create_proc ..)
      (.inr ⟨rfl, hi.ready (h := .cpu c) hctx rfl⟩)
  | @createFail cur np own hc hown =>
    have hctx : (s.cpu c).mode.ctx = some (.createFinish np) := by rw [hc]; rfl
    exact hi.giveUp np hctx rfl rfl (fun q => createFail_proc ..) (.inl rfl)
  | threadExit hc hown => exact threadExit_sound hi hc
  | exit hc hown hinit => exact exit_sound hi hc hg
  | kill => exact hi.table rfl fun q => .inl (kill_kept s _ q)
  | killLeak => exact hi.table rfl fun q => .inl (.refl _)
  | exec hc hown hkill hk => exact exec_sound hi hc hown hkill hg
  | @execCommit cur own init hc hown =>
    exact (execCommit_sound hi).goto (.execing init) (by show (s.cpu c).mode.ctx = _; rw [hc]; rfl) (.inl rfl)
  | @execFail cur own k init hc hown hk =>
    refine hi.goto (.execing init) (by rw [hc]; rfl) (.inl ?_)
    rcases hk with ⟨rfl, -⟩ | ⟨rfl, -⟩ <;> rfl

end

end Kernel
end ThreadKernel
