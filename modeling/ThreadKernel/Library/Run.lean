import Mathlib

/-! Runs of a labelled transition system.

A run is a history of labels, newest first, and the state they lead to. Nothing is
asked of the system: labels may repeat, steps may be in any order, and the relation
need not be a function.

A rule on steps (`Guarded`) is part of the step, so that what holds on every run all
of whose steps keep the rule is an ordinary invariant of the guarded system. -/
namespace Lts

variable {σ ε : Type}

/-- The histories that lead from `s₀` to a state. -/
inductive Run (step : σ → ε → σ → Prop) (s₀ : σ) : List ε → σ → Prop where
  | nil : Run step s₀ [] s₀
  | snoc {h : List ε} {s s' : σ} {e : ε} : Run step s₀ h s → step s e s' → Run step s₀ (e :: h) s'

/-- Steps that keep a rule on the state before them and their label. -/
def Guarded (step : σ → ε → σ → Prop) (rule : σ → ε → Prop) (s : σ) (e : ε) (s' : σ) : Prop :=
  step s e s' ∧ rule s e

variable {step step' : σ → ε → σ → Prop} {rule rule' : σ → ε → Prop} {s₀ s t : σ} {h : List ε}
  {h' : List ε}

theorem Run.mono (hstep : ∀ s e s', step s e s' → step' s e s') (hr : Run step s₀ h s) :
    Run step' s₀ h s := by
  induction hr with
  | nil => exact .nil
  | snoc _ hs ih => exact .snoc ih (hstep _ _ _ hs)

theorem Run.unguarded (hr : Run (Guarded step rule) s₀ h s) : Run step s₀ h s :=
  hr.mono fun _ _ _ hs => hs.1

/-- What holds at the start and survives every step, knowing the history, holds
after every run. -/
theorem Run.invariant (Inv : List ε → σ → Prop) (init : Inv [] s₀)
    (preserved : ∀ h s e s', Run step s₀ h s → Inv h s → step s e s' → Inv (e :: h) s')
    (hr : Run step s₀ h s) : Inv h s := by
  induction hr with
  | nil => exact init
  | snoc hr hs ih => exact preserved _ _ _ _ hr ih hs

theorem Run.append (hr : Run step s₀ h s) (hr' : Run step s h' t) :
    Run step s₀ (h' ++ h) t := by
  induction hr' with
  | nil => exact hr
  | snoc _ hs ih => exact .snoc ih hs

/-- A run is cut where its history is. -/
theorem Run.split (hr : Run step s₀ (h' ++ h) s) :
    ∃ t, Run step s₀ h t ∧ Run step t h' s := by
  induction h' generalizing s with
  | nil => exact ⟨s, hr, .nil⟩
  | cons e h' ih =>
    cases hr with
    | snoc hr hs =>
      obtain ⟨t, hr₁, hr₂⟩ := ih hr
      exact ⟨t, hr₁, hr₂.snoc hs⟩

/-- Either `P` still holds at the end of a run, or some step on the way did `Q`, with
`P` holding until then. -/
theorem Run.unless (P : σ → Prop) (Q : σ → ε → Prop)
    (keep : ∀ s e s', step s e s' → P s → ¬ Q s e → P s') (hr : Run step s₀ h s) (hp : P s₀) :
    P s ∨ ∃ h₁ h₂ e t t', h = h₂ ++ e :: h₁ ∧ Run step s₀ h₁ t ∧ P t ∧ Q t e ∧ step t e t' ∧
      Run step t' h₂ s := by
  induction hr with
  | nil => exact .inl hp
  | @snoc h s s' e hr hs ih =>
    rcases ih with hP | ⟨h₁, h₂, e', t, t', rfl, hr₁, hP, hQ, hst, hr₂⟩
    · by_cases hQ : Q s e
      · exact .inr ⟨h, [], e, s, s', rfl, hr, hP, hQ, hs, .nil⟩
      · exact .inl (keep _ _ _ hs hP hQ)
    · exact .inr ⟨h₁, e :: h₂, e', t, t', rfl, hr₁, hP, hQ, hst, .snoc hr₂ hs⟩

/-- What holds now and not at the start came up at some state of the run. -/
theorem Run.origin (P Q : σ → Prop) (init : ¬ P s₀)
    (new : ∀ h s e s', Run step s₀ h s → step s e s' → P s' → P s ∨ Q s') (hr : Run step s₀ h s)
    (hp : P s) : ∃ h₁ h₂ t, h = h₂ ++ h₁ ∧ Run step s₀ h₁ t ∧ Run step t h₂ s ∧ Q t := by
  induction hr with
  | nil => exact absurd hp init
  | @snoc h s s' e hr hs ih =>
    rcases new h s e s' hr hs hp with hbefore | hq
    · obtain ⟨h₁, h₂, t, rfl, hr₁, hr₂, hq⟩ := ih hbefore
      exact ⟨h₁, e :: h₂, t, rfl, hr₁, hr₂.snoc hs, hq⟩
    · exact ⟨e :: h, [], s', rfl, hr.snoc hs, .nil, hq⟩

/-- A system that simulates every step simulates every run, under the same history. -/
theorem Run.simulate {τ : Type} {move : τ → ε → τ → Prop} {t₀ : τ} (R : σ → τ → Prop) (init : R s₀ t₀)
    (sim : ∀ s t e s', R s t → step s e s' → ∃ t', move t e t' ∧ R s' t') (hr : Run step s₀ h s) :
    ∃ t, Run move t₀ h t ∧ R s t := by
  induction hr with
  | nil => exact ⟨t₀, .nil, init⟩
  | snoc _ hs ih =>
    obtain ⟨t, hrun, hR⟩ := ih
    obtain ⟨t', hmove, hR'⟩ := sim _ t _ _ hR hs
    exact ⟨t', hrun.snoc hmove, hR'⟩

/-! ### Runs that are computed -/

section
variable {α : Type} {f : σ → α → Option (σ × ε)} [∀ s e, Decidable (rule s e)]

/-- The history and the state a list of actions leads to, if each can be taken and
keeps the rule. -/
def trace (f : σ → α → Option (σ × ε)) (rule : σ → ε → Prop) [∀ s e, Decidable (rule s e)] :
    List α → List ε → σ → Option (List ε × σ)
  | [], h, s => some (h, s)
  | a :: as, h, s =>
    match f s a with
    | some (s', e) => if rule s e then trace f rule as (e :: h) s' else none
    | none => none

theorem Run.of_trace (hf : ∀ s a s' e, f s a = some (s', e) → step s e s') {as : List α}
    (hr : Run (Guarded step rule) s₀ h s) (ht : trace f rule as h s = some (h', t)) :
    Run (Guarded step rule) s₀ h' t := by
  induction as generalizing h s with
  | nil =>
    cases ht
    exact hr
  | cons a as ih =>
    unfold trace at ht
    split at ht
    · rename_i s' e hs
      split at ht
      · rename_i hrule
        exact ih (hr.snoc ⟨hf _ _ _ _ hs, hrule⟩) ht
      · cases ht
    · cases ht

variable {P : List ε → σ → Prop} [∀ h s, Decidable (P h s)]

/-- A property of the end of a computed run holds at the end of a run. -/
theorem Run.exists_of_trace (hf : ∀ s a s' e, f s a = some (s', e) → step s e s') (as : List α)
    (ht : (trace f rule as [] s₀).any (fun r => P r.1 r.2) = true) :
    ∃ h s, Run (Guarded step rule) s₀ h s ∧ P h s := by
  obtain ⟨⟨h, s⟩, hs, hp⟩ := (Option.any_eq_true _ _).mp ht
  exact ⟨h, s, .of_trace hf .nil hs, of_decide_eq_true hp⟩

theorem Run.exists_of_steps (s₀ : σ) (hf : ∀ s a s' e, f s a = some (s', e) → step s e s')
    (as : List α) (ht : (trace f (fun _ _ => True) as [] s₀).any (fun r => P r.1 r.2) = true) :
    ∃ h s, Run step s₀ h s ∧ P h s := by
  obtain ⟨h, s, hr, hp⟩ := Run.exists_of_trace hf as ht
  exact ⟨h, s, hr.unguarded, hp⟩

end

theorem exists_of_any [DecidableEq ε] {o : Option (σ × ε)} {e : ε} {Q : σ → Prop} [DecidablePred Q]
    (h : o.any (fun r => r.2 = e ∧ Q r.1) = true) : ∃ s, o = some (s, e) ∧ Q s := by
  obtain ⟨⟨s, e'⟩, ho, hq⟩ := (Option.any_eq_true _ _).mp h
  obtain ⟨rfl, hs⟩ : e' = e ∧ Q s := of_decide_eq_true hq
  exact ⟨s, ho, hs⟩

/-! ### Steps that are labelled with the action too -/

section
variable {α : Type} {f : σ → α → Option (σ × ε)} {P : List (α × ε) → σ → Prop}
  [∀ h s, Decidable (P h s)]

def Named (f : σ → α → Option (σ × ε)) (s : σ) (l : α × ε) (s' : σ) : Prop :=
  f s l.1 = some (s', l.2)

def named (f : σ → α → Option (σ × ε)) (s : σ) (a : α) : Option (σ × α × ε) :=
  (f s a).map fun r => (r.1, (a, r.2))

theorem named_of_named (s : σ) (a : α) (s' : σ) (l : α × ε) (h : named f s a = some (s', l)) :
    Named f s l s' := by
  obtain ⟨⟨s₁, e⟩, hs, heq⟩ := Option.map_eq_some_iff.mp h
  cases heq
  exact hs

theorem Run.exists_of_named (rule : σ → α × ε → Prop) [∀ s l, Decidable (rule s l)] (as : List α)
    (h : (trace (named f) rule as [] s₀).any (fun r => P r.1 r.2) = true) :
    ∃ h s, Run (Guarded (Named f) rule) s₀ h s ∧ P h s :=
  Run.exists_of_trace named_of_named as h

theorem Run.exists_of_acts (as : List α)
    (h : (trace (named f) (fun _ _ => True) as [] s₀).any (fun r => P r.1 r.2) = true) :
    ∃ h s, Run (Named f) s₀ h s ∧ P h s :=
  Run.exists_of_steps s₀ named_of_named as h

end

end Lts
