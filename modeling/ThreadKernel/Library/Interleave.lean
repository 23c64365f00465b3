import ThreadKernel.Library.Run

/-! Programs that threads run interleaved.

A program returns, or it halts the machine, or it asks for an atomic operation and goes on
with the answer, which it may have to wait for. The threads of a pool share a state; one
that has returned may make another call. Nothing is said of who is next.

The rules are those of an invariant with a ghost for each thread, for what the thread knows
and what it owes. `Safe t p g Q` says that the operations of `p`, run by `t` with ghost `g`,
keep the invariant whatever the others do in between, and that the ghost meets `Q` when
`p` returns: the ghosts of the others are as they are, and only `t` changes its own. -/
namespace Interleave

open Lts Function

inductive Prog (Op : Type) (Ans : Op → Type) (E α : Type) : Type where
  | ret (a : α)
  | halt (e : E)
  | op (o : Op) (k : Ans o → Prog Op Ans E α)

variable {Op : Type} {Ans : Op → Type} {E α β : Type}

namespace Prog

def bind : Prog Op Ans E α → (α → Prog Op Ans E β) → Prog Op Ans E β
  | .ret a, f => f a
  | .halt e, _ => .halt e
  | .op o k, f => .op o fun x => (k x).bind f

instance : Monad (Prog Op Ans E) where
  pure := .ret
  bind := .bind

def perform (o : Op) : Prog Op Ans E (Ans o) := .op o .ret

/-- The operation that the program asks for. -/
def next : Prog Op Ans E α → Option Op
  | .ret _ | .halt _ => none
  | .op o _ => some o

def isRet : Prog Op Ans E α → Bool
  | .ret _ => true
  | .halt _ | .op _ _ => false

end Prog

variable {σ T C G : Type}

/-- What the operations do, who may make a call, and what the calls are. An operation that
cannot be done now is waited for. -/
structure System (Op : Type) (Ans : Op → Type) (E σ T C : Type) where
  exec : T → (o : Op) → σ → Option (Ans o × σ)
  halt : E → σ → Option σ
  ready : σ → T → Bool
  code : C → Prog Op Ans E Unit

structure Pool (Op : Type) (Ans : Op → Type) (E σ T : Type) where
  shared : σ
  prog : T → Prog Op Ans E Unit

def Pool.start (s : σ) : Pool Op Ans E σ T := ⟨s, fun _ => .ret ()⟩

def Pool.Idle (s : Pool Op Ans E σ T) (t : T) : Prop := (s.prog t).isRet = true

instance (s : Pool Op Ans E σ T) (t : T) : Decidable (s.Idle t) :=
  inferInstanceAs (Decidable (_ = true))

inductive Move (T C : Type) where
  | call (t : T) (c : C)
  | go (t : T)
  deriving DecidableEq, Repr

/-- A rule on operations and on calls. -/
structure Rule (Op σ T C : Type) where
  op : σ → T → Op → Prop
  call : σ → T → C → Prop

def Rule.Keeps (R : Rule Op σ T C) (s : Pool Op Ans E σ T) : Move T C → Prop
  | .call t c => R.call s.shared t c
  | .go t => ∀ o ∈ (s.prog t).next, R.op s.shared t o

instance (R : Rule Op σ T C) [∀ s t o, Decidable (R.op s t o)] [∀ s t c, Decidable (R.call s t c)]
    (s : Pool Op Ans E σ T) (m : Move T C) : Decidable (R.Keeps s m) :=
  match m with
  | .call t c => inferInstanceAs (Decidable (R.call s.shared t c))
  | .go t => inferInstanceAs (Decidable (∀ o ∈ (s.prog t).next, R.op s.shared t o))

section
variable [DecidableEq T] (S : System Op Ans E σ T C) {s : Pool Op Ans E σ T}

/-- The next operation of `t` is done. -/
def System.go (t : T) (s : Pool Op Ans E σ T) : Prog Op Ans E Unit → Option (Pool Op Ans E σ T)
  | .ret _ => none
  | .halt e => (S.halt e s.shared).map fun σ' => ⟨σ', s.prog⟩
  | .op o k => (S.exec t o s.shared).map fun r => ⟨r.2, update s.prog t (k r.1)⟩

def System.step (s : Pool Op Ans E σ T) : Move T C → Option (Pool Op Ans E σ T)
  | .call t c =>
    if (s.prog t).isRet ∧ S.ready s.shared t then
      some ⟨s.shared, update s.prog t (S.code c)⟩
    else none
  | .go t => S.go t s (s.prog t)

def System.Step (s : Pool Op Ans E σ T) (m : Move T C) (s' : Pool Op Ans E σ T) : Prop :=
  S.step s m = some s'

/-- A step is a call by a thread that is in none, the next operation of a thread, or the
end. -/
theorem System.step_cases {s' : Pool Op Ans E σ T} {m : Move T C} (h : S.Step s m s') :
    (∃ t c, m = .call t c ∧ s.Idle t ∧ S.ready s.shared t ∧
      s' = ⟨s.shared, update s.prog t (S.code c)⟩) ∨
    (∃ t o k x σ', m = .go t ∧ s.prog t = .op o k ∧ S.exec t o s.shared = some (x, σ') ∧
      s' = ⟨σ', update s.prog t (k x)⟩) ∨
    ∃ t e σ', m = .go t ∧ s.prog t = .halt e ∧ S.halt e s.shared = some σ' ∧ s' = ⟨σ', s.prog⟩ := by
  cases m with
  | call t c =>
    simp only [Step, step] at h
    split at h
    · rename_i hidle
      cases h
      exact .inl ⟨t, c, rfl, hidle.1, hidle.2, rfl⟩
    · cases h
  | go t =>
    simp only [Step, step] at h
    cases hprog : s.prog t with
    | ret a =>
      rw [hprog] at h
      cases h
    | halt e =>
      rw [hprog] at h
      obtain ⟨σ', hhalt, heq⟩ := Option.map_eq_some_iff.mp h
      exact .inr (.inr ⟨t, e, σ', rfl, hprog, hhalt, heq.symm⟩)
    | op o k =>
      rw [hprog] at h
      obtain ⟨⟨x, σ'⟩, hexec, heq⟩ := Option.map_eq_some_iff.mp h
      exact .inr (.inl ⟨t, o, k, x, σ', rfl, hprog, hexec, heq.symm⟩)

/-! ### The rules -/

/-- The invariant, and what is to hold of every operation when it is asked for. -/
structure Outline (Op σ T G : Type) where
  inv : (T → G) → σ → Prop
  asserts : σ → T → Op → Prop

variable (R : Rule Op σ T C) (O : Outline Op σ T G)

def Safe (t : T) : Prog Op Ans E α → G → (α → G → Prop) → Prop
  | .ret a, g, Q => Q a g
  | .halt e, g, _ => ∀ γ s s', γ t = g → O.inv γ s → S.halt e s = some s' → O.inv γ s'
  | .op o k, g, Q => ∀ γ s, γ t = g → O.inv γ s → R.op s t o → O.asserts s t o ∧
      ∀ x s', S.exec t o s = some (x, s') →
        ∃ g', O.inv (update γ t g') s' ∧ Safe t (k x) g' Q

variable {S R O} {t : T} {g : G} {p : Prog Op Ans E α} {Q : β → G → Prop} {idle : G}
  {f : α → Prog Op Ans E β} {o : Op} {σ₀ : σ} {h : List (Move T C)} {P : Pool Op Ans E σ T → Prop}

theorem Safe.mono {Q Q' : α → G → Prop} (hp : Safe S R O t p g Q)
    (hQ : ∀ a g, Q a g → Q' a g) : Safe S R O t p g Q' := by
  induction p generalizing g with
  | ret a => exact hQ a g hp
  | halt e => exact hp
  | op o k ih =>
    intro γ s hg hI hrule
    refine ⟨(hp γ s hg hI hrule).1, fun x s' hexec => ?_⟩
    obtain ⟨g', hI', hk⟩ := (hp γ s hg hI hrule).2 x s' hexec
    exact ⟨g', hI', ih x hk⟩

theorem Safe.bind
    (hp : Safe S R O t p g fun a g' => Safe S R O t (f a) g' Q) : Safe S R O t (p >>= f) g Q := by
  induction p generalizing g with
  | ret a => exact hp
  | halt e => exact hp
  | op o k ih =>
    intro γ s hg hI hrule
    refine ⟨(hp γ s hg hI hrule).1, fun x s' hexec => ?_⟩
    obtain ⟨g', hI', hk⟩ := (hp γ s hg hI hrule).2 x s' hexec
    exact ⟨g', hI', ih x hk⟩

theorem Safe.seq {P : α → G → Prop} (hp : Safe S R O t p g P)
    (hf : ∀ a g', P a g' → Safe S R O t (f a) g' Q) : Safe S R O t (p >>= f) g Q :=
  (hp.mono hf).bind

/-- The first half leaves one ghost. -/
theorem Safe.next {p : Prog Op Ans E Unit} {f : Unit → Prog Op Ans E β} {g₁ : G}
    (hp : Safe S R O t p g fun _ g' => g' = g₁) (hf : Safe S R O t (f ()) g₁ Q) :
    Safe S R O t (p >>= f) g Q :=
  hp.seq fun _ _ heq => heq ▸ hf

theorem Safe.ret {a : α} {Q : α → G → Prop} (h : Q a g) :
    Safe S R O t (pure a : Prog Op Ans E α) g Q := h

theorem Safe.perform {Q : Ans o → G → Prop}
    (hassert : ∀ γ s, γ t = g → O.inv γ s → R.op s t o → O.asserts s t o)
    (hstep : ∀ γ s, γ t = g → O.inv γ s → R.op s t o → ∀ x s', S.exec t o s = some (x, s') →
      ∃ g', O.inv (update γ t g') s' ∧ Q x g') :
    Safe S R O t (.perform o) g Q :=
  fun γ s hg hI hrule => ⟨hassert γ s hg hI hrule, hstep γ s hg hI hrule⟩

/-- A thread that is in no call has the ghost it started with. -/
theorem Safe.idle_eq
    (h : Safe S R O t (s.prog t) g fun _ g => g = idle) (hidle : s.Idle t) : g = idle := by
  cases hprog : s.prog t with
  | ret a =>
    rw [hprog] at h
    exact h
  | halt | op =>
    rw [Pool.Idle, hprog] at hidle
    cases hidle

section
variable (hinit : O.inv (fun _ => idle) σ₀)
  (hcode : ∀ s t c, R.call s t c → Safe S R O t (S.code c) idle fun _ g => g = idle)
  (hr : Run (Guarded S.Step R.Keeps) (.start σ₀) h s)
include hinit hcode hr

/-- When all calls are safe, the invariant holds along every run that keeps the rule. -/
theorem System.run_safe :
    ∃ γ, O.inv γ s.shared ∧ ∀ t, Safe S R O t (s.prog t) (γ t) fun _ g => g = idle := by
  have hstart : ∃ γ, O.inv γ (Pool.start σ₀ : Pool Op Ans E σ T).shared ∧
      ∀ t, Safe S R O t ((Pool.start σ₀ : Pool Op Ans E σ T).prog t) (γ t) fun _ g => g = idle :=
    ⟨fun _ => idle, hinit, fun _ => rfl⟩
  refine hr.invariant (fun _ s => ∃ γ, O.inv γ s.shared ∧
    ∀ t, Safe S R O t (s.prog t) (γ t) fun _ g => g = idle) hstart ?_
  intro h s m s' _ ⟨γ, hI, hsafe⟩ ⟨hstep, hrule⟩
  rcases S.step_cases hstep with ⟨t, c, rfl, hidle, -, rfl⟩ |
    ⟨t, o, k, x, σ', rfl, hprog, hexec, rfl⟩ | ⟨t, e, σ', rfl, hprog, hhalt, rfl⟩
  · refine ⟨γ, hI, fun q => ?_⟩
    by_cases hq : q = t
    · subst hq
      simp only [update_self, (hsafe q).idle_eq hidle]
      exact hcode _ q c hrule
    · simp only [update_of_ne hq]
      exact hsafe q
  · have ht := hsafe t
    rw [hprog] at ht
    obtain ⟨g', hI', hk⟩ := (ht γ s.shared rfl hI (hrule o (by rw [hprog]; rfl))).2 x σ' hexec
    refine ⟨update γ t g', hI', fun q => ?_⟩
    by_cases hq : q = t
    · subst hq
      simp only [update_self]
      exact hk
    · simp only [update_of_ne hq]
      exact hsafe q
  · have ht := hsafe t
    rw [hprog] at ht
    exact ⟨γ, ht γ s.shared σ' rfl hI hhalt, hsafe⟩

theorem System.run_asserts (hnext : (s.prog t).next = some o)
    (hrule : R.op s.shared t o) : O.asserts s.shared t o := by
  obtain ⟨γ, hI, hsafe⟩ := System.run_safe hinit hcode hr
  have ht := hsafe t
  cases hprog : s.prog t with
  | ret | halt =>
    rw [hprog] at hnext
    cases hnext
  | op o' k =>
    rw [hprog] at hnext ht
    cases hnext
    exact (ht γ s.shared rfl hI hrule).1

end

/-- Thread `t` calls `c`, and goes on for `n` operations. -/
def Move.calls (t : T) (c : C) (n : Nat) : List (Move T C) := .call t c :: List.replicate n (.go t)

theorem System.step_of_move (S : System Op Ans E σ T C) (s : Pool Op Ans E σ T) (m : Move T C)
    (s' : Pool Op Ans E σ T) (e : Move T C) (h : (S.step s m).map (·, m) = some (s', e)) :
    S.Step s e s' := by
  obtain ⟨s₁, hstep, heq⟩ := Option.map_eq_some_iff.mp h
  cases heq
  exact hstep

theorem System.exists_of_moves (S : System Op Ans E σ T C) (R : Rule Op σ T C)
    [∀ (s : Pool Op Ans E σ T) m, Decidable (R.Keeps s m)] (σ₀ : σ) (ms : List (Move T C))
    [DecidablePred P]
    (h : (trace (fun s m => (S.step s m).map (·, m)) R.Keeps ms [] (.start σ₀)).any (fun r => P r.2) = true) :
    ∃ h s, Run (Guarded S.Step R.Keeps) (.start σ₀) h s ∧ P s :=
  Run.exists_of_trace S.step_of_move ms h

theorem System.reaches_of_moves (S : System Op Ans E σ T C) (σ₀ : σ) (ms : List (Move T C))
    [DecidablePred P]
    (h : (trace (fun s m => (S.step s m).map (·, m)) (fun _ _ => True) ms [] (.start σ₀)).any
      (fun r => P r.2) = true) :
    ∃ h s, Run S.Step (.start σ₀) h s ∧ P s :=
  Run.exists_of_steps _ S.step_of_move ms h

end

end Interleave
