import Mathlib

/-! Programs that pass a state along and may stop, and partial triples for them.

`Triple P p Q` says nothing of a program that stops: if `P` holds and `p` returns, `Q`
holds of what it returns and of the state it leaves. A program that gives back what it
took is one with the same assertion on both sides. -/
namespace Code

variable {σ ε α β : Type} {s s' : σ} {p : StateT σ (Except ε) α} {f : α → StateT σ (Except ε) β}
  {a : α}

/-- A program returns when its first half and then its second half does. -/
theorem bind_ok {b : β} :
    (p >>= f) s = .ok (b, s') ↔ ∃ a t, p s = .ok (a, t) ∧ f a t = .ok (b, s') := by
  show (p s >>= fun r => f r.1 r.2) = _ ↔ _
  cases hp : p s with
  | error e => simp [bind, Except.bind]
  | ok r =>
    obtain ⟨a, t⟩ := r
    constructor
    · intro h
      exact ⟨a, t, rfl, h⟩
    · intro ⟨a', t', heq, h⟩
      cases heq
      exact h

theorem pure_ok {b : α} : (pure a : StateT σ (Except ε) α) s = .ok (b, s') ↔ a = b ∧ s = s' := by
  show Except.ok (a, s) = _ ↔ _
  simp

/-- A program run `n` times. -/
def times (n : Nat) (p : StateT σ (Except ε) Unit) : StateT σ (Except ε) Unit :=
  match n with
  | 0 => pure ()
  | n + 1 => p >>= fun _ => times n p

def Triple (P : σ → Prop) (p : StateT σ (Except ε) α) (Q : α → σ → Prop) : Prop :=
  ∀ s a s', P s → p s = .ok (a, s') → Q a s'

namespace Triple

variable {P P' : σ → Prop} {Q : α → σ → Prop} {R : β → σ → Prop}

theorem ret (h : ∀ s, P s → Q a s) : Triple P (pure a : StateT σ (Except ε) α) Q := by
  intro s b s' hs heq
  obtain ⟨rfl, rfl⟩ := pure_ok.mp heq
  exact h s hs

theorem stop {e : ε} : Triple P (throw e : StateT σ (Except ε) α) Q := by
  intro s b s' _ heq
  cases heq

theorem bind (hp : Triple P p Q) (hf : ∀ a, Triple (Q a) (f a) R) : Triple P (p >>= f) R := by
  intro s b s' hs heq
  obtain ⟨a, t, hpt, hft⟩ := bind_ok.mp heq
  exact hf a t b s' (hp s a t hs hpt) hft

/-- The assertion between the two halves does not depend on what the first returns. -/
theorem seq (hp : Triple P p fun _ => P') (hf : ∀ a, Triple P' (f a) R) : Triple P (p >>= f) R :=
  hp.bind hf

/-- A fact of the assertion that does not depend on the state. -/
theorem pull {φ : Prop} (h : φ → Triple P p Q) :
    Triple (fun s => φ ∧ P s) p Q :=
  fun s a s' hs heq => h hs.1 s a s' hs.2 heq

theorem times {p : StateT σ (Except ε) Unit} (hp : Triple P p fun _ => P) (n : Nat) :
    Triple P (times n p) fun _ => P := by
  induction n with
  | zero => exact ret fun _ hs => hs
  | succ n ih => exact hp.seq fun _ => ih

end Triple

end Code
