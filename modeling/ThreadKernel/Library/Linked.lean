import Mathlib

/-! Lists linked by a pointer in each node. -/
namespace Linked

open Function

variable {B : Type}

/-- The nodes from `p` up to a null pointer are `l`. -/
def Spans (next : B → Option B) : Option B → List B → Prop
  | p, [] => p = none
  | p, b :: l => p = some b ∧ Spans next (next b) l

/-- The walk from `b` to the node with a null pointer, in so many steps. -/
def last (next : B → Option B) : Nat → B → Option B
  | 0, _ => none
  | n + 1, b =>
    match next b with
    | none => some b
    | some c => last next n c

variable {next next' : B → Option B} {head : Option B} {a b : B} {l : List B} {n : Nat}

theorem Spans.head_eq (h : Spans next head l) : head = l.head? := by
  cases l with
  | nil => exact h
  | cons b l => exact h.1

theorem Spans.congr (h : Spans next head l) (heq : ∀ b ∈ l, next' b = next b) :
    Spans next' head l := by
  induction l generalizing head with
  | nil => exact h
  | cons b l ih =>
    refine ⟨h.1, ?_⟩
    rw [heq b List.mem_cons_self]
    exact ih h.2 fun c hc => heq c (List.mem_cons_of_mem b hc)

theorem Spans.last_eq (h : Spans next (some a) l) (hn : l.length ≤ n) :
    ∃ l' c, l = l' ++ [c] ∧ last next n a = some c := by
  induction l generalizing a n with
  | nil => cases h
  | cons b l ih =>
    obtain ⟨hhead, htail⟩ := h
    cases hhead
    obtain _ | n := n
    · cases hn
    cases hnext : next b with
    | none =>
      cases l with
      | nil => exact ⟨[], b, rfl, by simp [last, hnext]⟩
      | cons c l =>
        rw [hnext] at htail
        cases htail.1
    | some c =>
      rw [hnext] at htail
      obtain ⟨l', d, rfl, hlast⟩ := ih htail (Nat.le_of_succ_le_succ hn)
      exact ⟨b :: l', d, rfl, by simp [last, hnext, hlast]⟩

section
variable [DecidableEq B]

/-- `b` after the last node: its pointer is cleared first. -/
def append (next : B → Option B) (head : Option B) (n : Nat) (b : B) :
    Option ((B → Option B) × Option B) :=
  let next := update next b none
  match head with
  | none => some (next, some b)
  | some a => (last next n a).map fun c => (update next c (some b), head)

theorem Spans.snoc {c : B} (h : Spans next head (l ++ [c])) (hnd : (l ++ [c]).Nodup)
    (hb : b ∉ l ++ [c]) (hnull : next b = none) :
    Spans (update next c (some b)) head (l ++ [c] ++ [b]) := by
  induction l generalizing head with
  | nil =>
    have hne : b ≠ c := fun heq => hb (heq ▸ List.mem_cons_self)
    refine ⟨h.1, ?_, ?_⟩
    · rw [update_self]
    · rw [update_of_ne hne]
      exact hnull
  | cons d l ih =>
    obtain ⟨hd, hnd'⟩ := List.nodup_cons.mp hnd
    have hne : d ≠ c := fun heq => hd (heq ▸ List.mem_append_right l List.mem_cons_self)
    refine ⟨h.1, ?_⟩
    rw [update_of_ne hne]
    exact ih h.2 hnd' fun hmem => hb (List.mem_cons_of_mem d hmem)

theorem Spans.append (h : Spans next head l) (hnd : l.Nodup) (hb : b ∉ l) (hn : l.length ≤ n) :
    ∃ next' head', append next head n b = some (next', head') ∧ Spans next' head' (l ++ [b]) := by
  have hcut : Spans (update next b none) head l := h.congr fun c hc => by
    have hne : c ≠ b := fun heq => hb (heq ▸ hc)
    exact update_of_ne hne _ _
  cases hhead : head with
  | none =>
    have hnil : l = [] := by
      cases l with
      | nil => rfl
      | cons c l =>
        rw [hhead] at h
        cases h.1
    subst hnil
    refine ⟨_, _, rfl, rfl, ?_⟩
    exact update_self b none next
  | some a =>
    rw [hhead] at hcut
    obtain ⟨l', c, rfl, hlast⟩ := hcut.last_eq hn
    have happend : Linked.append next (some a) n b =
        some (update (update next b none) c (some b), some a) := by
      simp only [Linked.append, hlast, Option.map_some]
    exact ⟨_, _, happend, hcut.snoc hnd hb (update_self b none next)⟩

end

end Linked
