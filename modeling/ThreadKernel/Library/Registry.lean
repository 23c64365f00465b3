import Mathlib

/-! A registry of the members of a group.

A registry has a table of entries, a flag for each entry and a count. What it ought to
say is given by the members themselves: each has an index, is active or only waiting to
be collected, and may be the leader. `Consistent` is the agreement of the two, and the
lemmas say which operation of the registry goes with which change of the group. -/
namespace Registry

open Function

variable {P I : Type}

structure Reg (P I : Type) where
  count : Int
  threads : I → Option P
  isThere : I → Bool

namespace Reg

def blank : Reg P I := ⟨0, fun _ => none, fun _ => false⟩

/-- The first index whose flag is clear. -/
def free {n : Nat} (r : Reg P (Fin n)) : Option (Fin n) :=
  Fin.find? fun i => r.isThere i = false

variable [DecidableEq I]

/-- `p` registered at `i`. -/
def add (r : Reg P I) (i : I) (p : P) : Reg P I :=
  ⟨r.count + 1, update r.threads i (some p), update r.isThere i true⟩

/-- The flag of `i` is cleared; the entry stays. -/
def clear (r : Reg P I) (i : I) : Reg P I :=
  {r with isThere := update r.isThere i false}

end Reg

/-- What the group knows of a member. -/
structure View (I : Type) where
  live : Bool
  order : I
  master : Bool

/-- A group: what it knows of each that is in it. -/
abbrev Group (P I : Type) := P → Option (View I)

namespace Group

/-- `q` is an active member, seen as `x`. -/
def Active (g : Group P I) (q : P) (x : View I) : Prop := g q = some x ∧ x.live = true

/-- Exactly one active member is the leader. -/
def OneMaster (g : Group P I) : Prop := ∃! q, ∃ x, g.Active q x ∧ x.master = true

end Group

/-- The flags, the entries and the count say what the group is. -/
structure Consistent [Fintype P] (r : Reg P I) (g : Group P I) : Prop where
  registered : ∀ {q x}, g.Active q x → r.isThere x.order = true ∧ r.threads x.order = some q
  there : ∀ {i}, r.isThere i = true → ∃ q x, r.threads i = some q ∧ g.Active q x ∧ x.order = i
  count : r.count = (Finset.univ.filter fun q => (g q).isSome = true).card

namespace Consistent

variable [Fintype P] {r : Reg P I} {g : Group P I}

theorem order_injective (h : Consistent r g) {q q' : P} {x x' : View I} (hq : g.Active q x)
    (hq' : g.Active q' x') (ho : x.order = x'.order) : q = q' := by
  have hthreads := (h.registered hq).2
  rw [ho, (h.registered hq').2] at hthreads
  exact (Option.some.inj hthreads).symm

/-- Whether a member is the leader makes no difference. -/
theorem relabel {g' : Group P I} (h : Consistent r g)
    (hsame : ∀ q, (g' q).map (fun x => (x.live, x.order)) = (g q).map fun x => (x.live, x.order)) :
    Consistent r g' := by
  have hactive : ∀ {g₁ g₂ : Group P I}, (∀ q, (g₁ q).map (fun x => (x.live, x.order)) =
      (g₂ q).map fun x => (x.live, x.order)) → ∀ {q x}, g₁.Active q x →
      ∃ y, g₂.Active q y ∧ y.order = x.order := by
    intro g₁ g₂ hs q x ⟨hx, hlive⟩
    have := hs q
    rw [hx, Option.map_some] at this
    obtain ⟨y, hy, hxy⟩ := Option.map_eq_some_iff.mp this.symm
    obtain ⟨hl, ho⟩ := Prod.mk.inj hxy
    exact ⟨y, ⟨hy, hl.trans hlive⟩, ho⟩
  refine ⟨fun {q x} hq => ?_, fun {i} hi => ?_, ?_⟩
  · obtain ⟨y, hy, ho⟩ := hactive hsame hq
    rw [← ho]
    exact h.registered hy
  · obtain ⟨q, x, ht, hq, ho⟩ := h.there hi
    obtain ⟨y, hy, ho'⟩ := hactive (fun q => (hsame q).symm) hq
    exact ⟨q, y, ht, hy, ho'.trans ho⟩
  · rw [h.count]
    congr 2
    ext q
    have := congrArg Option.isSome (hsame q)
    simp only [Option.isSome_map] at this
    simp [this]

variable [DecidableEq P] {p : P}

/-- A member that has stopped is collected. -/
theorem collect (h : Consistent r g) {x : View I} (hp : g p = some x) (hx : x.live = false) :
    Consistent {r with count := r.count - 1} (update g p none) := by
  have hactive : ∀ {q y}, Group.Active (update g p none) q y ↔ g.Active q y := by
    intro q y
    by_cases hqp : q = p
    · subst hqp
      simp only [Group.Active, update_self, hp]
      constructor
      · rintro ⟨h, -⟩
        cases h
      · rintro ⟨hy, hlive⟩
        rw [← Option.some.inj hy, hx] at hlive
        cases hlive
    · simp only [Group.Active, update_of_ne hqp]
  refine ⟨fun hq => h.registered (hactive.mp hq), fun hj => ?_, ?_⟩
  · obtain ⟨q, y, ht, hq, ho⟩ := h.there hj
    exact ⟨q, y, ht, hactive.mpr hq, ho⟩
  · have hset : (Finset.univ.filter fun q => (g q).isSome = true) =
        insert p (Finset.univ.filter fun q => (update g p none q).isSome = true) := by
      ext q
      by_cases hqp : q = p
      · simp [hqp, hp]
      · simp [hqp]
    have hcount := h.count
    rw [hset, Finset.card_insert_of_notMem (by simp)] at hcount
    push_cast
    omega

variable [DecidableEq I]

theorem single (threads : I → Option P) (i : I) (p : P) (x : View I) (hx : x.live = true)
    (hi : x.order = i) (hp : g p = some x) (hothers : ∀ q, q ≠ p → g q = none) :
    Consistent ⟨1, update threads i (some p), fun j => j = i⟩ g := by
  have honly : ∀ {q y}, g.Active q y → q = p ∧ y = x := by
    intro q y hq
    by_cases hqp : q = p
    · rw [hqp, Group.Active, hp] at hq
      exact ⟨hqp, (Option.some.inj hq.1).symm⟩
    · rw [Group.Active, hothers q hqp] at hq
      cases hq.1
  refine ⟨fun {q y} hq => ?_, fun {j} hj => ?_, ?_⟩
  · obtain ⟨rfl, rfl⟩ := honly hq
    rw [hi]
    simp
  · obtain rfl : j = i := by simpa using hj
    exact ⟨p, x, by simp, ⟨hp, hx⟩, hi⟩
  · have : (Finset.univ.filter fun q => (g q).isSome = true) = {p} := by
      ext q
      by_cases hqp : q = p
      · simp [hqp, hp]
      · simp [hqp, hothers q hqp]
    rw [this]
    rfl

theorem add (h : Consistent r g) {i : I} (hi : r.isThere i = false) (hp : g p = none) :
    Consistent (r.add i p) (update g p (some ⟨true, i, false⟩)) := by
  have hold : ∀ {q x}, g.Active q x → q ≠ p ∧ x.order ≠ i := by
    intro q x hq
    constructor
    · rintro rfl
      rw [Group.Active, hp] at hq
      cases hq.1
    · rintro rfl
      rw [(h.registered hq).1] at hi
      cases hi
  have hactive : ∀ {q x}, q ≠ p → (Group.Active (update g p (some ⟨true, i, false⟩)) q x ↔
      g.Active q x) := by
    intro q x hqp
    rw [Group.Active, Group.Active, update_of_ne hqp]
  refine ⟨fun {q x} hq => ?_, fun {j} hj => ?_, ?_⟩
  · by_cases hqp : q = p
    · subst hqp
      rw [Group.Active, update_self] at hq
      obtain rfl := Option.some.inj hq.1
      simp [Reg.add]
    · have hq' := (hactive hqp).mp hq
      have hne := (hold hq').2
      simp only [Reg.add, update_of_ne hne]
      exact h.registered hq'
  · by_cases hji : j = i
    · exact ⟨p, ⟨true, i, false⟩, by simp [Reg.add, hji], ⟨by simp, rfl⟩, hji.symm⟩
    · simp only [Reg.add, update_of_ne hji] at hj ⊢
      obtain ⟨q, x, ht, hq, ho⟩ := h.there hj
      exact ⟨q, x, ht, (hactive (hold hq).1).mpr hq, ho⟩
  · have hset : (Finset.univ.filter fun q =>
        (update g p (some ⟨true, i, false⟩) q).isSome = true) =
        insert p (Finset.univ.filter fun q => (g q).isSome = true) := by
      ext q
      by_cases hqp : q = p
      · simp [hqp]
      · simp [hqp]
    rw [hset, Finset.card_insert_of_notMem (by simp [hp]), Reg.add, h.count]
    simp

/-- An active member stops; it stays in the group until it is collected. -/
theorem leave (h : Consistent r g) {x : View I} (hp : g.Active p x) :
    Consistent (r.clear x.order) (update g p (some {x with live := false})) := by
  have hactive : ∀ {q y}, Group.Active (update g p (some {x with live := false})) q y ↔
      q ≠ p ∧ g.Active q y := by
    intro q y
    by_cases hqp : q = p
    · subst hqp
      simp only [Group.Active, update_self, ne_eq, not_true_eq_false, false_and, iff_false]
      rintro ⟨hy, hlive⟩
      obtain rfl := Option.some.inj hy
      cases hlive
    · simp only [Group.Active, update_of_ne hqp, ne_eq, hqp, not_false_eq_true, true_and]
  refine ⟨fun {q y} hq => ?_, fun {j} hj => ?_, ?_⟩
  · obtain ⟨hne, hq'⟩ := hactive.mp hq
    have ho : y.order ≠ x.order := fun ho => hne (h.order_injective hq' hp ho)
    simp only [Reg.clear, update_of_ne ho]
    exact h.registered hq'
  · by_cases hjx : j = x.order
    · simp [Reg.clear, hjx] at hj
    · simp only [Reg.clear, update_of_ne hjx] at hj
      obtain ⟨q, y, ht, hq, ho⟩ := h.there hj
      refine ⟨q, y, ht, hactive.mpr ⟨?_, hq⟩, ho⟩
      rintro rfl
      have : y = x := Option.some.inj (hq.1.symm.trans hp.1)
      exact hjx (by rw [← ho, this])
  · rw [Reg.clear, h.count]
    congr 2
    ext q
    by_cases hqp : q = p
    · subst hqp
      simp [hp.1]
    · simp [hqp]

end Consistent

/-! ### The leader -/

namespace Group

variable {g : Group P I} {p : P}

theorem OneMaster.congr {g' : Group P I} (h : g.OneMaster)
    (hsame : ∀ q, (∃ x, g'.Active q x ∧ x.master = true) ↔ ∃ x, g.Active q x ∧ x.master = true) :
    g'.OneMaster := by
  obtain ⟨q, hq, hunique⟩ := h
  exact ⟨q, (hsame q).mpr hq, fun q' hq' => hunique q' ((hsame q').mp hq')⟩

/-- A change to one that is not an active leader, before or after. -/
theorem OneMaster.update [DecidableEq P] (h : g.OneMaster)
    (hp : ∀ x, g.Active p x → x.master = false) (y : Option (View I))
    (hy : ∀ x, y = some x → x.live = true → x.master = false) :
    OneMaster (update g p y) := by
  refine h.congr fun q => ?_
  by_cases hq : q = p
  · subst hq
    constructor
    · rintro ⟨x, ⟨hx, hlive⟩, hm⟩
      rw [update_self] at hx
      rw [hy x hx hlive] at hm
      cases hm
    · rintro ⟨x, hx, hm⟩
      rw [hp x hx] at hm
      cases hm
  · simp only [Active, update_of_ne hq]

/-- The only active member is the leader. -/
theorem OneMaster.of_alone {x : View I} (hp : g.Active p x) (hm : x.master = true)
    (halone : ∀ q y, g.Active q y → q = p) : g.OneMaster :=
  ⟨p, ⟨x, hp, hm⟩, fun q ⟨y, hq, _⟩ => halone q y hq⟩

end Group

end Registry
