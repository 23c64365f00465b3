import Mathlib

/-! Doubly linked rings with a head.

A node is the head (`none`) or an element. `Path x l y` says that the links lead from `x`
through `l` to `y` and back, so that a ring of the elements `l` is a path from the head to
the head. Both ways of going round it see the elements of `l`, and taking an element out or
putting one in front changes `l` as it should. -/
namespace Ring

open Function

variable {β : Type}

structure Links (β : Type) where
  next : Option β → Option β
  prev : Option β → Option β

namespace Links

def empty : Links β := ⟨fun _ => none, fun _ => none⟩

def flip (r : Links β) : Links β := ⟨r.prev, r.next⟩

/-- The first element with `P` from node `x` on, following `link`, within `fuel` nodes. -/
def find (link : Option β → Option β) (P : β → Bool) : Nat → Option β → Option β
  | 0, _ => none
  | _ + 1, none => none
  | fuel + 1, some b => if P b then some b else find link P fuel (link (some b))

section
variable [DecidableEq β]

/-- `b->next->prev = b->prev; b->prev->next = b->next`. -/
def unlink (r : Links β) (b : β) : Links β :=
  let prev := update r.prev (r.next (some b)) (r.prev (some b))
  ⟨update r.next (prev (some b)) (r.next (some b)), prev⟩

/-- `b->next = head.next; b->prev = &head; head.next->prev = b; head.next = b`. -/
def pushFront (r : Links β) (b : β) : Links β :=
  let next := update r.next (some b) (r.next none)
  let prev := update r.prev (some b) none
  ⟨update next none (some b), update prev (next none) (some b)⟩

end

def Path (r : Links β) : Option β → List β → Option β → Prop
  | x, [], y => r.next x = y ∧ r.prev y = x
  | x, b :: l, y => r.next x = some b ∧ r.prev (some b) = x ∧ Path r (some b) l y

/-- The ring of the elements `l`. -/
def Rings (r : Links β) (l : List β) : Prop := l.Nodup ∧ r.Path none l none

theorem rings_empty : (empty : Links β).Rings [] := ⟨List.nodup_nil, rfl, rfl⟩

variable {r r' : Links β} {x y : Option β} {l l' : List β} {b : β} {fuel : Nat}

/-! ### Going round -/

theorem path_append : r.Path x (l ++ b :: l') y ↔ r.Path x l (some b) ∧ r.Path (some b) l' y := by
  induction l generalizing x with
  | nil => exact and_assoc.symm
  | cons c l ih =>
    have hcons : ∀ l y, r.Path x (c :: l) y ↔ r.next x = some c ∧ r.prev (some c) = x ∧ r.Path (some c) l y :=
      fun _ _ => Iff.rfl
    rw [List.cons_append, hcons, hcons, ih]
    tauto

theorem Path.reverse (h : r.Path x l y) : r.flip.Path y l.reverse x := by
  induction l generalizing x with
  | nil => exact ⟨h.2, h.1⟩
  | cons c l ih =>
    rw [List.reverse_cons, path_append]
    exact ⟨ih h.2.2, h.2.1, h.1⟩

theorem Path.find (h : r.Path x l none) (P : β → Bool) (hfuel : l.length ≤ fuel) :
    find r.next P (fuel + 1) (r.next x) = l.find? P := by
  induction l generalizing x fuel with
  | nil =>
    rw [h.1]
    rfl
  | cons c l ih =>
    obtain ⟨n, rfl⟩ : ∃ n, fuel = n + 1 := ⟨fuel - 1, by rw [List.length_cons] at hfuel; omega⟩
    rw [h.1, List.find?_cons]
    unfold Links.find
    rw [ih h.2.2 (by rw [List.length_cons] at hfuel; omega)]
    cases P c <;> rfl

theorem Rings.find_next (h : r.Rings l) (P : β → Bool) (hfuel : l.length ≤ fuel) :
    Links.find r.next P (fuel + 1) (r.next none) = l.find? P :=
  h.2.find P hfuel

theorem Rings.find_prev (h : r.Rings l) (P : β → Bool) (hfuel : l.length ≤ fuel) :
    Links.find r.prev P (fuel + 1) (r.prev none) = l.reverse.find? P :=
  h.2.reverse.find P (by rwa [List.length_reverse])

/-! ### Changing it -/

theorem Path.congr (h : r.Path x l y) (hx : r'.next x = r.next x) (hy : r'.prev y = r.prev y)
    (hl : ∀ b ∈ l, r'.next (some b) = r.next (some b) ∧ r'.prev (some b) = r.prev (some b)) :
    r'.Path x l y := by
  induction l generalizing x with
  | nil => exact ⟨hx.trans h.1, hy.trans h.2⟩
  | cons c l ih =>
    obtain ⟨hnext, hprev⟩ := hl c (List.mem_cons_self ..)
    exact ⟨hx.trans h.1, hprev.trans h.2.1,
      ih h.2.2 hnext fun b hb => hl b (List.mem_cons_of_mem c hb)⟩

/-- The last node before the end. -/
def last (x : Option β) : List β → Option β
  | [] => x
  | b :: l => last (some b) l

theorem Path.prev_eq (h : r.Path x l y) : r.prev y = last x l := by
  induction l generalizing x with
  | nil => exact h.2
  | cons c l ih => exact ih h.2.2

theorem last_mem (x : Option β) (l : List β) : last x l = x ∨ ∃ b ∈ l, last x l = some b := by
  induction l generalizing x with
  | nil => exact .inl rfl
  | cons c l ih =>
    rcases ih (some c) with h | ⟨b, hb, h⟩
    · exact .inr ⟨c, List.mem_cons_self .., h⟩
    · exact .inr ⟨b, List.mem_cons_of_mem c hb, h⟩

section
variable [DecidableEq β]

theorem Path.retarget {z : Option β} (h : r.Path x l y) (hnodup : l.Nodup) (hx : ∀ b ∈ l, x ≠ some b)
    (hnext : ∀ w, r'.next w = if w = last x l then z else r.next w)
    (hprev : ∀ b ∈ l, r'.prev (some b) = r.prev (some b)) (hz : r'.prev z = last x l) :
    r'.Path x l z := by
  induction l generalizing x with
  | nil => exact ⟨(hnext x).trans (if_pos rfl), hz⟩
  | cons c l ih =>
    have hne : x ≠ last x (c :: l) := by
      rcases last_mem (some c) l with heq | ⟨b, hb, heq⟩
      · rw [last, heq]
        exact hx c (List.mem_cons_self ..)
      · rw [last, heq]
        exact hx b (List.mem_cons_of_mem c hb)
    obtain ⟨hc, hl⟩ := List.nodup_cons.mp hnodup
    refine ⟨by rw [hnext, if_neg hne, h.1], by rw [hprev c (List.mem_cons_self ..), h.2.1], ?_⟩
    apply ih h.2.2 hl _ hnext (fun b hb => hprev b (List.mem_cons_of_mem c hb)) hz
    rintro b hb heq
    cases heq
    exact hc hb

theorem Rings.unlink {l₁ l₂ : List β} (h : r.Rings (l₁ ++ b :: l₂)) :
    (r.unlink b).Rings (l₁ ++ l₂) := by
  obtain ⟨hnodup, hpath⟩ := h
  obtain ⟨hfront, hback⟩ := path_append.mp hpath
  obtain ⟨hnodup₁, hnodup₂, hdisj⟩ := List.nodup_append.mp hnodup
  have hb₂ := List.nodup_cons.mp hnodup₂
  refine ⟨List.nodup_append.mpr ⟨hnodup₁, hb₂.2, fun c hc d hd =>
    hdisj c hc d (List.mem_cons_of_mem b hd)⟩, ?_⟩
  have hprev : r.prev (some b) = last none l₁ := hfront.prev_eq
  have hself : r.next (some b) ≠ some b := by
    cases l₂ with
    | nil =>
      rw [hback.1]
      nofun
    | cons c l =>
      rw [hback.1]
      intro heq
      cases heq
      exact hb₂.1 (List.mem_cons_self ..)
  have hlinks : ∀ w, (r.unlink b).next w = if w = last none l₁ then r.next (some b) else r.next w := by
    intro w
    unfold Links.unlink
    dsimp only
    rw [update_of_ne hself.symm, hprev, update_apply]
  have hlinks' : ∀ w, (r.unlink b).prev w = if w = r.next (some b) then last none l₁ else r.prev w := by
    intro w
    unfold Links.unlink
    dsimp only
    rw [hprev, update_apply]
  cases l₂ with
  | nil =>
    have hnone : r.next (some b) = none := hback.1
    rw [List.append_nil]
    apply hfront.retarget hnodup₁ nofun
    · intro w
      rw [hlinks, hnone]
    · intro c _
      rw [hlinks', hnone, if_neg nofun]
    · rw [hlinks', hnone, if_pos rfl]
  | cons c l =>
    have hc : r.next (some b) = some c := hback.1
    have hcl := List.nodup_cons.mp hb₂.2
    have hlast : ∀ d ∈ c :: l, some d ≠ last none l₁ := by
      intro d hd heq
      rcases last_mem none l₁ with hl | ⟨e, he, hl⟩
      · rw [hl] at heq
        cases heq
      · rw [hl] at heq
        cases heq
        exact hdisj d he d (List.mem_cons_of_mem b hd) rfl
    rw [path_append]
    constructor
    · apply hfront.retarget hnodup₁ nofun
      · intro w
        rw [hlinks, hc]
      · intro d hd
        rw [hlinks', hc, if_neg]
        intro heq
        exact hdisj d hd c (List.mem_cons_of_mem b (List.mem_cons_self ..)) (Option.some.inj heq)
      · rw [hlinks', hc, if_pos rfl]
    · apply hback.2.2.congr
      · rw [hlinks, if_neg (hlast c (List.mem_cons_self ..))]
      · rw [hlinks', hc, if_neg nofun]
      · intro d hd
        refine ⟨by rw [hlinks, if_neg (hlast d (List.mem_cons_of_mem c hd))], ?_⟩
        rw [hlinks', hc, if_neg]
        intro heq
        cases heq
        exact hcl.1 hd

theorem Rings.pushFront (h : r.Rings l) (hb : b ∉ l) : (r.pushFront b).Rings (b :: l) := by
  obtain ⟨hnodup, hpath⟩ := h
  have hnext : ∀ w, (r.pushFront b).next w =
      if w = none then some b else if w = some b then r.next none else r.next w := by
    intro w
    unfold Links.pushFront
    dsimp only
    rw [update_apply, update_apply]
  have hprev : ∀ w, (r.pushFront b).prev w =
      if w = r.next none then some b else if w = some b then none else r.prev w := by
    intro w
    unfold Links.pushFront
    dsimp only
    rw [update_of_ne (nofun : none ≠ some b), update_apply, update_apply]
  have hfirst : some b ≠ r.next none := by
    cases l with
    | nil =>
      rw [hpath.1]
      nofun
    | cons c l =>
      rw [hpath.1]
      intro heq
      cases heq
      exact hb (List.mem_cons_self ..)
  refine ⟨List.nodup_cons.mpr ⟨hb, hnodup⟩, by rw [hnext, if_pos rfl],
    by rw [hprev, if_neg hfirst, if_pos rfl], ?_⟩
  cases l with
  | nil =>
    exact ⟨by rw [hnext, if_neg nofun, if_pos rfl, hpath.1], by rw [hprev, if_pos hpath.1.symm]⟩
  | cons c l =>
    have hcl := List.nodup_cons.mp hnodup
    have hne : ∀ d ∈ c :: l, some d ≠ some b := by
      intro d hd heq
      cases heq
      exact hb hd
    refine ⟨by rw [hnext, if_neg nofun, if_pos rfl, hpath.1], by rw [hprev, if_pos hpath.1.symm], ?_⟩
    apply hpath.2.2.congr
    · rw [hnext, if_neg nofun, if_neg (hne c (List.mem_cons_self ..))]
    · rw [hprev, hpath.1, if_neg nofun, if_neg nofun]
    · intro d hd
      have hdb := hne d (List.mem_cons_of_mem c hd)
      refine ⟨by rw [hnext, if_neg nofun, if_neg hdb], ?_⟩
      rw [hprev, hpath.1, if_neg, if_neg hdb]
      intro heq
      cases heq
      exact hcl.1 hd

theorem Rings.toFront (h : r.Rings l) (hb : b ∈ l) :
    ((r.unlink b).pushFront b).Rings (b :: l.erase b) := by
  obtain ⟨l₁, l₂, rfl⟩ := List.append_of_mem hb
  have hnot := List.nodup_append.mp h.1
  have hb₁ : b ∉ l₁ := fun hmem => hnot.2.2 b hmem b (List.mem_cons_self ..) rfl
  have hb₂ : b ∉ l₂ := (List.nodup_cons.mp hnot.2.1).1
  rw [List.erase_append_right _ hb₁, List.erase_cons_head]
  apply h.unlink.pushFront
  rw [List.mem_append]
  tauto

end

end Links

end Ring
