import ThreadKernel.Library.Refcount

/-! Threads of several processes that work on tables of counted objects.

Every process has a table with an entry for each `x : X`; its threads read and write it
without a lock. What a thread has in hand is a function of where it stands, `K`, given by a
`Script`. A thread may be filling the table of a process that it has made and not started
yet; that table is its own.

The rules of the book become rules for where a thread goes on. Only the one that looks at
an entry asks anything of the other threads of the process, and nothing is asked of the
threads of other processes. -/
namespace Refcount

open Function

set_option linter.unusedSectionVars false

variable {K F X T : Type}

/-- What a thread has in hand at each point. -/
structure Script (K F X : Type) where
  seen : K → List (X × Option F)
  gap : K → Option X
  refs : K → List F
  /-- The process that is being made. -/
  child : K → Option Nat
  /-- The entries of its table that are still null. -/
  todo : K → X → Prop
  /-- What is known at this point besides. -/
  apt : K → Prop

structure World (K F X T : Type) where
  ref : F → Nat
  entry : Nat × X → Option F
  live : Nat → Bool
  next : Nat
  /-- The threads that run: their process, and where they stand. -/
  thread : T → Option (Nat × K)

namespace Script

def window (c : Script K F X) (k : K) : List X := (c.seen k).map Prod.fst

def hand (c : Script K F X) : Option (Nat × K) → Hand F (Nat × X)
  | none => ⟨[], none, []⟩
  | some (p, k) => ⟨(c.seen k).map fun x => ((p, x.1), x.2), (c.gap k).map fun x => (p, x), c.refs k⟩

/-- `k'` may come after `k` as far as a process that is being made goes. -/
structure Follows (c : Script K F X) (k k' : K) : Prop where
  child : ∀ {np}, c.child k' = some np → c.child k = some np ∧ ∀ x, c.todo k' x → c.todo k x
  apt : c.apt k'

/-- `k'` may come after `k` with what is in hand, and with `new` read anew. -/
structure Goes (c : Script K F X) (k k' : K) (new : List (X × Option F)) : Prop where
  seen : ∀ y ∈ c.seen k', y ∈ new ∨ y ∈ c.seen k
  gap : c.gap k' = none
  refs : (c.refs k').Perm (c.refs k)
  next : c.Follows k k'

variable {c : Script K F X} {k k' : K} {p : Nat}

theorem Follows.of_none (h : c.child k' = none) (hapt : c.apt k') : c.Follows k k' := by
  refine ⟨fun {np} hc => ?_, hapt⟩
  rw [h] at hc
  cases hc

/-- `k'` comes after `k`, and no process is being made. -/
theorem Goes.of_none {new : List (X × Option F)} (hseen : ∀ y ∈ c.seen k', y ∈ new ∨ y ∈ c.seen k)
    (hgap : c.gap k' = none) (hrefs : (c.refs k').Perm (c.refs k)) (hchild : c.child k' = none)
    (hapt : c.apt k') : c.Goes k k' new :=
  ⟨hseen, hgap, hrefs, .of_none hchild hapt⟩

theorem mem_window_hand {e : Nat × X} :
    e ∈ (c.hand (some (p, k))).window ↔ e.1 = p ∧ e.2 ∈ c.window k := by
  simp only [Hand.window, hand, window, List.map_map, List.mem_map, Function.comp]
  constructor
  · rintro ⟨y, hy, heq⟩
    cases heq
    exact ⟨rfl, y, hy, rfl⟩
  · rintro ⟨rfl, y, hy, heq⟩
    exact ⟨y, hy, by rw [heq]⟩

theorem hand_gap (hgap : c.gap k = none) : (c.hand (some (p, k))).gap = none := by
  rw [hand, hgap]
  rfl

theorem hand_eq_none (hseen : c.seen k = []) (hgap : c.gap k = none) (hrefs : c.refs k = []) :
    c.hand (some (p, k)) = c.hand none := by
  simp [hand, hseen, hgap, hrefs]

end Script

namespace World

section
variable [DecidableEq F] [DecidableEq X] [DecidableEq T] [Fintype X]

def setCall (w : World K F X T) (t : T) (p : Nat) (k : K) : World K F X T :=
  {w with thread := update w.thread t (some (p, k))}

def setRef (w : World K F X T) (f : F) (n : Nat) : World K F X T :=
  {w with ref := update w.ref f n}

def setEntry (w : World K F X T) (p : Nat) (x : X) (v : Option F) : World K F X T :=
  {w with entry := update w.entry (p, x) v}

/-- `t` makes a process with an empty table, and goes on as `k`. -/
def birth (w : World K F X T) (t : T) (p : Nat) (k : K) : World K F X T :=
  {w.setCall t p k with
    entry := fun e => if e.1 = w.next then none else w.entry e
    live := update w.live w.next true
    next := w.next + 1}

/-- Where `q` stands, if it is another thread of `t`'s process `p`. -/
def sibling (w : World K F X T) (t : T) (p : Nat) (q : T) : Option K :=
  match w.thread q with
  | some (p', k) => if p' = p ∧ q ≠ t then some k else none
  | none => none

/-- No other thread of `p` relies on the entry `x`. -/
def Alone (c : Script K F X) (w : World K F X T) (t : T) (p : Nat) (x : X) : Prop :=
  ∀ q, ∀ k ∈ w.sibling t p q, x ∉ c.window k

instance [Fintype T] (c : Script K F X) (w : World K F X T) (t : T) (p : Nat) (x : X) :
    Decidable (w.Alone c t p x) :=
  inferInstanceAs (Decidable (∀ q, ∀ k ∈ w.sibling t p q, x ∉ c.window k))

def book (c : Script K F X) (w : World K F X T) : Book F (Nat × X) T where
  ref := w.ref
  entry := w.entry
  hand := c.hand ∘ w.thread
  dom := ((Finset.range w.next).filter fun p => w.live p = true) ×ˢ Finset.univ

end

variable [DecidableEq F] [DecidableEq X] [DecidableEq T] [Fintype X] [Fintype T]
variable {c : Script K F X} {w : World K F X T} {t q : T} {p np : Nat} {k k' : K} {f : F} {x : X}
  {v : Option F}

theorem book_setCall : (w.setCall t p k).book c = (w.book c).setHand t (c.hand (some (p, k))) :=
  congrArg (fun h => Book.mk w.ref w.entry h (w.book c).dom) (Function.comp_update ..)

theorem book_setRef (n : Nat) : (w.setRef f n).book c = (w.book c).setRef f n := rfl

theorem book_setEntry (v : Option F) :
    (w.setEntry p x v).book c = (w.book c).setEntry (p, x) v := rfl

theorem mem_dom : (p, x) ∈ (w.book c).dom ↔ p < w.next ∧ w.live p = true := by
  simp [book]

theorem setCall_thread : (w.setCall t p k).thread t = some (p, k) := update_self ..

theorem setCall_cases {y : Nat × K} (h : (w.setCall t p k).thread q = some y) :
    (q = t ∧ y = (p, k)) ∨ (q ≠ t ∧ w.thread q = some y) := by
  by_cases hqt : q = t
  · subst hqt
    rw [setCall_thread] at h
    cases h
    exact .inl ⟨rfl, rfl⟩
  · simp only [setCall, update_of_ne hqt] at h
    exact .inr ⟨hqt, h⟩

/-- What holds of the thread that has gone on, and of the others. -/
theorem setCall_all {P : T → Nat → K → Prop} (hself : P t p k)
    (hother : ∀ {q p' k'}, q ≠ t → w.thread q = some (p', k') → P q p' k') {p' : Nat} {k' : K}
    (h : (w.setCall t p k).thread q = some (p', k')) : P q p' k' := by
  rcases setCall_cases h with ⟨rfl, hx⟩ | ⟨hq, h⟩
  · cases hx
    exact hself
  · exact hother hq h

theorem sibling_eq (hq : w.thread q = some (p, k)) (hne : q ≠ t) : w.sibling t p q = some k := by
  simp [sibling, hq, hne]

/-- What is asked of the siblings is what the book asks for. -/
theorem free_of_alone (h : w.Alone c t p x) : (w.book c).Free t (p, x) := by
  intro q hne hmem
  cases hq : w.thread q with
  | none => simp [book, hq, Script.hand, Hand.window] at hmem
  | some y =>
    obtain ⟨p', k'⟩ := y
    simp only [book, Function.comp, hq] at hmem
    obtain ⟨hp, hwindow⟩ := Script.mem_window_hand.mp hmem
    refine h q k' ?_ hwindow
    subst hp
    exact sibling_eq hq hne

section
variable (ht : w.thread t = some (p, k))
include ht

theorem book_hand : (w.book c).hand t = c.hand (some (p, k)) := by
  simp [book, ht]

theorem book_refs : ((w.book c).hand t).refs = c.refs k := by
  rw [book_hand ht]
  rfl

theorem book_gap (hgap : c.gap k = none) : ((w.book c).hand t).gap = none := by
  rw [book_hand ht]
  exact Script.hand_gap hgap

theorem mem_seen (h : (x, v) ∈ c.seen k) : ((p, x), v) ∈ ((w.book c).hand t).seen := by
  rw [book_hand ht]
  exact List.mem_map.mpr ⟨_, h, rfl⟩

theorem seen_subset (hseen : c.seen k' ⊆ c.seen k) :
    ∀ y ∈ (c.hand (some (p, k'))).seen, y ∈ ((w.book c).hand t).seen := by
  rw [book_hand ht]
  exact List.map_subset _ hseen

theorem seen_write (hseen : ∀ y ∈ c.seen k', y = (x, v) ∨ (y ∈ c.seen k ∧ y.1 ≠ x)) :
    ∀ y ∈ (c.hand (some (p, k'))).seen,
      y = ((p, x), v) ∨ (y ∈ ((w.book c).hand t).seen ∧ y.1 ≠ (p, x)) := by
  intro y hy
  obtain ⟨z, hz, rfl⟩ := List.mem_map.mp hy
  rcases hseen z hz with rfl | ⟨hz, hne⟩
  · exact .inl rfl
  · exact .inr ⟨mem_seen ht hz, fun heq => hne (congrArg Prod.snd heq)⟩

end

/-! ### Processes that are being made -/

/-- Every thread has a process that has not been given up, and a process that is being made
is its maker's own. -/
structure Framed (c : Script K F X) (w : World K F X T) : Prop where
  home : ∀ {t p k}, w.thread t = some (p, k) → p < w.next ∧ w.live p = true
  apt : ∀ {t p k}, w.thread t = some (p, k) → c.apt k
  child : ∀ {t p k np}, w.thread t = some (p, k) → c.child k = some np →
    (np < w.next ∧ w.live np = true) ∧ ∀ x, c.todo k x → w.entry (np, x) = none
  own : ∀ {t p k np t' p' k'}, w.thread t = some (p, k) → c.child k = some np →
    w.thread t' = some (p', k') → p' ≠ np ∧ (t' ≠ t → c.child k' ≠ some np)
  fresh : ∀ {p x}, w.next ≤ p → w.entry (p, x) = none

section
variable (hf : w.Framed c)
include hf

/-- `t` goes on in its process, with the process it is making, or with none. -/
theorem Framed.setCall (ht : w.thread t = some (p, k)) (hnext : c.Follows k k') :
    (w.setCall t p k').Framed c := by
  refine ⟨setCall_all (hf.home ht) fun _ => hf.home, setCall_all hnext.apt fun _ => hf.apt, ?_, ?_, hf.fresh⟩
  · intro q p' k₁ np
    refine setCall_all (fun hc => ?_) fun _ => hf.child
    obtain ⟨hold, htodo⟩ := hnext.child hc
    obtain ⟨hnp, hempty⟩ := hf.child ht hold
    exact ⟨hnp, fun x hx => hempty x (htodo x hx)⟩
  · intro q p' k₁ np q' p'' k₂ hq hc hq'
    rcases setCall_cases hq with ⟨rfl, hx⟩ | ⟨hqt, hold⟩
    · cases hx
      rcases setCall_cases hq' with ⟨rfl, hx⟩ | ⟨hqt', hq'⟩
      · cases hx
        exact ⟨(hf.own ht (hnext.child hc).1 ht).1, fun h => absurd rfl h⟩
      · exact hf.own ht (hnext.child hc).1 hq'
    · rcases setCall_cases hq' with ⟨rfl, hx⟩ | ⟨hqt', hq'⟩
      · cases hx
        exact ⟨(hf.own hold hc ht).1, fun hne hj => (hf.own hold hc ht).2 hne (hnext.child hj).1⟩
      · exact hf.own hold hc hq'

theorem Framed.setRef (n : Nat) : (w.setRef f n).Framed c :=
  ⟨hf.home, hf.apt, hf.child, hf.own, hf.fresh⟩

theorem Framed.setEntry (hp : p < w.next)
    (hnot : ∀ {t p' k}, w.thread t = some (p', k) → c.child k = some p → ¬ c.todo k x) :
    (w.setEntry p x v).Framed c := by
  refine ⟨hf.home, hf.apt, ?_, hf.own, ?_⟩
  · intro t p' k np ht hc
    obtain ⟨hnp, hempty⟩ := hf.child ht hc
    refine ⟨hnp, fun y hy => ?_⟩
    have hne : (np, y) ≠ (p, x) := by
      intro heq
      cases heq
      exact hnot ht hc hy
    simp only [World.setEntry, update_of_ne hne]
    exact hempty y hy
  · intro p' y hp'
    have hne : (p', y) ≠ (p, x) := by
      intro heq
      cases heq
      exact absurd hp (Nat.not_lt.mpr hp')
    simp only [World.setEntry, update_of_ne hne]
    exact hf.fresh hp'

theorem Framed.setOwn (ht : w.thread t = some (p, k)) :
    (w.setEntry p x v).Framed c :=
  hf.setEntry (hf.home ht).1 fun ht' hc => absurd rfl (hf.own ht' hc ht).1

/-- The table of a process that is not there yet is empty as it is. -/
theorem Framed.zeroed :
    (fun e : Nat × X => if e.1 = w.next then none else w.entry e) = w.entry := by
  funext e
  split
  · rename_i he
    exact (hf.fresh (p := e.1) (by omega)).symm
  · rfl

end

/-! ### The rules -/

structure Inv (c : Script K F X) (w : World K F X T) : Prop where
  sound : (w.book c).Sound
  framed : w.Framed c

section

variable (hi : w.Inv c) (ht : w.thread t = some (p, k))
include hi ht

theorem Inv.mem_dom (x : X) : (p, x) ∈ (w.book c).dom :=
  World.mem_dom.mpr (hi.framed.home ht)

theorem Inv.pos_of_seen (hx : (x, some f) ∈ c.seen k) (hgap : c.gap k ≠ some x) : 0 < w.ref f := by
  refine hi.sound.pos_of_seen (mem_seen ht hx) ?_
  rw [book_hand ht]
  intro heq
  obtain ⟨y, hy, hxy⟩ := Option.map_eq_some_iff.mp heq
  cases hxy
  exact hgap hy

theorem Inv.pos_of_ref (hf : f ∈ c.refs k) : 0 < w.ref f := by
  refine hi.sound.pos_of_ref (t := t) ?_
  rw [book_refs ht]
  exact hf

theorem Inv.entry_of_seen (hx : (x, v) ∈ c.seen k) : w.entry (p, x) = v :=
  hi.sound.seen (mem_seen ht hx)

end

section
variable (hi : w.Inv c) (ht : w.thread t = some (p, k))
include hi ht

theorem Inv.hold (hgap : c.gap k = none) (hk : c.Goes k k' []) : (w.setCall t p k').Inv c := by
  refine ⟨?_, hi.framed.setCall ht hk.next⟩
  rw [book_setCall]
  exact hi.sound.hold (seen_subset ht fun y hy => (hk.seen y hy).resolve_left List.not_mem_nil)
    (book_gap ht hgap) (Script.hand_gap hk.gap) (by rw [book_refs ht]; exact hk.refs)

theorem Inv.look (halone : w.Alone c t p x) (hgap : c.gap k = none)
    (hk : c.Goes k k' [(x, w.entry (p, x))]) : (w.setCall t p k').Inv c := by
  refine ⟨?_, hi.framed.setCall ht hk.next⟩
  rw [book_setCall]
  refine hi.sound.look (hi.mem_dom ht x) (free_of_alone halone) ?_ (book_gap ht hgap)
    (Script.hand_gap hk.gap) (by rw [book_refs ht]; exact hk.refs)
  intro y hy
  obtain ⟨z, hz, rfl⟩ := List.mem_map.mp hy
  rcases hk.seen z hz with hz | hz
  · rw [List.mem_singleton.mp hz]
    exact .inl rfl
  · exact .inr (mem_seen ht hz)

variable (hnext : c.Follows k k')
include hnext

theorem Inv.alloc (hzero : w.ref f = 0) (hseen : c.seen k' ⊆ c.seen k) (hgap : c.gap k = none)
    (hgap' : c.gap k' = none) (hrefs : (c.refs k').Perm (f :: c.refs k)) :
    ((w.setCall t p k').setRef f 1).Inv c := by
  refine ⟨?_, (hi.framed.setCall ht hnext).setRef 1⟩
  rw [book_setRef, book_setCall]
  exact hi.sound.alloc hzero (seen_subset ht hseen) (book_gap ht hgap) (Script.hand_gap hgap')
    (by rw [book_refs ht]; exact hrefs)

section
variable (hseen : c.seen k' ⊆ c.seen k) (hgap : c.gap k = none) (hgap' : c.gap k' = none)
include hseen hgap hgap'

theorem Inv.inc (hrefs : (c.refs k').Perm (f :: c.refs k)) :
    ((w.setCall t p k').setRef f (w.ref f + 1)).Inv c := by
  refine ⟨?_, (hi.framed.setCall ht hnext).setRef _⟩
  rw [book_setRef, book_setCall]
  exact hi.sound.inc (seen_subset ht hseen) (book_gap ht hgap) (Script.hand_gap hgap')
    (by rw [book_refs ht]; exact hrefs)

theorem Inv.drop (hrefs : (c.refs k).Perm (f :: c.refs k')) :
    ((w.setCall t p k').setRef f (w.ref f - 1)).Inv c := by
  refine ⟨?_, (hi.framed.setCall ht hnext).setRef _⟩
  rw [book_setRef, book_setCall]
  exact hi.sound.drop (seen_subset ht hseen) (book_gap ht hgap) (Script.hand_gap hgap')
    (by rw [book_refs ht]; exact hrefs)

end

theorem Inv.put (hx : (x, none) ∈ c.seen k)
    (hseen : ∀ y ∈ c.seen k', y = (x, some f) ∨ (y ∈ c.seen k ∧ y.1 ≠ x)) (hgap : c.gap k = none)
    (hgap' : c.gap k' = none) (hrefs : (c.refs k).Perm (f :: c.refs k')) :
    ((w.setCall t p k').setEntry p x (some f)).Inv c := by
  refine ⟨?_, (hi.framed.setCall ht hnext).setOwn setCall_thread⟩
  have hmem := mem_seen (c := c) ht hx
  rw [book_setEntry, book_setCall]
  exact hi.sound.put (hi.mem_dom ht x) (hi.sound.free (Hand.mem_window.mpr ⟨_, hmem⟩))
    (hi.sound.seen hmem) (seen_write ht hseen) (book_gap ht hgap) (Script.hand_gap hgap')
    (by rw [book_refs ht]; exact hrefs)

theorem Inv.take (hx : (x, some f) ∈ c.seen k) (hseen : ∀ y ∈ c.seen k', y ∈ c.seen k ∧ y.1 ≠ x)
    (hgap : c.gap k = none) (hgap' : c.gap k' = none) (hrefs : (c.refs k').Perm (f :: c.refs k)) :
    ((w.setCall t p k').setEntry p x none).Inv c := by
  refine ⟨?_, (hi.framed.setCall ht hnext).setOwn setCall_thread⟩
  rw [book_setEntry, book_setCall]
  refine hi.sound.take (mem_seen ht hx) ?_ (book_gap ht hgap) (Script.hand_gap hgap')
    (by rw [book_refs ht]; exact hrefs)
  intro y hy
  obtain ⟨z, hz, rfl⟩ := List.mem_map.mp hy
  exact ⟨mem_seen ht (hseen z hz).1, fun heq => (hseen z hz).2 (congrArg Prod.snd heq)⟩

/-- An entry found null gets an object that there is no reference for yet. -/
theorem Inv.lead (hx : (x, none) ∈ c.seen k)
    (hseen : ∀ y ∈ c.seen k', y = (x, some f) ∨ (y ∈ c.seen k ∧ y.1 ≠ x)) (hx' : x ∈ c.window k')
    (hgap : c.gap k = none) (hgap' : c.gap k' = some x) (hrefs : (c.refs k').Perm (c.refs k)) :
    ((w.setCall t p k').setEntry p x (some f)).Inv c := by
  refine ⟨?_, (hi.framed.setCall ht hnext).setOwn setCall_thread⟩
  have hmem := mem_seen (c := c) ht hx
  rw [book_setEntry, book_setCall]
  exact hi.sound.lead (hi.mem_dom ht x) (hi.sound.free (Hand.mem_window.mpr ⟨_, hmem⟩))
    (hi.sound.seen hmem) (seen_write ht hseen) (Script.mem_window_hand.mpr ⟨rfl, hx'⟩)
    (book_gap ht hgap) (by rw [Script.hand, hgap']; rfl) (by rw [book_refs ht]; exact hrefs)

theorem Inv.cover (hgap : c.gap k = some x) (hx : (x, some f) ∈ c.seen k)
    (hseen : c.seen k' ⊆ c.seen k) (hgap' : c.gap k' = none) (hrefs : (c.refs k').Perm (c.refs k)) :
    ((w.setCall t p k').setRef f (w.ref f + 1)).Inv c := by
  refine ⟨?_, (hi.framed.setCall ht hnext).setRef _⟩
  rw [book_setRef, book_setCall]
  exact hi.sound.cover (e := (p, x)) (by rw [book_hand ht, Script.hand, hgap]; rfl) (mem_seen ht hx)
    (seen_subset ht hseen) (Script.hand_gap hgap') (by rw [book_refs ht]; exact hrefs)

theorem Inv.strip (hx : (x, some f) ∈ c.seen k) (hseen : c.seen k' ⊆ c.seen k)
    (hx' : x ∈ c.window k') (hgap : c.gap k = none) (hgap' : c.gap k' = some x)
    (hrefs : (c.refs k').Perm (c.refs k)) : ((w.setCall t p k').setRef f (w.ref f - 1)).Inv c := by
  refine ⟨?_, (hi.framed.setCall ht hnext).setRef _⟩
  rw [book_setRef, book_setCall]
  exact hi.sound.strip (mem_seen ht hx) (seen_subset ht hseen)
    (Script.mem_window_hand.mpr ⟨rfl, hx'⟩) (book_gap ht hgap) (by rw [Script.hand, hgap']; rfl)
    (by rw [book_refs ht]; exact hrefs)

/-- Such an entry is cleared, or gets the object of a reference in hand. -/
theorem Inv.close (hgap : c.gap k = some x)
    (hseen : ∀ y ∈ c.seen k', y = (x, v) ∨ (y ∈ c.seen k ∧ y.1 ≠ x)) (hgap' : c.gap k' = none)
    (hrefs : (c.refs k).Perm (v.toList ++ c.refs k')) :
    ((w.setCall t p k').setEntry p x v).Inv c := by
  refine ⟨?_, (hi.framed.setCall ht hnext).setOwn setCall_thread⟩
  rw [book_setEntry, book_setCall]
  exact hi.sound.close (by rw [book_hand ht, Script.hand, hgap]; rfl) (seen_write ht hseen)
    (Script.hand_gap hgap') (by rw [book_refs ht]; exact hrefs)

/-- An entry of the table that `t` is filling gets the object of a reference in hand. -/
theorem Inv.fill (hchild : c.child k = some np) (htodo : c.todo k x) (hdone : ¬ c.todo k' x)
    (hseen : c.seen k' ⊆ c.seen k) (hgap : c.gap k = none) (hgap' : c.gap k' = none)
    (hrefs : (c.refs k).Perm (f :: c.refs k')) :
    ((w.setCall t p k').setEntry np x (some f)).Inv c := by
  obtain ⟨hnp, hempty⟩ := hi.framed.child ht hchild
  have hother : ∀ {q p' k₁}, w.thread q = some (p', k₁) → p' ≠ np :=
    fun hq => (hi.framed.own ht hchild hq).1
  refine ⟨?_, (hi.framed.setCall ht hnext).setEntry hnp.1 ?_⟩
  · rw [book_setEntry, book_setCall]
    refine hi.sound.put (World.mem_dom.mpr hnp) ?_ (hempty x htodo) ?_ (book_gap ht hgap)
      (Script.hand_gap hgap') (by rw [book_refs ht]; exact hrefs)
    · intro q hne hmem
      cases hq : w.thread q with
      | none => simp [book, hq, Script.hand, Hand.window] at hmem
      | some y =>
        rw [book_hand hq] at hmem
        exact hother hq (Script.mem_window_hand.mp hmem).1.symm
    · intro y hy
      refine .inr ⟨seen_subset ht hseen y hy, fun heq => ?_⟩
      obtain ⟨z, -, rfl⟩ := List.mem_map.mp hy
      exact hother ht (congrArg Prod.fst heq)
  · intro q p' k₁ hq hc
    rcases setCall_cases hq with ⟨rfl, hx⟩ | ⟨hqt, hq⟩
    · cases hx
      exact hdone
    · exact absurd hc ((hi.framed.own ht hchild hq).2 hqt)

end

/-! ### Threads and processes come and go -/

/-- A new thread, with nothing in hand, of a process that is not being made. -/
theorem Inv.spawn (hi : w.Inv c) (hq : w.thread q = none) (hp : p < w.next ∧ w.live p = true)
    (hown : ∀ {t p' k}, w.thread t = some (p', k) → c.child k ≠ some p)
    (hseen : c.seen k = []) (hgap : c.gap k = none) (hrefs : c.refs k = []) (hchild : c.child k = none)
    (hapt : c.apt k) : (w.setCall q p k).Inv c := by
  have hnot : ∀ {np}, c.child k ≠ some np := by
    intro np hc
    rw [hchild] at hc
    cases hc
  refine ⟨?_, ⟨setCall_all hp fun _ => hi.framed.home, setCall_all hapt fun _ => hi.framed.apt,
    setCall_all (fun hc => absurd hc hnot) fun _ => hi.framed.child, ?_, hi.framed.fresh⟩⟩
  · have hsame : (w.setCall q p k).book c = w.book c := by
      rw [book_setCall, Script.hand_eq_none hseen hgap hrefs, ← hq]
      simp [Book.setHand, book]
    rw [hsame]
    exact hi.sound
  · intro q₁ p₁ k₁ np q₂ p₂ k₂ h₁ hc h₂
    rcases setCall_cases h₁ with ⟨rfl, hx⟩ | ⟨-, hold⟩
    · cases hx
      exact absurd hc hnot
    · rcases setCall_cases h₂ with ⟨rfl, hx⟩ | ⟨-, h₂⟩
      · cases hx
        refine ⟨fun heq => ?_, fun _ => hnot⟩
        subst heq
        exact hown hold hc
      · exact hi.framed.own hold hc h₂

/-- A process that has been made gets its first thread. -/
theorem Inv.publish {k₀ : K} (hi : w.Inv c) (ht : w.thread t = some (p, k))
    (hchild : c.child k = some np) (hq : w.thread q = none) (hgap : c.gap k = none)
    (hk : c.Goes k k' []) (hnone : c.child k' = none)
    (hseen₀ : c.seen k₀ = []) (hgap₀ : c.gap k₀ = none) (hrefs₀ : c.refs k₀ = [])
    (hchild₀ : c.child k₀ = none) (hapt₀ : c.apt k₀) :
    ((w.setCall t p k').setCall q np k₀).Inv c := by
  have hne : q ≠ t := by
    intro heq
    rw [heq, ht] at hq
    cases hq
  refine (hi.hold ht hgap hk).spawn ?_ (hi.framed.child ht hchild).1 ?_ hseen₀ hgap₀ hrefs₀ hchild₀ hapt₀
  · simp only [setCall, update_of_ne hne]
    exact hq
  · exact setCall_all (by rw [hnone]; nofun) fun hqt hq' => (hi.framed.own ht hchild hq').2 hqt

/-- Threads with nothing in hand are gone, and processes without threads and with an empty
table are given up. -/
theorem Inv.retire (hi : w.Inv c) {thread' : T → Option (Nat × K)} {live' : Nat → Bool}
    (hthread : ∀ q, thread' q = w.thread q ∨ thread' q = none ∧ c.hand (w.thread q) = c.hand none)
    (hlive : ∀ p', live' p' = w.live p' ∨ (∀ x, w.entry (p', x) = none) ∧ ∀ q k,
      thread' q = some (p', k) → False)
    (hkeep : ∀ {q p' k np}, thread' q = some (p', k) → c.child k = some np → live' np = w.live np) :
    ({w with thread := thread', live := live'} : World K F X T).Inv c := by
  have hold : ∀ {q x}, thread' q = some x → w.thread q = some x := by
    intro q x hq
    rcases hthread q with h | ⟨h, -⟩
    · rw [← h]
      exact hq
    · rw [h] at hq
      cases hq
  have hhand : c.hand ∘ thread' = c.hand ∘ w.thread := by
    funext q
    rcases hthread q with h | ⟨h, hempty⟩
    · exact congrArg c.hand h
    · rw [Function.comp, Function.comp, h, hempty]
  refine ⟨?_, ⟨?_, fun hq => hi.framed.apt (hold hq), ?_,
    fun h₁ hc h₂ => hi.framed.own (hold h₁) hc (hold h₂), hi.framed.fresh⟩⟩
  · have hbook : ({w with thread := thread', live := live'} : World K F X T).book c =
        {w.book c with dom := ((Finset.range w.next).filter fun p => live' p = true) ×ˢ Finset.univ} :=
      congrArg (fun h => Book.mk w.ref w.entry h _) hhand
    rw [hbook]
    refine hi.sound.resize ?_ ?_
    · intro q y hy
      have hmem := hi.sound.inside hy
      obtain ⟨p', x⟩ := y
      rw [World.mem_dom] at hmem
      have hy' : (p', x) ∈ (c.hand (thread' q)).window := by
        rw [show c.hand (thread' q) = c.hand (w.thread q) from congrFun hhand q]
        exact hy
      cases hq : thread' q with
      | none =>
        rw [hq] at hy'
        simp [Script.hand, Hand.window] at hy'
      | some z =>
        obtain ⟨p'', k⟩ := z
        rw [hq] at hy'
        have hp : p' = p'' := (Script.mem_window_hand.mp hy').1
        subst hp
        rcases hlive p' with h | ⟨-, h⟩
        · simp [hmem, h]
        · exact (h q k hq).elim
    · intro y hy
      obtain ⟨p', x⟩ := y
      rcases hlive p' with h | ⟨h, -⟩
      · rw [World.mem_dom]
        simp [h]
      · exact absurd (h x) hy
  · intro q p' k hq
    obtain ⟨hlt, hl⟩ := hi.framed.home (hold hq)
    rcases hlive p' with h | ⟨-, h⟩
    · exact ⟨hlt, h.trans hl⟩
    · exact (h q k hq).elim
  · intro q p' k np hq hc
    obtain ⟨⟨hnp, hl⟩, hempty⟩ := hi.framed.child (hold hq) hc
    exact ⟨⟨hnp, (hkeep hq hc).trans hl⟩, hempty⟩

/-- `t`, which is making no process, starts to make one. -/
theorem Inv.birth (hi : w.Inv c) (ht : w.thread t = some (p, k)) (hgap : c.gap k = none)
    (hseen : c.seen k' ⊆ c.seen k) (hgap' : c.gap k' = none) (hrefs : (c.refs k').Perm (c.refs k))
    (hchild : c.child k' = some w.next) (hapt : c.apt k') : (w.birth t p k').Inv c := by
  have hlive : ∀ {p'}, p' < w.next → update w.live w.next true p' = w.live p' :=
    fun h => update_of_ne (Nat.ne_of_lt h) _ _
  have hhome : ∀ {q p' k₁}, (w.setCall t p k').thread q = some (p', k₁) →
      p' < w.next ∧ w.live p' = true := setCall_all (hi.framed.home ht) fun _ => hi.framed.home
  unfold World.birth
  rw [hi.framed.zeroed]
  refine ⟨?_, ⟨?_, setCall_all hapt fun _ => hi.framed.apt, ?_, ?_, ?_⟩⟩
  · have hhand : ((w.setCall t p k').book c).Sound := by
      rw [book_setCall]
      exact hi.sound.hold (seen_subset ht hseen) (book_gap ht hgap) (Script.hand_gap hgap')
        (by rw [book_refs ht]; exact hrefs)
    refine hhand.resize ?_ ?_
    · intro q y hy
      have hmem := hhand.inside hy
      obtain ⟨p', x⟩ := y
      rw [World.mem_dom] at hmem
      have hlt : p' < w.next := hmem.1
      have hl : w.live p' = true := hmem.2
      simp [hlive hlt, hl]
      omega
    · intro y hy
      obtain ⟨p', x⟩ := y
      have hlt : p' < w.next := by
        by_contra hge
        exact hy (hi.framed.fresh (Nat.le_of_not_lt hge))
      rw [World.mem_dom]
      simp [hlive hlt, World.setCall]
      omega
  · intro q p' k₁ hq
    obtain ⟨hlt, hl⟩ := hhome hq
    exact ⟨Nat.lt_succ_of_lt hlt, (hlive hlt).trans hl⟩
  · intro q p' k₁ np hq hc
    rcases setCall_cases hq with ⟨rfl, hx⟩ | ⟨-, hq⟩
    · cases hx
      rw [hchild] at hc
      cases hc
      exact ⟨⟨Nat.lt_succ_self _, update_self ..⟩, fun x _ => hi.framed.fresh le_rfl⟩
    · obtain ⟨⟨hnp, hl⟩, hempty⟩ := hi.framed.child hq hc
      exact ⟨⟨Nat.lt_succ_of_lt hnp, (hlive hnp).trans hl⟩, hempty⟩
  · intro q₁ p₁ k₁ np q₂ p₂ k₂ h₁ hc h₂
    rcases setCall_cases h₁ with ⟨rfl, hx⟩ | ⟨hne₁, hold₁⟩
    · cases hx
      rw [hchild] at hc
      cases hc
      refine ⟨Nat.ne_of_lt (hhome h₂).1, fun hne hj => ?_⟩
      rcases setCall_cases h₂ with ⟨rfl, -⟩ | ⟨-, h₂⟩
      · exact hne rfl
      · exact absurd (hi.framed.child h₂ hj).1.1 (Nat.lt_irrefl _)
    · have hnp := (hi.framed.child hold₁ hc).1.1
      rcases setCall_cases h₂ with ⟨rfl, hx⟩ | ⟨-, h₂⟩
      · cases hx
        refine ⟨(hi.framed.own hold₁ hc ht).1, fun _ hj => ?_⟩
        rw [hchild] at hj
        cases hj
        exact Nat.lt_irrefl _ hnp
      · exact hi.framed.own hold₁ hc h₂
  · intro p' x hp'
    exact hi.framed.fresh (Nat.le_of_succ_le hp')

/-- At the start every thread is at a point where it has nothing in hand, and every table of
a process is empty or has its references. -/
theorem Inv.start (hhand : ∀ q, c.hand (w.thread q) = c.hand none)
    (hthread : ∀ {q p k}, w.thread q = some (p, k) →
      (p < w.next ∧ w.live p = true) ∧ c.apt k ∧ c.child k = none)
    (hfresh : ∀ {p x}, w.next ≤ p → w.entry (p, x) = none)
    (hbalanced : ∀ f, w.ref f = ((w.book c).pointing f).card) : w.Inv c := by
  have hempty : ∀ q, (w.book c).hand q = ⟨[], none, []⟩ := hhand
  refine ⟨⟨?_, ?_, ?_, ?_, ?_⟩, ⟨fun h => (hthread h).1, fun h => (hthread h).2.1, ?_, ?_, hfresh⟩⟩
  · intro q x v hx
    simp [hempty] at hx
  · intro q x hx
    simp [hempty, Hand.window] at hx
  · intro q q' x _ hx
    simp [hempty, Hand.window] at hx
  · intro q x hx
    simp [hempty] at hx
  · intro f
    have hcounted : (w.book c).counted f = (w.book c).pointing f := by
      simp [Book.counted, Book.pointing, hempty]
    simp only [hempty, hcounted, List.count_nil, Finset.sum_const_zero, Nat.add_zero]
    exact hbalanced f
  · intro q p k np h hc
    rw [(hthread h).2.2] at hc
    cases hc
  · intro q p k np q' p' k' h hc
    rw [(hthread h).2.2] at hc
    cases hc

/-! ### The equation -/

/-- The entries, of processes not given up, that point at `f`. -/
def entries (c : Script K F X) (w : World K F X T) (f : F) : Nat := ((w.book c).pointing f).card

/-- The references that threads have obtained and not yet stored or dropped. -/
def inProgress (c : Script K F X) (w : World K F X T) (f : F) : Nat :=
  ∑ t, ((w.book c).hand t).refs.count f

/-- The entries that are ahead of their reference, or behind it. -/
def owed (c : Script K F X) (w : World K F X T) (f : F) : Nat := ((w.book c).owed f).card

theorem Inv.exact (hi : w.Inv c) (f : F) : w.ref f + w.owed c f = w.entries c f + w.inProgress c f :=
  hi.sound.exact f

/-- Every count is the number of entries and of references in hand just when no thread is at
a point where an entry is without its reference. -/
theorem Inv.exact_iff (hi : w.Inv c) (hfull : ∀ {k x}, c.gap k = some x → ∃ f, (x, some f) ∈ c.seen k) :
    (∀ f, w.ref f = w.entries c f + w.inProgress c f) ↔
      ∀ t p k, w.thread t = some (p, k) → c.gap k = none := by
  have hnone : (∀ t, ((w.book c).hand t).gap = none) ↔
      ∀ t p k, w.thread t = some (p, k) → c.gap k = none := by
    refine forall_congr' fun t => ?_
    cases ht : w.thread t with
    | none => simp [book, ht, Script.hand]
    | some y =>
      obtain ⟨p, k⟩ := y
      simp [book, ht, Script.hand]
  refine (hi.sound.exact_iff fun {t e} he => ?_).trans hnone
  cases ht : w.thread t with
  | none =>
    simp [book, ht, Script.hand] at he
  | some y =>
    rw [book_hand ht] at he
    obtain ⟨x, hx, rfl⟩ := Option.map_eq_some_iff.mp he
    obtain ⟨f, hf⟩ := hfull hx
    exact ne_of_eq_of_ne (hi.entry_of_seen ht hf) nofun

end World

end Refcount
