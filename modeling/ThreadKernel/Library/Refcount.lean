import Mathlib

/-! Reference counts of objects that shared entries point at.

Objects `F` have a count each; entries `E` may point at one, and every entry that does
should have a reference. Threads `T` work on the entries without a lock: what a thread has
in hand is the list of entries it has looked at and still relies on, the references it
holds itself, and perhaps an entry with a gap: one that it has filled before it has the
reference for it, or whose reference it has dropped before it empties it.

The book is `Sound` when nobody's findings are out of date, no two threads rely on one
entry, and every count is the number of entries that point at the object, gaps apart, and
of references in hand. The rules below say which moves of a thread keep it sound; the only
ones that ask something of the other threads are those that look at an entry. -/
namespace Refcount

open Function

variable {F E T : Type}

structure Hand (F E : Type) where
  seen : List (E × Option F)
  gap : Option E
  refs : List F

/-- The entries relied on. -/
def Hand.window (h : Hand F E) : List E := h.seen.map Prod.fst

theorem Hand.mem_window {h : Hand F E} {e : E} : e ∈ h.window ↔ ∃ v, (e, v) ∈ h.seen := by
  simp [Hand.window]

section
variable [DecidableEq F] {f : F} {r : F → Nat} {l l' : List F} (hl : l.Perm (f :: l')) (g : F)
include hl

theorem count_up : update r f (r f + 1) g + l'.count g = r g + l.count g := by
  rw [hl.count_eq, List.count_cons]
  by_cases hg : g = f
  · subst hg
    simp
    omega
  · simp [hg, Ne.symm hg]

theorem count_down (hpos : 0 < r f) : update r f (r f - 1) g + l.count g = r g + l'.count g := by
  have h := count_up (r := update r f (r f - 1)) hl g
  rw [update_self, Nat.sub_add_cancel hpos, update_idem, update_eq_self] at h
  exact h.symm

end

/-- The reference that an entry `e` with `v` in it has. -/
def Hand.backs [DecidableEq E] (h : Hand F E) (e : E) (v : Option F) : List F :=
  if h.gap = some e then [] else v.toList

/-- `dom` is the set of entries that count. -/
structure Book (F E T : Type) where
  ref : F → Nat
  entry : E → Option F
  hand : T → Hand F E
  dom : Finset E

variable [DecidableEq F] [DecidableEq E] [Fintype T] {b b' : Book F E T} {t : T} {e : E} {f : F}

namespace Book

/-- The entries that point at `f` and have their reference. -/
def counted (b : Book F E T) (f : F) : Finset E :=
  b.dom.filter fun e => b.entry e = some f ∧ ∀ t, (b.hand t).gap ≠ some e

theorem mem_counted : e ∈ b.counted f ↔
    e ∈ b.dom ∧ b.entry e = some f ∧ ∀ t, (b.hand t).gap ≠ some e :=
  Finset.mem_filter

structure Sound (b : Book F E T) : Prop where
  seen : ∀ {t e v}, (e, v) ∈ (b.hand t).seen → b.entry e = v
  inside : ∀ {t e}, e ∈ (b.hand t).window → e ∈ b.dom
  apart : ∀ {t t' e}, t ≠ t' → e ∈ (b.hand t).window → e ∉ (b.hand t').window
  gap : ∀ {t e}, (b.hand t).gap = some e → e ∈ (b.hand t).window
  balanced : ∀ f, b.ref f = (b.counted f).card + ∑ t, (b.hand t).refs.count f

/-- Nobody but `t` relies on `e`. -/
def Free (b : Book F E T) (t : T) (e : E) : Prop :=
  ∀ t', t' ≠ t → e ∉ (b.hand t').window

/-- What `e` counts for `f`, when `t` is the only one to look at. -/
def weight (b : Book F E T) (t : T) (e : E) (f : F) : Nat :=
  if b.entry e = some f ∧ (b.hand t).gap ≠ some e then 1 else 0

end Book

open Book

theorem Book.Sound.free (hs : b.Sound) (he : e ∈ (b.hand t).window) : b.Free t e :=
  fun _ hne h => hs.apart hne h he

/-! ### Counting -/

variable [DecidableEq T] {u : T}

omit [DecidableEq E] in
theorem sum_refs (hhand : ∀ t', t' ≠ t → b'.hand t' = b.hand t') (f : F) :
    (∑ t, (b'.hand t).refs.count f) + (b.hand t).refs.count f =
      (∑ t, (b.hand t).refs.count f) + (b'.hand t).refs.count f := by
  have hrest : ∑ x ∈ Finset.univ.erase t, (b'.hand x).refs.count f =
      ∑ x ∈ Finset.univ.erase t, (b.hand x).refs.count f := by
    refine Finset.sum_congr rfl fun x hx => ?_
    rw [hhand x (Finset.ne_of_mem_erase hx)]
  have h := Finset.add_sum_erase Finset.univ (fun x => (b.hand x).refs.count f) (Finset.mem_univ t)
  have h' := Finset.add_sum_erase Finset.univ (fun x => (b'.hand x).refs.count f) (Finset.mem_univ t)
  omega

/-- The entries other than `e` that count. -/
theorem card_counted (hgap : ∀ {t e}, (b.hand t).gap = some e → e ∈ (b.hand t).window)
    (hfree : b.Free t e) (he : e ∈ b.dom) (f : F) :
    (b.counted f).card = ((b.counted f).erase e).card + b.weight t e f := by
  unfold weight
  split
  · rename_i h
    have hmem : e ∈ b.counted f := by
      refine mem_counted.mpr ⟨he, h.1, fun t' => ?_⟩
      by_cases ht : t' = t
      · rw [ht]
        exact h.2
      · exact fun h => hfree t' ht (hgap h)
    rw [Finset.card_erase_of_mem hmem]
    have := Finset.card_pos.mpr ⟨e, hmem⟩
    omega
  · rename_i h
    have hnot : e ∉ b.counted f := fun hmem =>
      h ⟨(mem_counted.mp hmem).2.1, (mem_counted.mp hmem).2.2 t⟩
    rw [Finset.erase_eq_of_notMem hnot]
    rfl

/-! ### Moves -/

/-- A move of `t` on the entry `e`, which nobody else relies on. -/
theorem Book.Sound.change (hs : b.Sound) (hdom : b'.dom = b.dom) (he : e ∈ b.dom)
    (hfree : b.Free t e) (hhand : ∀ t', t' ≠ t → b'.hand t' = b.hand t')
    (hentry : ∀ x, x ≠ e → b'.entry x = b.entry x)
    (hseen : ∀ x v, (x, v) ∈ (b'.hand t).seen →
      b'.entry x = v ∧ (x = e ∨ x ∈ (b.hand t).window))
    (hgap : ∀ x, (b'.hand t).gap = some x → x ∈ (b'.hand t).window)
    (hgaps : ∀ x, x ≠ e → ((b'.hand t).gap = some x ↔ (b.hand t).gap = some x))
    (hbal : ∀ f, b'.ref f + b.weight t e f + (b.hand t).refs.count f =
      b.ref f + b'.weight t e f + (b'.hand t).refs.count f) : b'.Sound := by
  have hwindow : ∀ x, x ∈ (b'.hand t).window → x = e ∨ x ∈ (b.hand t).window := by
    intro x hx
    obtain ⟨v, hv⟩ := Hand.mem_window.mp hx
    exact (hseen x v hv).2
  have hothers : ∀ t' x, t' ≠ t → x ∈ (b'.hand t).window → x ∉ (b.hand t').window := by
    intro t' x hne hx hx'
    rcases hwindow x hx with rfl | hx
    · exact hfree t' hne hx'
    · exact hs.apart hne hx' hx
  have hfree' : b'.Free t e := by
    intro t' hne
    rw [hhand t' hne]
    exact hfree t' hne
  have hinside : ∀ {t' x}, x ∈ (b'.hand t').window → x ∈ b'.dom := by
    intro t' x hx
    rw [hdom]
    by_cases ht : t' = t
    · subst ht
      rcases hwindow x hx with rfl | hx
      · exact he
      · exact hs.inside hx
    · rw [hhand t' ht] at hx
      exact hs.inside hx
  have hgap' : ∀ {t' x}, (b'.hand t').gap = some x → x ∈ (b'.hand t').window := by
    intro t' x hx
    by_cases ht : t' = t
    · subst ht
      exact hgap x hx
    · rw [hhand t' ht] at hx ⊢
      exact hs.gap hx
  refine ⟨?_, hinside, ?_, hgap', ?_⟩
  · intro t' x v hx
    by_cases ht : t' = t
    · subst ht
      exact (hseen x v hx).1
    · rw [hhand t' ht] at hx
      rw [hentry x]
      · exact hs.seen hx
      · intro hxe
        subst hxe
        exact hfree t' ht (Hand.mem_window.mpr ⟨v, hx⟩)
  · intro t₁ t₂ x hne hx hx'
    by_cases h₁ : t₁ = t
    · subst h₁
      rw [hhand t₂ hne.symm] at hx'
      exact hothers t₂ x hne.symm hx hx'
    · rw [hhand t₁ h₁] at hx
      by_cases h₂ : t₂ = t
      · subst h₂
        exact hothers t₁ x h₁ hx' hx
      · rw [hhand t₂ h₂] at hx'
        exact hs.apart hne hx hx'
  · intro f
    have herase : (b'.counted f).erase e = (b.counted f).erase e := by
      ext x
      simp only [counted, Finset.mem_erase, Finset.mem_filter, hdom]
      refine and_congr_right fun hx => ?_
      rw [hentry x hx]
      refine and_congr_right fun _ => and_congr_right fun _ => forall_congr' fun t' => ?_
      by_cases ht : t' = t
      · subst ht
        exact not_congr (hgaps x hx)
      · rw [hhand t' ht]
    have hbefore := card_counted hs.gap hfree he f
    have hafter := card_counted hgap' hfree' (by rw [hdom]; exact he) f
    have hsum := sum_refs hhand f
    have hbal := hbal f
    have hold := hs.balanced f
    rw [herase] at hafter
    omega

/-- A move of `t` that leaves the entries and the gaps alone. -/
theorem Book.Sound.keep_gap (hs : b.Sound) (hdom : b'.dom = b.dom) (hentry : b'.entry = b.entry)
    (hhand : ∀ t', t' ≠ t → b'.hand t' = b.hand t')
    (hseen : ∀ x ∈ (b'.hand t).seen, x ∈ (b.hand t).seen) (hgap : (b'.hand t).gap = (b.hand t).gap)
    (hgap' : ∀ x, (b'.hand t).gap = some x → x ∈ (b'.hand t).window)
    (hbal : ∀ f, b'.ref f + (b.hand t).refs.count f = b.ref f + (b'.hand t).refs.count f) :
    b'.Sound := by
  have hsub : ∀ {t' x}, x ∈ (b'.hand t').seen → x ∈ (b.hand t').seen := by
    intro t' x hx
    by_cases ht : t' = t
    · subst ht
      exact hseen x hx
    · rw [← hhand t' ht]
      exact hx
  have hwindow : ∀ {t' x}, x ∈ (b'.hand t').window → x ∈ (b.hand t').window := by
    intro t' x hx
    obtain ⟨v, hv⟩ := Hand.mem_window.mp hx
    exact Hand.mem_window.mpr ⟨v, hsub hv⟩
  have hgaps : ∀ t', (b'.hand t').gap = (b.hand t').gap := by
    intro t'
    by_cases ht : t' = t
    · rw [ht, hgap]
    · rw [hhand t' ht]
  refine ⟨?_, ?_, ?_, ?_, ?_⟩
  · intro t' x v hx
    rw [hentry]
    exact hs.seen (hsub hx)
  · intro t' x hx
    rw [hdom]
    exact hs.inside (hwindow hx)
  · intro t₁ t₂ x hne hx hx'
    exact hs.apart hne (hwindow hx) (hwindow hx')
  · intro t' x hx
    by_cases ht : t' = t
    · subst ht
      exact hgap' x hx
    · rw [hhand t' ht] at hx ⊢
      exact hs.gap hx
  · intro f
    have hcounted : b'.counted f = b.counted f := by
      unfold counted
      rw [hdom, hentry]
      simp only [hgaps]
    have hsum := sum_refs hhand f
    have hbal := hbal f
    have hold := hs.balanced f
    rw [hcounted]
    omega

theorem Book.Sound.keep (hs : b.Sound) (hdom : b'.dom = b.dom) (hentry : b'.entry = b.entry)
    (hhand : ∀ t', t' ≠ t → b'.hand t' = b.hand t')
    (hseen : ∀ x ∈ (b'.hand t).seen, x ∈ (b.hand t).seen) (hgap : (b.hand t).gap = none)
    (hgap' : (b'.hand t).gap = none)
    (hbal : ∀ f, b'.ref f + (b.hand t).refs.count f = b.ref f + (b'.hand t).refs.count f) :
    b'.Sound :=
  hs.keep_gap hdom hentry hhand hseen (hgap'.trans hgap.symm) (fun x hx => by rw [hgap'] at hx; cases hx)
    hbal

/-! ### What a thread may count on -/

theorem Book.Sound.pos_of_ref (hs : b.Sound) (hf : f ∈ (b.hand t).refs) : 0 < b.ref f := by
  have hsum := Finset.add_sum_erase Finset.univ (fun x => (b.hand x).refs.count f) (Finset.mem_univ t)
  have hpos := List.count_pos_iff.mpr hf
  have := hs.balanced f
  omega

theorem Book.Sound.pos_of_seen (hs : b.Sound) (he : (e, some f) ∈ (b.hand t).seen)
    (hgap : (b.hand t).gap ≠ some e) : 0 < b.ref f := by
  have hwindow : e ∈ (b.hand t).window := Hand.mem_window.mpr ⟨_, he⟩
  have hmem : e ∈ b.counted f := by
    refine mem_counted.mpr ⟨hs.inside hwindow, hs.seen he, fun t' hgap' => ?_⟩
    by_cases ht : t' = t
    · subst ht
      exact hgap hgap'
    · exact hs.apart ht (hs.gap hgap') hwindow
  have hpos := Finset.card_pos.mpr ⟨e, hmem⟩
  have := hs.balanced f
  omega

omit [DecidableEq T] in
theorem Book.Sound.pos_of_counted (hs : b.Sound) (he : e ∈ b.counted f) : 0 < b.ref f := by
  have hpos := Finset.card_pos.mpr ⟨e, he⟩
  have := hs.balanced f
  omega

theorem Book.Sound.two_of_refs {t' : T} (hs : b.Sound) (hne : t' ≠ t) (hf : f ∈ (b.hand t).refs)
    (hf' : f ∈ (b.hand t').refs) : 2 ≤ b.ref f := by
  have hsum := Finset.add_sum_erase Finset.univ (fun x => (b.hand x).refs.count f) (Finset.mem_univ t)
  have hle : (b.hand t').refs.count f ≤ ∑ x ∈ Finset.univ.erase t, (b.hand x).refs.count f :=
    Finset.single_le_sum (f := fun x => (b.hand x).refs.count f) (fun _ _ => Nat.zero_le _)
      (Finset.mem_erase.mpr ⟨hne, Finset.mem_univ t'⟩)
  have hpos := List.count_pos_iff.mpr hf
  have hpos' := List.count_pos_iff.mpr hf'
  have := hs.balanced f
  omega

/-- Some threads have a reference each, and `t` has one. -/
theorem Book.Sound.card_lt_ref (hs : b.Sound) {S : Finset T} (hS : ∀ t' ∈ S, f ∈ (b.hand t').refs)
    (ht : t ∉ S) (hf : f ∈ (b.hand t).refs) : S.card < b.ref f := by
  have hone : ∀ t' ∈ insert t S, 1 ≤ (b.hand t').refs.count f := by
    intro t' ht'
    rcases Finset.mem_insert.mp ht' with rfl | ht'
    · exact List.count_pos_iff.mpr hf
    · exact List.count_pos_iff.mpr (hS t' ht')
  have hcard : (insert t S).card ≤ ∑ t' ∈ insert t S, (b.hand t').refs.count f := by
    simpa using Finset.card_nsmul_le_sum (insert t S) (fun t' => (b.hand t').refs.count f) 1 hone
  have hsum : ∑ t' ∈ insert t S, (b.hand t').refs.count f ≤ ∑ t', (b.hand t').refs.count f :=
    Finset.sum_le_sum_of_subset (Finset.subset_univ _)
  rw [Finset.card_insert_of_notMem ht] at hcard
  have := hs.balanced f
  omega

theorem Book.Sound.two_of_counted (hs : b.Sound) (he : e ∈ b.counted f) (hf : f ∈ (b.hand t).refs) :
    2 ≤ b.ref f := by
  have hsum := Finset.add_sum_erase Finset.univ (fun x => (b.hand x).refs.count f) (Finset.mem_univ t)
  have hpos := List.count_pos_iff.mpr hf
  have hpos' := Finset.card_pos.mpr ⟨e, he⟩
  have := hs.balanced f
  omega

omit [DecidableEq T] in
theorem Book.Sound.counted_eq {e' : E} (hs : b.Sound) (he : e ∈ b.counted f) (he' : e' ∈ b.counted f)
    (hone : b.ref f = 1) : e' = e := by
  have hcard : (b.counted f).card ≤ 1 := by
    have := hs.balanced f
    omega
  exact Finset.card_le_one.mp hcard e' he' e he

theorem count_backs (h : Hand F E) (v : Option F) (g : F) :
    (h.backs e v).count g = if v = some g ∧ h.gap ≠ some e then 1 else 0 := by
  unfold Hand.backs
  cases v with
  | none => simp
  | some w =>
    by_cases hgap : h.gap = some e
    · simp [hgap]
    · simp [hgap, List.count_singleton]

/-! ### The rules

`h'` is what `t` has in hand after the move; it may rely on less than before. -/

namespace Book

def setHand (b : Book F E T) (t : T) (h : Hand F E) : Book F E T :=
  {b with hand := update b.hand t h}

def setEntry (b : Book F E T) (e : E) (v : Option F) : Book F E T :=
  {b with entry := update b.entry e v}

def setRef (b : Book F E T) (f : F) (n : Nat) : Book F E T :=
  {b with ref := update b.ref f n}

omit [DecidableEq F] [DecidableEq E] [Fintype T] in
@[simp]
theorem setHand_self (b : Book F E T) (t : T) : b.setHand t (b.hand t) = b := by
  simp [setHand]

omit [DecidableEq F] [DecidableEq E] [Fintype T] in
theorem setHand_comm (b : Book F E T) (hne : t ≠ u) (h h' : Hand F E) :
    (b.setHand t h).setHand u h' = (b.setHand u h').setHand t h := by
  simp only [setHand]
  rw [update_comm hne]

namespace Sound

variable {h' : Hand F E} {ref' : F → Nat} {v : Option F}

section
variable (hs : b.Sound)
include hs

theorem move (hseen : ∀ x ∈ h'.seen, x ∈ (b.hand t).seen)
    (hgap : (b.hand t).gap = none) (hgap' : h'.gap = none)
    (hbal : ∀ g, ref' g + (b.hand t).refs.count g = b.ref g + h'.refs.count g) :
    ({b.setHand t h' with ref := ref'} : Book F E T).Sound := by
  refine hs.keep (t := t) rfl rfl (fun t' hne => update_of_ne hne _ _) ?_ hgap ?_ ?_
  · intro x hx
    refine hseen x ?_
    simpa [setHand] using hx
  · simpa [setHand] using hgap'
  · intro g
    simpa [setHand] using hbal g

theorem hold (hseen : ∀ x ∈ h'.seen, x ∈ (b.hand t).seen)
    (hgap : (b.hand t).gap = none) (hgap' : h'.gap = none) (hrefs : h'.refs.Perm (b.hand t).refs) :
    (b.setHand t h').Sound :=
  hs.move hseen hgap hgap' fun g => by rw [hrefs.count_eq]

theorem inc (hseen : ∀ x ∈ h'.seen, x ∈ (b.hand t).seen)
    (hgap : (b.hand t).gap = none) (hgap' : h'.gap = none)
    (hrefs : h'.refs.Perm (f :: (b.hand t).refs)) :
    ((b.setHand t h').setRef f (b.ref f + 1)).Sound :=
  hs.move hseen hgap hgap' (count_up hrefs)

/-- An object that nobody has a reference to is given out. -/
theorem alloc (hf : b.ref f = 0) (hseen : ∀ x ∈ h'.seen, x ∈ (b.hand t).seen)
    (hgap : (b.hand t).gap = none) (hgap' : h'.gap = none)
    (hrefs : h'.refs.Perm (f :: (b.hand t).refs)) : ((b.setHand t h').setRef f 1).Sound := by
  have h := hs.inc hseen hgap hgap' hrefs
  rw [hf] at h
  exact h

theorem drop (hseen : ∀ x ∈ h'.seen, x ∈ (b.hand t).seen)
    (hgap : (b.hand t).gap = none) (hgap' : h'.gap = none)
    (hrefs : (b.hand t).refs.Perm (f :: h'.refs)) :
    ((b.setHand t h').setRef f (b.ref f - 1)).Sound :=
  hs.move hseen hgap hgap' fun g =>
    count_down hrefs g (hs.pos_of_ref (hrefs.mem_iff.mpr List.mem_cons_self))

/-- A reference in hand is dropped, whatever else the thread is at. -/
theorem letGo {r : List F} (hrefs : (b.hand t).refs.Perm (f :: r)) :
    ((b.setHand t {b.hand t with refs := r}).setRef f (b.ref f - 1)).Sound := by
  have hpos := hs.pos_of_ref (hrefs.mem_iff.mpr List.mem_cons_self)
  have hhand : ((b.setHand t {b.hand t with refs := r}).setRef f (b.ref f - 1)).hand t =
      {b.hand t with refs := r} := update_self ..
  refine hs.keep_gap (t := t) rfl rfl (fun t' hne => update_of_ne hne _ _) ?_ ?_ ?_ ?_
  · intro x hx
    rw [hhand] at hx
    exact hx
  · rw [hhand]
  · intro x hx
    rw [hhand] at hx ⊢
    exact hs.gap hx
  · rw [hhand]
    exact fun g => count_down hrefs g hpos

theorem pass {h : Hand F E} (hne : u ≠ t)
    (hseen : ∀ x ∈ h.seen, x ∈ (b.hand t).seen) (hgap : (b.hand t).gap = none) (hgap' : h.gap = none)
    (hrefs : (b.hand t).refs.Perm (f :: h.refs)) (hseen' : ∀ x ∈ h'.seen, x ∈ (b.hand u).seen)
    (hgapu : (b.hand u).gap = none) (hgapu' : h'.gap = none)
    (hrefs' : h'.refs.Perm (f :: (b.hand u).refs)) : ((b.setHand t h).setHand u h').Sound := by
  have hpos := hs.pos_of_ref (hrefs.mem_iff.mpr List.mem_cons_self)
  have hdrop := hs.drop hseen hgap hgap' hrefs
  have hhand : ((b.setHand t h).setRef f (b.ref f - 1)).hand u = b.hand u := update_of_ne hne _ _
  have hkeep : ((((b.setHand t h).setRef f (b.ref f - 1)).setHand u h').setRef f
      (((b.setHand t h).setRef f (b.ref f - 1)).ref f + 1)) = (b.setHand t h).setHand u h' := by
    simp only [setRef, setHand, update_self, update_idem, Nat.sub_add_cancel hpos,
      update_eq_self]
  rw [← hkeep]
  exact hdrop.inc (by rw [hhand]; exact hseen') (by rw [hhand]; exact hgapu) hgapu'
    (by rw [hhand]; exact hrefs')

/-- A move on one entry, which `t` leaves with `v` in it. -/
theorem write (he : e ∈ b.dom) (hfree : b.Free t e)
    (hseen : ∀ x ∈ h'.seen, x = (e, v) ∨ (x ∈ (b.hand t).seen ∧ x.1 ≠ e))
    (hgap : (b.hand t).gap = none ∨ (b.hand t).gap = some e)
    (hgap' : h'.gap = none ∨ h'.gap = some e ∧ e ∈ h'.window)
    (hbal : ∀ g, ref' g + ((b.hand t).backs e (b.entry e) ++ (b.hand t).refs).count g =
      b.ref g + (h'.backs e v ++ h'.refs).count g) :
    ({(b.setHand t h').setEntry e v with ref := ref'} : Book F E T).Sound := by
  have hhand : ((b.setHand t h').setEntry e v).hand t = h' := update_self ..
  refine hs.change (t := t) (e := e) rfl he hfree (fun t' hne => update_of_ne hne _ _)
    (fun x hne => update_of_ne hne _ _) ?_ ?_ ?_ ?_
  · intro x w hx
    rw [hhand] at hx
    rcases hseen _ hx with heq | ⟨hx, hne⟩
    · cases heq
      exact ⟨update_self .., .inl rfl⟩
    · refine ⟨?_, .inr (Hand.mem_window.mpr ⟨w, hx⟩)⟩
      show update b.entry e v x = w
      rw [update_of_ne hne]
      exact hs.seen hx
  · intro x hx
    rw [hhand] at hx ⊢
    rcases hgap' with hnone | ⟨hsome, hmem⟩
    · rw [hnone] at hx
      cases hx
    · rw [hsome] at hx
      cases hx
      exact hmem
  · intro x hne
    rw [hhand]
    rcases hgap with hg | hg <;> rcases hgap' with hg' | ⟨hg', -⟩ <;> simp [hg, hg', Ne.symm hne]
  · intro g
    have hentry : ((b.setHand t h').setEntry e v).entry e = v := update_self ..
    have hbal := hbal g
    rw [List.count_append, List.count_append, count_backs, count_backs] at hbal
    simp only [weight, hhand, hentry]
    omega

theorem store (he : e ∈ b.dom) (hfree : b.Free t e)
    (hseen : ∀ x ∈ h'.seen, x = (e, v) ∨ (x ∈ (b.hand t).seen ∧ x.1 ≠ e))
    (hgap : (b.hand t).gap = none ∨ (b.hand t).gap = some e)
    (hgap' : h'.gap = none ∨ h'.gap = some e ∧ e ∈ h'.window)
    (hbal : ((b.hand t).backs e (b.entry e) ++ (b.hand t).refs).Perm (h'.backs e v ++ h'.refs)) :
    ((b.setHand t h').setEntry e v).Sound :=
  hs.write he hfree hseen hgap hgap' fun g => by rw [hbal.count_eq]; rfl

end

omit [DecidableEq F] [Fintype T] [DecidableEq T] in
theorem split_seen (hs : ∀ {e v}, (e, v) ∈ (b.hand t).seen → b.entry e = v) {x : E × Option F}
    (hx : x ∈ (b.hand t).seen) : x = (e, b.entry e) ∨ (x ∈ (b.hand t).seen ∧ x.1 ≠ e) := by
  by_cases hxe : x.1 = e
  · refine .inl (Prod.ext hxe ?_)
    rw [← hxe]
    exact (hs hx).symm
  · exact .inr ⟨hx, hxe⟩

section
variable (hs : b.Sound)
include hs

/-- `t` looks at an entry that nobody else relies on. -/
theorem look (he : e ∈ b.dom) (hfree : b.Free t e)
    (hseen : ∀ x ∈ h'.seen, x = (e, b.entry e) ∨ x ∈ (b.hand t).seen)
    (hgap : (b.hand t).gap = none) (hgap' : h'.gap = none) (hrefs : h'.refs.Perm (b.hand t).refs) :
    (b.setHand t h').Sound := by
  have hkeep : ((b.setHand t h').setEntry e (b.entry e)) = b.setHand t h' := by
    simp [setEntry, setHand]
  rw [← hkeep]
  refine hs.store he hfree (fun x hx => ?_) (.inl hgap) (.inl hgap') ?_
  · rcases hseen x hx with h | h
    · exact .inl h
    · exact split_seen hs.seen h
  · simpa [Hand.backs, hgap, hgap', List.perm_append_left_iff] using hrefs.symm

/-- The reference of an entry is taken in hand, ahead of the entry. -/
theorem adopt (he : e ∈ b.dom) (hfree : b.Free t e) (hentry : b.entry e = some f)
    (hseen : ∀ x ∈ h'.seen, x = (e, some f) ∨ (x ∈ (b.hand t).seen ∧ x.1 ≠ e))
    (hwindow : e ∈ h'.window) (hgap : (b.hand t).gap = none) (hgap' : h'.gap = some e)
    (hrefs : h'.refs.Perm (f :: (b.hand t).refs)) : (b.setHand t h').Sound := by
  have hkeep : ((b.setHand t h').setEntry e (some f)) = b.setHand t h' := by
    simp [setEntry, setHand, ← hentry]
  rw [← hkeep]
  refine hs.store he hfree hseen (.inl hgap) (.inr ⟨hgap', hwindow⟩) ?_
  simpa [Hand.backs, hgap, hgap', hentry] using hrefs.symm

/-- A reference in hand goes into an empty entry. -/
theorem put (he : e ∈ b.dom) (hfree : b.Free t e) (hnone : b.entry e = none)
    (hseen : ∀ x ∈ h'.seen, x = (e, some f) ∨ (x ∈ (b.hand t).seen ∧ x.1 ≠ e))
    (hgap : (b.hand t).gap = none) (hgap' : h'.gap = none)
    (hrefs : (b.hand t).refs.Perm (f :: h'.refs)) :
    ((b.setHand t h').setEntry e (some f)).Sound := by
  refine hs.store he hfree hseen (.inl hgap) (.inl hgap') ?_
  simpa [Hand.backs, hgap, hgap', hnone] using hrefs

/-- An entry is taken out, with its reference. -/
theorem take (he : (e, some f) ∈ (b.hand t).seen)
    (hseen : ∀ x ∈ h'.seen, x ∈ (b.hand t).seen ∧ x.1 ≠ e) (hgap : (b.hand t).gap = none)
    (hgap' : h'.gap = none) (hrefs : h'.refs.Perm (f :: (b.hand t).refs)) :
    ((b.setHand t h').setEntry e none).Sound := by
  have hwindow : e ∈ (b.hand t).window := Hand.mem_window.mpr ⟨_, he⟩
  refine hs.store (hs.inside hwindow) (hs.free hwindow) (fun x hx => .inr (hseen x hx)) (.inl hgap)
    (.inl hgap') ?_
  simpa [Hand.backs, hgap, hgap', hs.seen he] using hrefs.symm

/-- The reference of an entry is dropped ahead of the entry. -/
theorem strip (he : (e, some f) ∈ (b.hand t).seen)
    (hseen : ∀ x ∈ h'.seen, x ∈ (b.hand t).seen) (hwindow' : e ∈ h'.window)
    (hgap : (b.hand t).gap = none) (hgap' : h'.gap = some e)
    (hrefs : h'.refs.Perm (b.hand t).refs) :
    ((b.setHand t h').setRef f (b.ref f - 1)).Sound := by
  have hwindow : e ∈ (b.hand t).window := Hand.mem_window.mpr ⟨_, he⟩
  have hpos := hs.pos_of_seen he (by rw [hgap]; nofun)
  have hkeep : ((b.setHand t h').setEntry e (some f)).setRef f (b.ref f - 1) =
      (b.setHand t h').setRef f (b.ref f - 1) := by
    simp [setEntry, setHand, setRef, ← hs.seen he]
  rw [← hkeep]
  refine hs.write (hs.inside hwindow) (hs.free hwindow) (fun x hx => ?_) (.inl hgap)
    (.inr ⟨hgap', hwindow'⟩) fun g => count_down ?_ g hpos
  · rw [← hs.seen he]
    exact split_seen hs.seen (hseen x hx)
  · simpa [Hand.backs, hgap, hgap', hs.seen he] using hrefs.symm

/-- An entry with a gap gets a new value, for which there is a reference in hand, or is
emptied. -/
theorem close (hgap : (b.hand t).gap = some e)
    (hseen : ∀ x ∈ h'.seen, x = (e, v) ∨ (x ∈ (b.hand t).seen ∧ x.1 ≠ e)) (hgap' : h'.gap = none)
    (hrefs : (b.hand t).refs.Perm (v.toList ++ h'.refs)) :
    ((b.setHand t h').setEntry e v).Sound := by
  have hwindow := hs.gap hgap
  refine hs.store (hs.inside hwindow) (hs.free hwindow) hseen (.inr hgap) (.inl hgap') ?_
  simpa [Hand.backs, hgap, hgap'] using hrefs

/-- An empty entry is filled ahead of its reference. -/
theorem lead (he : e ∈ b.dom) (hfree : b.Free t e) (hnone : b.entry e = none)
    (hseen : ∀ x ∈ h'.seen, x = (e, some f) ∨ (x ∈ (b.hand t).seen ∧ x.1 ≠ e))
    (hwindow : e ∈ h'.window) (hgap : (b.hand t).gap = none) (hgap' : h'.gap = some e)
    (hrefs : h'.refs.Perm (b.hand t).refs) : ((b.setHand t h').setEntry e (some f)).Sound := by
  refine hs.store he hfree hseen (.inl hgap) (.inr ⟨hgap', hwindow⟩) ?_
  simpa [Hand.backs, hgap, hgap', hnone] using hrefs.symm

/-- The reference of an entry with a gap is made. -/
theorem cover (hgap : (b.hand t).gap = some e) (he : (e, some f) ∈ (b.hand t).seen)
    (hseen : ∀ x ∈ h'.seen, x ∈ (b.hand t).seen) (hgap' : h'.gap = none)
    (hrefs : h'.refs.Perm (b.hand t).refs) :
    ((b.setHand t h').setRef f (b.ref f + 1)).Sound := by
  have hwindow := hs.gap hgap
  have hkeep : ((b.setHand t h').setEntry e (some f)).setRef f (b.ref f + 1) =
      (b.setHand t h').setRef f (b.ref f + 1) := by
    simp [setEntry, setHand, setRef, ← hs.seen he]
  rw [← hkeep]
  refine hs.write (hs.inside hwindow) (hs.free hwindow) (fun x hx => ?_) (.inr hgap) (.inl hgap')
    (count_up ?_)
  · rw [← hs.seen he]
    exact split_seen hs.seen (hseen x hx)
  · simpa [Hand.backs, hgap, hgap', hs.seen he] using hrefs

end

omit [DecidableEq T] in
/-- Entries that are empty come and go. -/
theorem resize (hs : b.Sound) {dom' : Finset E} (hinside : ∀ {t e}, e ∈ (b.hand t).window → e ∈ dom')
    (hempty : ∀ e, b.entry e ≠ none → (e ∈ dom' ↔ e ∈ b.dom)) :
    ({b with dom := dom'} : Book F E T).Sound := by
  refine ⟨hs.seen, hinside, hs.apart, hs.gap, fun g => ?_⟩
  have hcounted : ({b with dom := dom'} : Book F E T).counted g = b.counted g := by
    ext x
    simp only [counted, Finset.mem_filter]
    refine and_congr_left fun h => hempty x ?_
    rw [h.1]
    nofun
  rw [hcounted]
  exact hs.balanced g

end Sound

end Book

/-! ### The equation -/

/-- The entries that point at `f`. -/
def Book.pointing (b : Book F E T) (f : F) : Finset E := b.dom.filter fun e => b.entry e = some f

/-- Those of them that are without a reference at this moment. -/
def Book.owed (b : Book F E T) (f : F) : Finset E :=
  b.dom.filter fun e => b.entry e = some f ∧ ∃ t, (b.hand t).gap = some e

omit [DecidableEq T] in
theorem card_pointing (f : F) : (b.pointing f).card = (b.counted f).card + (b.owed f).card := by
  have hcounted : b.counted f = (b.pointing f).filter fun e => ∀ t, (b.hand t).gap ≠ some e := by
    rw [counted, pointing, Finset.filter_filter]
  have howed : b.owed f = (b.pointing f).filter fun e => ¬ ∀ t, (b.hand t).gap ≠ some e := by
    rw [owed, pointing, Finset.filter_filter]
    simp only [ne_eq, not_forall, not_not]
  rw [hcounted, howed, Finset.card_filter_add_card_filter_not]

omit [DecidableEq T] in
theorem Book.Sound.exact (hs : b.Sound) (f : F) :
    b.ref f + (b.owed f).card = (b.pointing f).card + ∑ t, (b.hand t).refs.count f := by
  have := hs.balanced f
  have := card_pointing (b := b) f
  omega

omit [DecidableEq T] in
/-- Every count is what the entries and the hands make it just when there is no gap. -/
theorem Book.Sound.exact_iff (hs : b.Sound)
    (hfull : ∀ {t e}, (b.hand t).gap = some e → b.entry e ≠ none) :
    (∀ f, b.ref f = (b.pointing f).card + ∑ t, (b.hand t).refs.count f) ↔
      ∀ t, (b.hand t).gap = none := by
  constructor
  · intro h t
    by_contra hgap
    obtain ⟨e, he⟩ := Option.ne_none_iff_exists'.mp hgap
    obtain ⟨f, hf⟩ := Option.ne_none_iff_exists'.mp (hfull he)
    have hmem : e ∈ b.owed f := Finset.mem_filter.mpr ⟨hs.inside (hs.gap he), hf, t, he⟩
    have := Finset.card_pos.mpr ⟨e, hmem⟩
    have := hs.exact f
    have := h f
    omega
  · intro h f
    have hnone : b.owed f = ∅ := by
      refine Finset.filter_eq_empty_iff.mpr fun e _ he => ?_
      obtain ⟨t, ht⟩ := he.2
      rw [h t] at ht
      cases ht
    have := hs.exact f
    rw [hnone, Finset.card_empty] at this
    exact this

/-! ### Holders of one object each -/

section
variable {H O : Type} [Fintype H] [DecidableEq H] [DecidableEq O] {holds holds' : H → Option O}
  {o : O} {a : H}

/-- How many hold `o`. -/
def holders (holds : H → Option O) (o : O) : Nat :=
  (Finset.univ.filter fun h => holds h = some o).card

omit [DecidableEq H] in
theorem holders_pos (h : holds a = some o) : 0 < holders holds o :=
  Finset.card_pos.mpr ⟨a, Finset.mem_filter.mpr ⟨Finset.mem_univ a, h⟩⟩

theorem holders_update (a : H) (hrest : ∀ h, h ≠ a → holds' h = holds h) (o : O) :
    holders holds' o + (if holds a = some o then 1 else 0) =
      holders holds o + (if holds' a = some o then 1 else 0) := by
  have herase : ∀ f : H → Option O, holders f o =
      ((Finset.univ.erase a).filter fun h => f h = some o).card + if f a = some o then 1 else 0 := by
    intro f
    unfold holders
    rw [← Finset.insert_erase (Finset.mem_univ a), Finset.filter_insert]
    split
    · rw [Finset.card_insert_of_notMem (by simp), Finset.insert_erase (Finset.mem_univ a)]
    · rw [Finset.insert_erase (Finset.mem_univ a), Nat.add_zero]
  have hsame : ((Finset.univ.erase a).filter fun h => holds' h = some o) =
      (Finset.univ.erase a).filter fun h => holds h = some o :=
    Finset.filter_congr fun h hh => by rw [hrest h (Finset.ne_of_mem_erase hh)]
  rw [herase holds, herase holds', hsame]
  omega

/-- One holder changes; the others have what they had, or nothing. -/
theorem holders_change (a : H) (hrest : ∀ h, h ≠ a → holds' h = holds h ∨ holds' h = none) (o : O) :
    holders holds' o + (if holds a = some o then 1 else 0) ≤
      holders holds o + (if holds' a = some o then 1 else 0) := by
  have hsub : (Finset.univ.filter fun h => holds' h = some o).erase a ⊆
      (Finset.univ.filter fun h => holds h = some o).erase a := by
    intro h hh
    simp only [Finset.mem_erase, Finset.mem_filter, Finset.mem_univ, true_and] at hh ⊢
    rcases hrest h hh.1 with heq | hnone
    · exact ⟨hh.1, heq ▸ hh.2⟩
    · rw [hnone] at hh
      cases hh.2
  have hcard := Finset.card_le_card hsub
  have herase : ∀ f : H → Option O, ((Finset.univ.filter fun h => f h = some o).erase a).card +
      (if f a = some o then 1 else 0) = holders f o := by
    intro f
    split
    · rename_i hmem
      exact Finset.card_erase_add_one (Finset.mem_filter.mpr ⟨Finset.mem_univ a, hmem⟩)
    · rename_i hmem
      have hnot : a ∉ Finset.univ.filter fun h => f h = some o := fun h =>
        hmem (Finset.mem_filter.mp h).2
      rw [Finset.erase_eq_of_notMem hnot]
      rfl
  have h := herase holds
  have h' := herase holds'
  omega

omit [DecidableEq H] in
theorem holders_mono (h : ∀ a, holds' a = some o → holds a = some o) :
    holders holds' o ≤ holders holds o := by
  refine Finset.card_le_card fun a ha => ?_
  simp only [Finset.mem_filter, Finset.mem_univ, true_and] at ha ⊢
  exact h a ha

omit [DecidableEq H] in
theorem holders_le_one {b : H} (h : ∀ a, holds a = some o → a = b) : holders holds o ≤ 1 := by
  refine Finset.card_le_one.mpr fun a ha a' ha' => ?_
  rw [h a (Finset.mem_filter.mp ha).2, h a' (Finset.mem_filter.mp ha').2]

theorem holders_pass {b : H} (hne : a ≠ b) (ha : holds' a = none) (hb : holds b = none)
    (hb' : holds' b = holds a)
    (hrest : ∀ h, h ≠ a → h ≠ b → holds' h = holds h ∨ holds' h = none) (o : O) :
    holders holds' o ≤ holders holds o := by
  have hlose := @holders_change H O _ _ _ holds (update holds a none) a
    (fun h hh => .inl (update_of_ne hh _ _)) o
  have hgain := @holders_change H O _ _ _ (update holds a none) holds' b
    (fun h hh => by
      by_cases hha : h = a
      · rw [hha]
        exact .inr ha
      · rw [update_of_ne hha]
        exact hrest h hha hh) o
  rw [update_self] at hlose
  rw [update_of_ne hne.symm, hb, hb'] at hgain
  omega

end

end Refcount
