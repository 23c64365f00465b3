import ThreadKernel.File.Struct

/-! What a step of the descriptor tables can be.

A turn of a thread is told by where the thread goes on (`Passes`) and by what happens to
the entries and the counts (`Effects`). The files of a call in progress are of two kinds:
those that it has allocated and not filled yet (`raw`), and those that it has found in the
table or filled itself (`ready`). -/
namespace ThreadKernel.File

open Refcount Lts Function

/-! ### The files of a call -/

def Origin.ready (f : FileId) : Origin → List FileId
  | dup _ | pipeWrite _ _ => [f]
  | pipeRead wf => [f, wf]
  | opens => []

namespace Call

def raw : Call → List FileId
  | fdalloc .opens f _ | fdstore .opens f _ => [f]
  | pipeSecond f0 => [f0]
  | pipePage f0 f1 => [f0, f1]
  | _ => []

def ready : Call → List FileId
  | fdalloc k f _ | fdstore k f _ => k.ready f
  | dupRef f _ _ | closeClear _ f | forkRead _ _ f | forkDup _ _ f | forkStore _ _ f | exitRead _ f
  | exitClose _ f => [f]
  | _ => []

end Call

/-- The files of a pipe that has its page. -/
def Outcome.files : Outcome → List FileId
  | .piped f0 f1 => [f0, f1]
  | .nothing | .opened _ _ | .finished | .dropped _ => []

/-! ### Turns -/

structure Passes (s : State) (p : Nat) (k : Call) (op : Op) (k' : Call) : Prop where
  ready : ∀ f ∈ k'.ready, f ∈ k.ready ∨ f ∈ (k.outcome op).files ∨
    ∃ fd ∈ k.fetches op, s.ofile (p, fd) = some f
  window : ∀ fd ∈ script.window k', fd ∈ script.window k ∨ s.ofile (p, fd) = none ∨ fd ∈ k.fetches op
  transit : ∀ fd ∈ k'.transit, fd ∈ k.transit ∨ s.ofile (p, fd) = none ∨ fd ∈ k.drops op
  fetched : ∀ f, k'.fetched = some f → k.fetched = some f ∨
    k = .idle ∧ ∃ fd, (op = .dup fd ∨ op = .close fd) ∧ s.ofile (p, fd) = some f

structure Effects (s s' : State) (p : Nat) (k : Call) (op : Op) (k' : Call) : Prop where
  keeps : ∀ e f, s.ofile e = some f → s'.ofile e = some f ∨ e.1 = p ∧ e.2 ∈ k.transit
  stores : ∀ e f, s'.ofile e = some f → s.ofile e = some f ∨ s.ofile e = none ∧
    (f ∈ k.ready ∨ ∃ fd, k.outcome op = .opened f fd ∧ e = (p, fd))
  ref : ∀ f, s'.ref f = s.ref f ∨ s.ref f = 0 ∧ s'.ref f = 1 ∨ f ∈ k.ready ∧ 0 < s'.ref f ∨
    k.outcome op = .dropped f
  raw : ∀ f ∈ k'.raw, f ∈ k.raw ∧ s'.ref f = s.ref f ∨ s.ref f = 0 ∧ s'.ref f = 1
  /-- An entry that was ahead of its reference or behind it is so no more, or still. -/
  gap : ∀ fd, k.gap = some fd → k'.gap = some fd ∨ s'.ofile (p, fd) = none ∨
    ∃ f ∈ k.ready, s'.ofile (p, fd) = some f
  live : ∀ p', p' < s.next → s'.live p' = s.live p'

structure Turn (s s' : State) (t : Slot) (p : Nat) (k : Call) (op : Op) (k' : Call) : Prop
    extends Passes s p k op k', Effects s s' p k op k' where
  own : s.thread t = some (p, k)
  next : s'.thread t = some (p, k')
  others : ∀ q, q ≠ t → s'.thread q = s.thread q ∨
    s.thread q = none ∧ ∃ p', s'.thread q = some (p', .idle)

variable {s s' : State} {t q : Slot} {p : Nat} {k k' : Call} {op : Op} {f : FileId} {fd : Fd}
  {e : Event}
  {found : FileId → Call}

/-! ### What happens to the entries and the counts -/

namespace Effects

theorem same (hofile : s'.ofile = s.ofile) (href : s'.ref = s.ref)
    (hlive : ∀ p', p' < s.next → s'.live p' = s.live p') (hraw : k'.raw ⊆ k.raw)
    (hgap : k.gap = none) : Effects s s' p k op k' where
  keeps := fun e f h => .inl (by rw [hofile]; exact h)
  stores := fun e f h => .inl (by rw [← hofile]; exact h)
  ref := fun f => .inl (by rw [href])
  raw := fun f h => .inl ⟨hraw h, by rw [href]⟩
  gap := fun fd h => by
    rw [hgap] at h
    cases h
  live := hlive

theorem count {n : Nat} (hofile : s'.ofile = s.ofile) (href : s'.ref = update s.ref f n)
    (hlive : s'.live = s.live)
    (hn : s.ref f = 0 ∧ n = 1 ∨ f ∈ k.ready ∧ 0 < n ∨ k.outcome op = .dropped f)
    (hraw : ∀ f' ∈ k'.raw, f' ∈ k.raw ∧ f' ≠ f ∨ f' = f ∧ s.ref f = 0 ∧ n = 1)
    (hgap : ∀ fd, k.gap = some fd → ∃ f ∈ k.ready, s.ofile (p, fd) = some f) :
    Effects s s' p k op k' where
  keeps := fun e f h => .inl (by rw [hofile]; exact h)
  stores := fun e f h => .inl (by rw [← hofile]; exact h)
  ref := fun f' => by
    rw [href]
    by_cases hf : f' = f
    · subst hf
      rw [update_self]
      exact .inr hn
    · exact .inl (update_of_ne hf _ _)
  raw := fun f' hf' => by
    rw [href]
    rcases hraw f' hf' with ⟨hmem, hne⟩ | ⟨rfl, h0, rfl⟩
    · exact .inl ⟨hmem, update_of_ne hne _ _⟩
    · exact .inr ⟨h0, update_self ..⟩
  gap := fun fd h => by
    rw [hofile]
    exact .inr (.inr (hgap fd h))
  live := fun p' _ => by rw [hlive]

theorem store {x : Nat × Fd} (hnone : s.ofile x = none)
    (hofile : s'.ofile = update s.ofile x (some f)) (href : s'.ref = s.ref)
    (hlive : s'.live = s.live)
    (hf : f ∈ k.ready ∨ ∃ fd, k.outcome op = .opened f fd ∧ x = (p, fd))
    (hraw : k'.raw ⊆ k.raw) (hgap : k.gap = none) : Effects s s' p k op k' where
  keeps := fun e f' h => by
    have hne : e ≠ x := by
      intro heq
      rw [heq, hnone] at h
      cases h
    rw [hofile, update_of_ne hne]
    exact .inl h
  stores := fun e f' h => by
    rw [hofile] at h
    by_cases hx : e = x
    · subst hx
      rw [update_self] at h
      cases h
      exact .inr ⟨hnone, hf⟩
    · rw [update_of_ne hx] at h
      exact .inl h
  ref := fun f => .inl (by rw [href])
  raw := fun f h => .inl ⟨hraw h, by rw [href]⟩
  gap := fun fd h => by
    rw [hgap] at h
    cases h
  live := fun p' _ => by rw [hlive]

theorem clear (hfd : fd ∈ k.transit) (hofile : s'.ofile = update s.ofile (p, fd) none)
    (href : s'.ref = s.ref) (hlive : s'.live = s.live) (hraw : k'.raw ⊆ k.raw)
    (hgap : ∀ fd', k.gap = some fd' → fd' = fd) : Effects s s' p k op k' where
  keeps := fun e f' h => by
    by_cases hx : e = (p, fd)
    · subst hx
      exact .inr ⟨rfl, hfd⟩
    · rw [hofile, update_of_ne hx]
      exact .inl h
  stores := fun e f' h => by
    rw [hofile] at h
    by_cases hx : e = (p, fd)
    · subst hx
      rw [update_self] at h
      cases h
    · rw [update_of_ne hx] at h
      exact .inl h
  ref := fun f => .inl (by rw [href])
  raw := fun f h => .inl ⟨hraw h, by rw [href]⟩
  gap := fun fd' h => by
    obtain rfl := hgap fd' h
    rw [hofile]
    exact .inr (.inl (update_self ..))
  live := fun p' _ => by rw [hlive]

end Effects

theorem Turn.refl (ht : s.thread t = some (p, k)) : Turn s s t p k op k where
  ready := fun _ hf => .inl hf
  window := fun _ hfd => .inl hfd
  transit := fun _ hfd => .inl hfd
  fetched := fun _ hf => .inl hf
  keeps := fun _ _ h => .inl h
  stores := fun _ _ h => .inl h
  ref := fun _ => .inl rfl
  raw := fun _ hf => .inl ⟨hf, rfl⟩
  gap := fun _ h => .inl h
  live := fun _ _ => rfl
  own := ht
  next := ht
  others := fun _ _ => .inl rfl

/-- A thread of no call appears in a slot that was free. -/
theorem Turn.spawn {p' : Nat} (h : Turn s s' t p k op k') (hq : s.thread q = none) (hne : q ≠ t) :
    Turn s (s'.setCall q p' .idle) t p k op k' where
  toPasses := h.toPasses
  toEffects := ⟨h.keeps, h.stores, h.ref, h.raw, h.gap, h.live⟩
  own := h.own
  next := by
    simp only [State.setCall, update_of_ne hne.symm]
    exact h.next
  others := fun q' hq' => by
    by_cases heq : q' = q
    · subst heq
      exact .inr ⟨hq, p', update_self ..⟩
    · simp only [State.setCall, update_of_ne heq]
      exact h.others q' hq'

namespace State

theorem turn_call (ht : s.thread t = some (p, k))
    (hthread : s'.thread = update s.thread t (some (p, k'))) (hpass : Passes s p k op k')
    (heffects : Effects s s' p k op k') : Turn s s' t p k op k' where
  toPasses := hpass
  toEffects := heffects
  own := ht
  next := by rw [hthread, update_self]
  others := fun q hne => .inl (by rw [hthread, update_of_ne hne])

theorem passes_of_subset (hready : k'.ready ⊆ k.ready) (hseen : k'.seen ⊆ k.seen)
    (htransit : k'.transit ⊆ k.transit) (hfetched : k'.fetched = none ∨ k'.fetched = k.fetched) :
    Passes s p k op k' where
  ready := fun _ hf => .inl (hready hf)
  window := fun _ hfd => .inl (List.map_subset _ hseen hfd)
  transit := fun _ hfd => .inl (htransit hfd)
  fetched := fun f hf => by
    rcases hfetched with hnone | heq
    · rw [hnone] at hf
      cases hf
    · exact .inl (heq ▸ hf)

theorem passes_of_nil (hready : k'.ready = []) (hseen : k'.seen = []) (htransit : k'.transit = [])
    (hfetched : k'.fetched = none) : Passes s p k op k' :=
  passes_of_subset (hready ▸ List.nil_subset _) (hseen ▸ List.nil_subset _)
    (htransit ▸ List.nil_subset _) (.inl hfetched)

section
variable (ht : s.thread t = some (p, k))
include ht

theorem turn_hold (hraw : k'.raw ⊆ k.raw) (hgap : k.gap = none)
    (hpass : Passes s p k op k') : Turn s (s.setCall t p k') t p k op k' :=
  turn_call ht rfl hpass (.same rfl rfl (fun _ _ => rfl) hraw hgap)

theorem turn_test {null : Call}
    (hgap : k.gap = none) (hraw : ∀ f, (found f).raw ⊆ k.raw) (hraw' : null.raw ⊆ k.raw)
    (hfound : ∀ f, s.ofile (p, fd) = some f → Passes s p k op (found f))
    (hnull : s.ofile (p, fd) = none → Passes s p k op null) :
    ∃ k', Turn s (s.test t p fd found null) t p k op k' := by
  unfold State.test
  split
  · rename_i f hf
    exact ⟨_, turn_hold ht (hraw f) hgap (hfound f hf)⟩
  · rename_i hnone
    exact ⟨_, turn_hold ht hraw' hgap (hnull hnone)⟩

theorem turn_round {i : Nat} {found : Fd → FileId → Call} {null : Fd → Call} (hgap : k.gap = none)
    (hraw : ∀ fd f, (found fd f).raw ⊆ k.raw) (hraw' : ∀ fd, (null fd).raw ⊆ k.raw)
    (hfound : ∀ fd f, fd.val = i → s.ofile (p, fd) = some f → Passes s p k op (found fd f))
    (hnull : ∀ fd, fd.val = i → s.ofile (p, fd) = none → Passes s p k op (null fd))
    (h : s.round t p i found null = some s') : ∃ k', Turn s s' t p k op k' := by
  unfold State.round at h
  split at h
  · cases h
    exact turn_test ht hgap (hraw _) (hraw' _) (fun f => hfound _ f rfl) (hnull _ rfl)
  · cases h

theorem turn_alloc (hgap : k.gap = none)
    (hraw : ∀ f, ∀ f' ∈ (found f).raw, f' ∈ k.raw ∧ 0 < s.ref f' ∨ f' = f)
    (hpass : ∀ f, Passes s p k op (found f)) (hraw' : k'.raw ⊆ k.raw) (hpass' : Passes s p k op k') :
    ∃ k'', Turn s (s.alloc t p found k') t p k op k'' := by
  unfold State.alloc
  split
  · rename_i f hf
    have hzero : s.ref f = 0 := by
      simpa using Fin.eq_true_of_find?_eq_some hf
    refine ⟨_, turn_call ht rfl (hpass f) (.count rfl rfl rfl (.inl ⟨hzero, rfl⟩) ?_ ?_)⟩
    · intro f' hf'
      rcases hraw f f' hf' with ⟨hmem, hpos⟩ | rfl
      · refine .inl ⟨hmem, fun heq => ?_⟩
        rw [heq, hzero] at hpos
        exact Nat.lt_irrefl 0 hpos
      · exact .inr ⟨rfl, hzero, rfl⟩
    · intro fd hfd
      rw [hgap] at hfd
      cases hfd
  · exact ⟨_, turn_hold ht hraw' hgap hpass'⟩

end

theorem Inv.turn_go (hi : s.Inv) (ht : s.thread t = some (p, k)) (h : s.go t p k = some (s', e))
    (hcalm : s'.panic = none) : ∃ k', Turn s s' t p k .go k' := by
  cases k with
  | fdalloc k f i =>
    cases hround : s.round t p i (fun _ _ => .fdalloc k f (i + 1)) (.fdstore k f) with
    | some s₁ =>
      simp only [State.go, hround] at h
      cases h
      refine turn_round ht rfl (fun _ _ => ?_) (fun _ => ?_) (fun fd f' _ _ => ?_)
        (fun fd _ hnone => ?_) hround
      · cases k <;> exact List.Subset.refl _
      · cases k <;> exact List.Subset.refl _
      · cases k <;> exact passes_of_subset (List.Subset.refl _) (List.Subset.refl _)
          (List.Subset.refl _) (.inr rfl)
      · refine ⟨fun _ hf => .inl hf, fun fd' hfd' => ?_, fun _ hfd' => .inl ?_, fun _ hf' => .inl ?_⟩
        · rcases List.mem_cons.mp hfd' with rfl | hmem
          · exact .inr (.inl hnone)
          · exact .inl hmem
        · cases k <;> exact hfd'
        · cases k <;> exact hf'
    | none =>
      simp only [State.go, hround] at h
      cases h
      refine ⟨_, turn_hold ht ?_ rfl ?_⟩
      · cases k <;> exact List.nil_subset _
      · cases k with
        | pipeWrite rf fd0 =>
          exact passes_of_subset (List.nil_subset _) (List.Subset.refl _) (List.Subset.refl _) (.inl rfl)
        | dup | opens | pipeRead =>
          exact passes_of_nil rfl rfl rfl rfl
  | fdstore k f fd =>
    cases h
    have hnone : s.ofile (p, fd) = none := hi.world.entry_of_seen ht List.mem_cons_self
    refine ⟨_, turn_call ht rfl ?_ (.store hnone rfl rfl rfl ?_ ?_ rfl)⟩
    · cases k with
      | opens | pipeWrite rf fd0 =>
        exact passes_of_nil rfl rfl rfl rfl
      | dup old =>
        refine ⟨fun _ hf => .inl hf, fun fd' hfd' => ?_, fun fd' hfd' => ?_, fun _ hf' => .inl hf'⟩
        · rcases List.mem_cons.mp hfd' with rfl | hmem
          · exact .inl (List.mem_cons_of_mem _ List.mem_cons_self)
          · rw [List.mem_singleton.mp hmem]
            exact .inl List.mem_cons_self
        · rw [List.mem_singleton.mp hfd']
          exact .inr (.inl hnone)
      | pipeRead wf =>
        refine ⟨fun f' hf' => .inl ?_, fun fd' hfd' => ?_, fun fd' hfd' => ?_, (by rintro _ ⟨⟩)⟩
        · exact List.mem_cons_of_mem _ hf'
        · rw [List.mem_singleton.mp hfd']
          exact .inr (.inl hnone)
        · rw [List.mem_singleton.mp hfd']
          exact .inr (.inl hnone)
    · cases k with
      | opens => exact .inr ⟨fd, rfl, rfl⟩
      | dup | pipeRead | pipeWrite => exact .inl List.mem_cons_self
    · cases k <;> exact List.nil_subset _
  | dupRef f old new =>
    cases h
    have hpass : Passes s p (.dupRef f old new) .go .idle :=
      passes_of_nil rfl rfl rfl rfl
    rw [filedup] at hcalm ⊢
    split at hcalm
    · cases hcalm
    · rename_i hpos
      rw [if_neg hpos]
      refine ⟨_, turn_call ht rfl hpass (.count rfl rfl rfl ?_ (by rintro _ ⟨⟩) fun fd hfd => ?_)⟩
      · exact .inr (.inl ⟨List.mem_cons_self, Nat.succ_pos _⟩)
      · cases hfd
        exact ⟨f, List.mem_cons_self,
          hi.world.entry_of_seen ht (List.mem_cons_of_mem _ List.mem_cons_self)⟩
  | closeClear fd f | pipeClear rf wf fd0 =>
    cases h
    exact ⟨_, turn_call ht rfl (passes_of_nil rfl rfl rfl rfl)
      (.clear List.mem_cons_self rfl rfl rfl (List.nil_subset _) (by rintro _ ⟨⟩))⟩
  | closing fs =>
    cases fs with
    | nil =>
      cases h
      exact ⟨_, turn_hold ht (List.nil_subset _) rfl
        (passes_of_nil rfl rfl rfl rfl)⟩
    | cons f fs =>
      cases h
      rw [fileclose] at hcalm ⊢
      split at hcalm
      · cases hcalm
      · rename_i hpos
        rw [if_neg hpos]
        exact ⟨_, turn_call ht rfl (passes_of_nil rfl rfl rfl rfl)
          (.count rfl rfl rfl (.inr (.inr rfl)) (by rintro _ ⟨⟩) (by rintro _ ⟨⟩))⟩
  | pipeSecond f0 =>
    rw [← fst_of_some h]
    have hpos : 0 < s.ref f0 := hi.world.pos_of_ref ht List.mem_cons_self
    refine turn_alloc ht rfl (fun f f' hf' => ?_) (fun f => ?_) (List.nil_subset _)
      (passes_of_nil rfl rfl rfl rfl)
    · rcases List.mem_cons.mp hf' with rfl | hf'
      · exact .inl ⟨List.mem_cons_self, hpos⟩
      · exact .inr (List.mem_singleton.mp hf')
    · exact passes_of_nil rfl rfl rfl rfl
  | forkTest np i =>
    obtain ⟨s₁, hround, heq⟩ := Option.map_eq_some_iff.mp h
    cases heq
    refine turn_round ht rfl (fun _ _ => List.nil_subset _) (fun _ => List.nil_subset _)
      (fun fd f hfd hf => ?_) (fun fd _ _ => ?_) hround
    · have hfetch : fd ∈ (Call.forkTest np i).fetches .go := by
        subst hfd
        simp [Call.fetches]
      refine ⟨fun f' hf' => ?_, fun fd' hfd' => ?_, (by rintro _ ⟨⟩), (by rintro _ ⟨⟩)⟩
      · rw [List.mem_singleton.mp hf']
        exact .inr (.inr ⟨fd, hfetch, hf⟩)
      · rw [List.mem_singleton.mp hfd']
        exact .inr (.inr hfetch)
    · exact passes_of_nil rfl rfl rfl rfl
  | forkRead np i f =>
    cases h
    have hentry : s.ofile (p, i) = some f := hi.world.entry_of_seen ht List.mem_cons_self
    rw [State.reread, hentry]
    exact ⟨_, turn_hold ht (List.nil_subset _) rfl
      (passes_of_subset (List.Subset.refl _) (List.Subset.refl _) (List.nil_subset _) (.inl rfl))⟩
  | forkDup np i f =>
    cases h
    rw [filedup] at hcalm ⊢
    split at hcalm
    · cases hcalm
    · rename_i hpos
      rw [if_neg hpos]
      exact ⟨_, turn_call ht rfl
        (passes_of_subset (List.Subset.refl _) (List.nil_subset _) (List.nil_subset _) (.inl rfl))
        (.count rfl rfl rfl (.inr (.inl ⟨List.mem_cons_self, Nat.succ_pos _⟩)) (by rintro _ ⟨⟩)
          (by rintro _ ⟨⟩))⟩
  | forkStore np i f =>
    cases h
    exact ⟨_, turn_call ht rfl (passes_of_nil rfl rfl rfl rfl)
      (.store ((hi.world.framed.child ht rfl).2 i (le_refl i)) rfl rfl rfl (.inl List.mem_cons_self)
        (List.nil_subset _) rfl)⟩
  | exitTest i =>
    obtain ⟨s₁, hround, heq⟩ := Option.map_eq_some_iff.mp h
    cases heq
    refine turn_round ht rfl (fun _ _ => List.nil_subset _) (fun _ => List.nil_subset _)
      (fun fd f hfd hf => ?_) (fun fd _ _ => ?_) hround
    · have hfetch : fd ∈ (Call.exitTest i).fetches .go := by
        subst hfd
        simp [Call.fetches]
      refine ⟨fun f' hf' => ?_, fun fd' hfd' => ?_, fun fd' hfd' => ?_, (by rintro _ ⟨⟩)⟩
      · rw [List.mem_singleton.mp hf']
        exact .inr (.inr ⟨fd, hfetch, hf⟩)
      · rw [List.mem_singleton.mp hfd']
        exact .inr (.inr hfetch)
      · rw [List.mem_singleton.mp hfd']
        exact .inr (.inr hfetch)
    · exact passes_of_nil rfl rfl rfl rfl
  | exitRead i f =>
    cases h
    have hentry : s.ofile (p, i) = some f := hi.world.entry_of_seen ht List.mem_cons_self
    rw [State.reread, hentry]
    exact ⟨_, turn_hold ht (List.nil_subset _) rfl
      (passes_of_subset (List.Subset.refl _) (List.Subset.refl _) (List.Subset.refl _) (.inl rfl))⟩
  | exitClose i f =>
    cases h
    rw [fileclose] at hcalm ⊢
    split at hcalm
    · cases hcalm
    · rename_i hpos
      rw [if_neg hpos]
      exact ⟨_, turn_call ht rfl
        (passes_of_subset (List.nil_subset _) (List.Subset.refl _) (List.Subset.refl _) (.inl rfl))
        (.count rfl rfl rfl (.inr (.inr rfl)) (by rintro _ ⟨⟩) (by rintro _ ⟨⟩))⟩
  | exitClear i f =>
    cases h
    refine ⟨_, turn_call ht rfl (passes_of_nil rfl rfl rfl rfl)
      (.clear List.mem_cons_self rfl rfl rfl (List.nil_subset _) fun fd hfd => ?_)⟩
    exact (Option.some.inj hfd).symm
  | idle | pipePage => cases h

theorem Inv.turn_start (hi : s.Inv) (ht : s.thread t = some (p, .idle)) (hop : op ≠ .threadExit)
    (h : s.start t p op = some (s', e)) : ∃ k', Turn s s' t p .idle op k' := by
  have hidle : Turn s (s.setCall t p .idle) t p .idle op .idle :=
    turn_hold ht (List.nil_subset _) rfl (passes_of_nil rfl rfl rfl rfl)
  cases op with
  | threadCreate q =>
    simp only [State.start] at h
    split at h
    · rename_i hq
      cases h
      have hne : q ≠ t := by
        intro heq
        rw [heq, ht] at hq
        cases hq
      have hsame : s.setCall t p .idle = s := by
        rw [State.setCall, ← ht, update_eq_self]
      rw [hsame] at hidle
      exact ⟨_, hidle.spawn hq hne⟩
    · cases h
  | threadExit => exact absurd rfl hop
  | opens | pipe =>
    rw [← fst_of_some h]
    exact turn_alloc ht rfl (fun f f' hf' => .inr (List.mem_singleton.mp hf'))
      (fun f => passes_of_nil rfl rfl rfl rfl) (List.nil_subset _) (passes_of_nil rfl rfl rfl rfl)
  | dup old =>
    cases h
    refine turn_test ht rfl (fun f => List.nil_subset _) (List.nil_subset _) (fun f hf => ?_)
      (fun _ => passes_of_nil rfl rfl rfl rfl)
    refine ⟨fun f' hf' => ?_, fun fd' hfd' => ?_, (by rintro _ ⟨⟩), fun f' hf' => ?_⟩
    · rw [List.mem_singleton.mp hf']
      exact .inr (.inr ⟨old, rfl, hf⟩)
    · rw [List.mem_singleton.mp hfd']
      exact .inr (.inr rfl)
    · cases hf'
      exact .inr ⟨rfl, old, .inl rfl, hf⟩
  | close fd =>
    cases h
    refine turn_test ht rfl (fun f => List.nil_subset _) (List.nil_subset _) (fun f hf => ?_)
      (fun _ => passes_of_nil rfl rfl rfl rfl)
    refine ⟨fun f' hf' => ?_, fun fd' hfd' => ?_, fun fd' hfd' => ?_, fun f' hf' => ?_⟩
    · rw [List.mem_singleton.mp hf']
      exact .inr (.inr ⟨fd, rfl, hf⟩)
    · rw [List.mem_singleton.mp hfd']
      exact .inr (.inr rfl)
    · rw [List.mem_singleton.mp hfd']
      exact .inr (.inr rfl)
    · cases hf'
      exact .inr ⟨rfl, fd, .inr rfl, hf⟩
  | fork =>
    cases h
    refine ⟨_, turn_call ht rfl (passes_of_nil rfl rfl rfl rfl)
      (.same hi.world.framed.zeroed rfl (fun p' hp' => ?_) (List.nil_subset _) rfl)⟩
    exact update_of_ne (Nat.ne_of_lt hp') _ _
  | exit =>
    cases h
    exact ⟨_, turn_hold ht (List.nil_subset _) rfl (passes_of_nil rfl rfl rfl rfl)⟩
  | go | page | publish | leave => cases h

theorem turn_page {f0 f1 : FileId} {ok : Bool} (ht : s.thread t = some (p, .pipePage f0 f1)) :
    ∃ k', Turn s (s.setCall t p (if ok then .fdalloc (.pipeRead f1) f0 0 else .closing [f0, f1])) t p
      (.pipePage f0 f1) (.page ok) k' := by
  cases ok with
  | true =>
    refine ⟨_, turn_hold ht (List.nil_subset _) rfl ⟨fun f hf => .inr (.inl hf), nofun, nofun, nofun⟩⟩
  | false => exact ⟨_, turn_hold ht (List.nil_subset _) rfl (passes_of_nil rfl rfl rfl rfl)⟩

/-- A step is a turn of the thread that takes it, or the thread is no more. -/
theorem Inv.turn (hi : s.Inv) (ht : s.thread t = some (p, k)) (h : s.step (t, op) = some (s', e))
    (hcalm : s'.panic = none) :
    (∃ k', Turn s s' t p k op k') ∨
      (op = .threadExit ∧ k = .idle ∧ s' = {s with thread := update s.thread t none}) ∨
      ∃ gone i, op = .leave gone ∧ k = .exitTest i ∧ s' = s.exited t p gone := by
  simp only [State.step, hi.calm, ht] at h
  cases op with
  | go => exact .inl (hi.turn_go ht h hcalm)
  | page ok =>
    cases k with
    | pipePage f0 f1 =>
      cases h
      exact .inl (turn_page ht)
    | _ => cases h
  | publish q =>
    cases k with
    | forkTest np i =>
      simp only [State.act] at h
      split at h
      · rename_i hq
        cases h
        have hne : q ≠ t := by
          intro heq
          rw [heq, ht] at hq
          cases hq.2
        have hturn : Turn s (s.setCall t p .idle) t p (.forkTest np i) (.publish q) .idle :=
          turn_hold ht (List.nil_subset _) rfl (passes_of_nil rfl rfl rfl rfl)
        exact .inl ⟨_, hturn.spawn hq.2 hne⟩
      · cases h
    | _ => cases h
  | leave gone =>
    cases k with
    | exitTest i =>
      simp only [State.act] at h
      split at h
      · cases h
        exact .inr (.inr ⟨gone, i, rfl, rfl, rfl⟩)
      · cases h
    | _ => cases h
  | threadExit =>
    simp only [State.act] at h
    split at h
    · rename_i hk
      cases h
      exact .inr (.inl ⟨rfl, hk, rfl⟩)
    · cases h
  | _ =>
    simp only [State.act] at h
    split at h
    · rename_i hk
      subst hk
      exact .inl (hi.turn_start ht (by simp) h)
    · cases h

end State

end ThreadKernel.File
