import ThreadKernel.File.Turns

/-! Every file in a table is filled, or is being filled.

`Sorted` says where each struct stands: one that is not allocated has no type; one that a
call has just allocated has none yet, and this call has its only reference; the struct of
an entry stands for something, unless the thread that has opened it is still to fill it;
and what a call has got from `argfd` is as it was then. `Shift` is what a step may do to
that. -/
namespace ThreadKernel.File

open Refcount Lts

/-! ### References -/

namespace Call

variable {k : Call} {f : FileId} {fd : Fd} {op : Op}

theorem refs_of_raw (h : f ∈ k.raw) : f ∈ k.refs := by
  cases k with
  | fdalloc k | fdstore k => cases k <;> first | exact h | cases h
  | pipeSecond | pipePage => exact h
  | _ => cases h

theorem window_of_transit (h : fd ∈ k.transit) : fd ∈ script.window k := by
  cases k with
  | fdalloc k =>
    cases k with
    | pipeWrite => exact h
    | _ => cases h
  | fdstore k =>
    cases k with
    | pipeWrite => exact List.mem_cons_of_mem _ h
    | _ => cases h
  | dupRef => exact List.mem_cons_of_mem _ h
  | closeClear | pipeClear | exitRead | exitClose | exitClear => exact h
  | _ => cases h

theorem transit_of_gap (h : k.gap = some fd) : fd ∈ k.transit := by
  cases k with
  | dupRef | exitClear =>
    cases h
    exact List.mem_cons_self
  | _ => cases h

theorem ready_of_fetched (h : k.fetched = some f) : f ∈ k.ready := by
  cases k with
  | fdalloc k | fdstore k =>
    cases k with
    | dup =>
      cases h
      exact List.mem_cons_self
    | _ => cases h
  | dupRef | closeClear =>
    cases h
    exact List.mem_cons_self
  | _ => cases h

theorem refs_or_ready_of_dropped (h : k.outcome op = .dropped f) :
    f ∈ k.refs ∨ f ∈ k.ready := by
  cases k with
  | closing fs =>
    cases fs <;> cases op <;> cases h
    exact .inl List.mem_cons_self
  | exitClose =>
    cases op <;> cases h
    exact .inr List.mem_cons_self
  | pipePage =>
    cases op with
    | page ok => cases ok <;> cases h
    | _ => cases h
  | fdstore k => cases k <;> cases op <;> cases h
  | _ => cases op <;> cases h

theorem eq_of_opened (h : k.outcome op = .opened f fd) :
    k = .fdstore .opens f fd ∧ op = .go := by
  cases k with
  | fdstore k =>
    cases k <;> cases op <;> cases h
    exact ⟨rfl, rfl⟩
  | pipePage =>
    cases op with
    | page ok => cases ok <;> cases h
    | _ => cases h
  | closing fs => cases fs <;> cases op <;> cases h
  | _ => cases op <;> cases h

theorem eq_of_piped {f0 f1 : FileId} (h : k.outcome op = .piped f0 f1) :
    k = .pipePage f0 f1 ∧ op = .page true := by
  cases k with
  | pipePage =>
    cases op with
    | page ok =>
      cases ok <;> cases h
      exact ⟨rfl, rfl⟩
    | _ => cases h
  | fdstore k => cases k <;> cases op <;> cases h
  | closing fs => cases fs <;> cases op <;> cases h
  | _ => cases op <;> cases h

/-- A thread that does not turn to the table takes no file and leaves no outcome. -/
theorem exit_eq : k.outcome .exit = .nothing ∧ k.fetches .exit = none ∧ k.drops .exit = none := by
  cases k with
  | fdstore k => cases k <;> exact ⟨rfl, rfl, rfl⟩
  | closing fs => cases fs <;> exact ⟨rfl, rfl, rfl⟩
  | _ => exact ⟨rfl, rfl, rfl⟩

theorem held_of_ready (hapt : k.Apt) (h : f ∈ k.ready) :
    f ∈ k.refs ∨ ∃ fd, (fd, some f) ∈ k.seen ∧ k.gap ≠ some fd := by
  cases k with
  | fdalloc k | fdstore k =>
    cases k with
    | dup old =>
      rw [List.mem_singleton.mp h]
      exact .inr ⟨old, by simp [seen, Origin.seen], nofun⟩
    | pipeRead => exact .inl h
    | pipeWrite => exact .inl h
    | opens => cases h
  | dupRef f' old new =>
    rw [List.mem_singleton.mp h]
    refine .inr ⟨old, List.mem_cons_self, fun heq => ?_⟩
    exact hapt (Option.some.inj heq).symm
  | closeClear | forkRead | forkDup | exitRead | exitClose =>
    rw [List.mem_singleton.mp h]
    exact .inr ⟨_, List.mem_cons_self, nofun⟩
  | forkStore => exact .inl h
  | _ => cases h

end Call

namespace State

/-- The entry points at `f` and has its reference. -/
structure Counted (s : State) (p : Nat) (fd : Fd) (f : FileId) : Prop where
  live : p < s.next ∧ s.live p = true
  entry : s.ofile (p, fd) = some f
  gap : ∀ q k, s.thread q = some (p, k) → k.gap ≠ some fd

variable {s : State} {t q : Slot} {p p' : Nat} {k k' : Call} {f : FileId} {fd fd' : Fd}

theorem Counted.mem (h : s.Counted p fd f) : (p, fd) ∈ (s.world.book script).counted f := by
  refine Book.mem_counted.mpr ⟨World.mem_dom.mpr h.live, h.entry, fun q hgap => ?_⟩
  cases hq : s.thread q with
  | none => simp [World.book, world, hq, Script.hand] at hgap
  | some x =>
    obtain ⟨p', k'⟩ := x
    simp only [World.book, world, Function.comp, hq, Script.hand] at hgap
    obtain ⟨fd', hfd', heq⟩ := Option.map_eq_some_iff.mp hgap
    cases heq
    exact h.gap q k' hq hfd'

namespace Inv

variable (hi : s.Inv)
include hi

theorem pos_of_counted (h : s.Counted p fd f) : 0 < s.ref f := hi.world.sound.pos_of_counted h.mem

theorem counted_eq (h : s.Counted p fd f) (h' : s.Counted p' fd' f) (hone : s.ref f = 1) :
    p' = p ∧ fd' = fd := by
  have heq := hi.world.sound.counted_eq h.mem h'.mem hone
  exact ⟨congrArg Prod.fst heq, congrArg Prod.snd heq⟩

theorem two_of_counted (h : s.Counted p fd f) (ht : s.thread t = some (p', k)) (hf : f ∈ k.refs) :
    2 ≤ s.ref f := by
  refine hi.world.sound.two_of_counted (t := t) h.mem ?_
  rw [World.book_refs (show s.world.thread t = _ from ht)]
  exact hf

theorem two_of_refs (hne : q ≠ t) (ht : s.thread t = some (p, k)) (hf : f ∈ k.refs)
    (hq : s.thread q = some (p', k')) (hf' : f ∈ k'.refs) : 2 ≤ s.ref f := by
  refine hi.world.sound.two_of_refs (t := t) hne ?_ ?_
  · rw [World.book_refs (show s.world.thread t = _ from ht)]
    exact hf
  · rw [World.book_refs (show s.world.thread q = _ from hq)]
    exact hf'

theorem pos_of_ready (ht : s.thread t = some (p, k)) (hf : f ∈ k.ready) : 0 < s.ref f := by
  rcases Call.held_of_ready (hi.world.framed.apt ht) hf with hrefs | ⟨fd, hseen, hgap⟩
  · exact hi.world.pos_of_ref ht hrefs
  · exact hi.world.pos_of_seen ht hseen hgap

theorem apart (hne : q ≠ t) (ht : s.thread t = some (p, k)) (hfd : fd ∈ script.window k)
    (hq : s.thread q = some (p, k')) : fd ∉ script.window k' := by
  have hmem : (p, fd) ∈ ((s.world.book script).hand t).window := by
    rw [World.book_hand (show s.world.thread t = _ from ht)]
    exact Script.mem_window_hand.mpr ⟨rfl, hfd⟩
  intro hfd'
  refine hi.world.sound.apart hne.symm hmem ?_
  rw [World.book_hand (show s.world.thread q = _ from hq)]
  exact Script.mem_window_hand.mpr ⟨rfl, hfd'⟩

/-- An entry that no thread of the process has in transit has its reference. -/
theorem counted (ht : s.thread t = some (p, k)) (hentry : s.ofile (p, fd) = some f)
    (hfree : ∀ q k, s.thread q = some (p, k) → fd ∉ k.transit) : s.Counted p fd f :=
  ⟨hi.world.framed.home ht, hentry, fun q k hq hgap => hfree q k hq (Call.transit_of_gap hgap)⟩

theorem lt_next (hentry : s.ofile (p, fd) = some f) : p < s.next := by
  by_contra hge
  have hnone : s.ofile (p, fd) = none := hi.world.framed.fresh (Nat.le_of_not_lt hge)
  rw [hnone] at hentry
  cases hentry

end Inv

end State

/-! ### The invariant -/

namespace Files

structure Sorted (s : Files) : Prop where
  base : s.table.Inv
  vacant : ∀ {q}, s.table.thread q = none → s.here q = .none ∧ s.got q = none
  zero : ∀ {f}, s.table.ref f = 0 → (s.desc f).type = .none
  entry : ∀ {p fd f}, s.table.Counted p fd f → (s.desc f).object ≠ none ∨
    ∃ q k, s.table.thread q = some (p, k) ∧ (s.here q).doing = .fill fd f
  ready : ∀ {t p k f}, s.table.thread t = some (p, k) → f ∈ k.ready → (s.desc f).object ≠ none
  raw : ∀ {t p k f}, s.table.thread t = some (p, k) → f ∈ k.raw →
    s.table.ref f = 1 ∧ (s.desc f).type = .none
  fill : ∀ {t fd f}, (s.here t).doing = .fill fd f → ∃ p, s.table.thread t = some (p, .idle) ∧
    s.table.ofile (p, fd) = some f ∧ s.table.ref f = 1 ∧ (s.desc f).type = .none ∧
    ∀ q k, s.table.thread q = some (p, k) →
      fd ∉ script.window k ∧ (q ≠ t → (s.here q).doing.fills fd = false)
  uses : ∀ {t kind fd f b}, (s.here t).doing = .uses kind fd f b → ∃ p,
    s.table.thread t = some (p, .idle) ∧ s.table.ofile (p, fd) = some f ∧
    (∀ q k, s.table.thread q = some (p, k) → fd ∉ k.transit ∧ (s.here q).doing.fills fd = false) ∧
    ∃ x, s.got t = some x ∧ x.f = f
  got : ∀ {t x}, s.got t = some x → s.gen x.f = x.gen ∧ s.desc x.f = x.desc ∧ x.desc.object ≠ none ∧
    ((∃ kind fd b, (s.here t).doing = .uses kind fd x.f b) ∨
      ∃ p k, s.table.thread t = some (p, k) ∧ k.fetched = some x.f)
  fetched : ∀ {t p k f}, s.table.thread t = some (p, k) → k.fetched = some f →
    ∃ x, s.got t = some x ∧ x.f = f
  calm : s.panic = none

theorem object_of_none {d : Desc} (h : d.type = .none) : d.object = none := by
  simp [Desc.object, h]

namespace Sorted

variable {s : Files} {t q : Slot} {p : Nat} {k : Call} {f : FileId} {fd : Fd}

theorem fill_counted (hs : s.Sorted) (h : (s.here t).doing = .fill fd f) :
    ∃ p, s.table.thread t = some (p, .idle) ∧ s.table.Counted p fd f := by
  obtain ⟨p, ht, hentry, -, -, hothers⟩ := hs.fill h
  exact ⟨p, ht, hs.base.counted ht hentry fun q k hq hmem =>
    (hothers q k hq).1 (Call.window_of_transit hmem)⟩

theorem uses_counted (hs : s.Sorted) {kind : Kind} {b : Bool}
    (h : (s.here t).doing = .uses kind fd f b) :
    ∃ p, s.table.thread t = some (p, .idle) ∧ s.table.Counted p fd f := by
  obtain ⟨p, ht, hentry, hfree, -⟩ := hs.uses h
  exact ⟨p, ht, hs.base.counted ht hentry fun q k hq => (hfree q k hq).1⟩

theorem got_pos (hs : s.Sorted) {x : Got} (h : s.got t = some x) : 0 < s.table.ref x.f := by
  obtain ⟨-, -, -, ⟨kind, fd, b, huses⟩ | ⟨p, k, ht, hk⟩⟩ := hs.got h
  · obtain ⟨p, -, hcounted⟩ := hs.uses_counted huses
    exact hs.base.pos_of_counted hcounted
  · exact hs.base.pos_of_ready ht (Call.ready_of_fetched hk)

/-- The file in an entry that nobody fills and nobody has in transit. -/
theorem object_of_entry (hs : s.Sorted) (ht : s.table.thread t = some (p, k))
    (hentry : s.table.ofile (p, fd) = some f)
    (hfree : ∀ q k, s.table.thread q = some (p, k) →
      k.gap ≠ some fd ∧ (s.here q).doing.fills fd = false) : (s.desc f).object ≠ none := by
  have hcounted : s.table.Counted p fd f :=
    ⟨hs.base.world.framed.home ht, hentry, fun q k hq => (hfree q k hq).1⟩
  rcases hs.entry hcounted with hobject | ⟨q, k', hq, hfill⟩
  · exact hobject
  · have hnot := (hfree q k' hq).2
    simp [hfill, Doing.fills] at hnot

end Sorted

/-! ### Steps -/

/-- `t` of `p` goes from `k` to `k'`. -/
structure Shift (s s' : Files) (t : Slot) (p : Nat) (k : Call) (op : Op) (k' : Call) : Prop where
  turn : Turn s.table s'.table t p k op k'
  base : s'.table.Inv
  here : ∀ q, q ≠ t → s'.here q = s.here q ∧ s'.got q = s.got q
  gen : ∀ f, s.table.ref f ≠ 0 → s'.gen f = s.gen f
  /-- A struct is filled by the call that has allocated it, or it loses its type. -/
  desc : ∀ f, s'.desc f = s.desc f ∨
    (f ∈ k.raw ∨ ∃ fd, (s.here t).doing = .fill fd f) ∧ (s'.desc f).object ≠ none ∨
    s'.table.ref f = 0
  zero : ∀ f, s'.table.ref f = 0 → (s'.desc f).type = .none
  raw : ∀ f ∈ k'.raw, s'.desc f = s.desc f
  piped : ∀ f ∈ (k.outcome op).files, (s'.desc f).object ≠ none
  /-- Nobody is filling what the call takes, and nobody uses what it is about to close. -/
  fetches : ∀ fd ∈ k.fetches op, ¬ s.Filled t p fd ∧
    ∀ f, s.table.ofile (p, fd) = some f → (s.desc f).object ≠ none
  drops : ∀ fd ∈ k.drops op, ¬ s.InUse t p fd
  filled : ∀ fd f, (s.here t).doing = .fill fd f → (s'.desc f).object ≠ none
  fill : ∀ fd f, (s'.here t).doing = .fill fd f → k = .fdstore .opens f fd ∧ k' = .idle ∧
    s'.table.ofile (p, fd) = some f ∧ s'.table.ref f = s.table.ref f ∧ s'.desc f = s.desc f
  stores : ∀ f fd, k.outcome op = .opened f fd → (s'.here t).doing = .fill fd f
  uses : ∀ kind fd f b, (s'.here t).doing = .uses kind fd f b → ∃ p,
    s'.table.thread t = some (p, .idle) ∧ s'.table.ofile (p, fd) = some f ∧
    (∀ q k, s'.table.thread q = some (p, k) → fd ∉ k.transit ∧ (s'.here q).doing.fills fd = false) ∧
    ∃ x, s'.got t = some x ∧ x.f = f
  got : ∀ x, s'.got t = some x → s'.gen x.f = x.gen ∧ s'.desc x.f = x.desc ∧ x.desc.object ≠ none ∧
    ((∃ kind fd b, (s'.here t).doing = .uses kind fd x.f b) ∨ k'.fetched = some x.f)
  fetched : ∀ f, k'.fetched = some f → ∃ x, s'.got t = some x ∧ x.f = f
  calm : s'.panic = none

namespace Shift

variable {s s' : Files} {t q : Slot} {p p' : Nat} {k k' k₁ : Call} {op : Op} {f : FileId} {fd : Fd}
variable (h : Shift s s' t p k op k') (hs : s.Sorted)
include h

/-- A thread of after the step, other than `t`, is one of before, or new and in no call. -/
theorem thread_of_ne (hne : q ≠ t) (hq : s'.table.thread q = some (p', k₁)) :
    s.table.thread q = some (p', k₁) ∨ s.table.thread q = none ∧ k₁ = .idle := by
  rcases h.turn.others q hne with heq | ⟨hnone, p₁, hnew⟩
  · exact .inl (heq ▸ hq)
  · rw [hnew] at hq
    cases hq
    exact .inr ⟨hnone, rfl⟩

include hs

/-- A struct that stands for something goes on to, while it has a reference. -/
theorem desc_eq (hobject : (s.desc f).object ≠ none) (href : s'.table.ref f ≠ 0) :
    s'.desc f = s.desc f := by
  rcases h.desc f with heq | ⟨hraw | ⟨fd, hfill⟩, -⟩ | hzero
  · exact heq
  · exact absurd (object_of_none (hs.raw h.turn.own hraw).2) hobject
  · obtain ⟨-, -, -, -, htype, -⟩ := hs.fill hfill
    exact absurd (object_of_none htype) hobject
  · exact absurd hzero href

theorem object (hobject : (s.desc f).object ≠ none) (href : s'.table.ref f ≠ 0) :
    (s'.desc f).object ≠ none := by
  rw [h.desc_eq hs hobject href]
  exact hobject

theorem still_raw (hone : s.table.ref f = 1) (htype : (s.desc f).type = .none) (hrefs : f ∉ k.refs)
    (hfill : ∀ fd, (s.here t).doing ≠ .fill fd f) :
    s'.table.ref f = 1 ∧ (s'.desc f).type = .none := by
  have hready : f ∉ k.ready := fun hmem => hs.ready h.turn.own hmem (object_of_none htype)
  have href : s'.table.ref f = 1 := by
    rcases h.turn.ref f with heq | ⟨hzero, -⟩ | ⟨hmem, -⟩ | hdropped
    · rw [heq, hone]
    · omega
    · exact absurd hmem hready
    · exact ((Call.refs_or_ready_of_dropped hdropped).elim hrefs hready).elim
  refine ⟨href, ?_⟩
  rcases h.desc f with heq | ⟨hraw | ⟨fd, hdoing⟩, -⟩ | hzero
  · rw [heq]
    exact htype
  · exact absurd (Call.refs_of_raw hraw) hrefs
  · exact absurd hdoing (hfill fd)
  · omega

omit hs in
theorem entry_of_ne (hentry : s.table.ofile (p', fd) = some f)
    (hfree : ∀ k, s.table.thread t = some (p', k) → fd ∉ k.transit) :
    s'.table.ofile (p', fd) = some f := by
  rcases h.turn.keeps (p', fd) f hentry with heq | ⟨hp, hmem⟩
  · exact heq
  · simp only at hp
    subst hp
    exact absurd hmem (hfree k h.turn.own)

theorem sorted_entry (hc : s'.table.Counted p' fd f) : (s'.desc f).object ≠ none ∨
    ∃ q k, s'.table.thread q = some (p', k) ∧ (s'.here q).doing = .fill fd f := by
  have href : s'.table.ref f ≠ 0 := Nat.ne_of_gt (h.base.pos_of_counted hc)
  rcases h.turn.stores (p', fd) f hc.entry with hold | ⟨-, hready | ⟨fd', hk, heq⟩⟩
  · have hlt := hs.base.lt_next hold
    by_cases hgap : ∀ q k, s.table.thread q = some (p', k) → k.gap ≠ some fd
    · -- the entry had its reference
      have hlive : s.table.live p' = true := by
        rw [← h.turn.live p' hlt]
        exact hc.live.2
      rcases hs.entry ⟨⟨hlt, hlive⟩, hold, hgap⟩ with hobject | ⟨q, kq, hq, hfill⟩
      · exact .inl (h.object hs hobject href)
      · by_cases hqt : q = t
        · subst hqt
          exact .inl (h.filled fd f hfill)
        · rcases h.turn.others q hqt with heq | ⟨hnone, -⟩
          · refine .inr ⟨q, kq, heq ▸ hq, ?_⟩
            rw [(h.here q hqt).1]
            exact hfill
          · rw [hnone] at hq
            cases hq
    · -- it was ahead of its reference, or behind it
      push Not at hgap
      obtain ⟨q, kq, hq, hgap⟩ := hgap
      by_cases hqt : q = t
      · subst hqt
        rw [h.turn.own] at hq
        cases hq
        rcases h.turn.gap fd hgap with hgap' | hnone | ⟨f', hf', heq⟩
        · exact absurd hgap' (hc.gap q k' h.turn.next)
        · rw [hc.entry] at hnone
          cases hnone
        · rw [hc.entry] at heq
          cases heq
          exact .inl (h.object hs (hs.ready h.turn.own hf') href)
      · rcases h.turn.others q hqt with heq | ⟨hnone, -⟩
        · exact absurd hgap (hc.gap q kq (heq ▸ hq))
        · rw [hnone] at hq
          cases hq
  · exact .inl (h.object hs (hs.ready h.turn.own hready) href)
  · cases heq
    exact .inr ⟨t, k', h.turn.next, h.stores f fd hk⟩

theorem sorted_ready (hq : s'.table.thread q = some (p', k₁)) (hf : f ∈ k₁.ready) :
    (s'.desc f).object ≠ none := by
  have href : s'.table.ref f ≠ 0 := Nat.ne_of_gt (h.base.pos_of_ready hq hf)
  by_cases hqt : q = t
  · subst hqt
    rw [h.turn.next] at hq
    cases hq
    rcases h.turn.ready f hf with hready | hpiped | ⟨fd, hfd, hentry⟩
    · exact h.object hs (hs.ready h.turn.own hready) href
    · exact h.piped f hpiped
    · exact h.object hs ((h.fetches fd hfd).2 f hentry) href
  · rcases h.thread_of_ne hqt hq with hold | ⟨-, rfl⟩
    · exact h.object hs (hs.ready hold hf) href
    · cases hf

theorem sorted_raw (hq : s'.table.thread q = some (p', k₁)) (hf : f ∈ k₁.raw) :
    s'.table.ref f = 1 ∧ (s'.desc f).type = .none := by
  by_cases hqt : q = t
  · subst hqt
    rw [h.turn.next] at hq
    cases hq
    rw [h.raw f hf]
    rcases h.turn.raw f hf with ⟨hraw, heq⟩ | ⟨hzero, hone⟩
    · rw [heq]
      exact hs.raw h.turn.own hraw
    · exact ⟨hone, hs.zero hzero⟩
  · rcases h.thread_of_ne hqt hq with hold | ⟨-, rfl⟩
    · obtain ⟨hone, htype⟩ := hs.raw hold hf
      refine h.still_raw hs hone htype (fun hrefs => ?_) (fun fd hfill => ?_)
      · have := hs.base.two_of_refs hqt h.turn.own hrefs hold (Call.refs_of_raw hf)
        omega
      · obtain ⟨p₁, -, hcounted⟩ := hs.fill_counted hfill
        have := hs.base.two_of_counted hcounted hold (Call.refs_of_raw hf)
        omega
    · cases hf

omit hs in
/-- Another thread that fills or uses a file is there as before. -/
theorem idle_of_ne (hqt : q ≠ t) (hq : s.table.thread q = some (p', .idle)) :
    s'.table.thread q = some (p', .idle) := by
  rcases h.turn.others q hqt with heq | ⟨hnone, -⟩
  · rw [heq]
    exact hq
  · rw [hnone] at hq
    cases hq

/-- Nobody fills an entry anew that was not null. -/
theorem fills_of_entry (hentry : s.table.ofile (p', fd) = some f) {q' : Slot} {k₂ : Call}
    (hq' : s'.table.thread q' = some (p', k₂)) (hfill : (s'.here q').doing.fills fd = true) :
    q' ≠ t ∧ s.table.thread q' = some (p', k₂) ∧ (s.here q').doing.fills fd = true := by
  by_cases hqt : q' = t
  · subst hqt
    cases hdoing : (s'.here q').doing with
    | fill fd' f' =>
      rw [hdoing] at hfill
      simp only [Doing.fills, decide_eq_true_eq] at hfill
      subst hfill
      obtain ⟨rfl, -⟩ := h.fill fd' f' hdoing
      have hnone : s.table.ofile (p, fd') = none :=
        hs.base.world.entry_of_seen h.turn.own List.mem_cons_self
      rw [h.turn.next] at hq'
      cases hq'
      rw [hnone] at hentry
      cases hentry
    | table | uses | release =>
      rw [hdoing] at hfill
      cases hfill
  · rw [(h.here q' hqt).1] at hfill
    rcases h.thread_of_ne hqt hq' with hold | ⟨hnone, -⟩
    · exact ⟨hqt, hold, hfill⟩
    · rw [(hs.vacant hnone).1] at hfill
      cases hfill

theorem sorted_fill (hfill : (s'.here q).doing = .fill fd f) : ∃ p, s'.table.thread q = some (p, .idle) ∧
    s'.table.ofile (p, fd) = some f ∧ s'.table.ref f = 1 ∧ (s'.desc f).type = .none ∧
    ∀ q' k, s'.table.thread q' = some (p, k) →
      fd ∉ script.window k ∧ (q' ≠ q → (s'.here q').doing.fills fd = false) := by
  by_cases hqt : q = t
  · subst hqt
    obtain ⟨rfl, rfl, hentry, href, hdesc⟩ := h.fill fd f hfill
    have hnone : s.table.ofile (p, fd) = none :=
      hs.base.world.entry_of_seen h.turn.own List.mem_cons_self
    obtain ⟨hone, htype⟩ := hs.raw h.turn.own (List.mem_cons_self)
    refine ⟨p, h.turn.next, hentry, by rw [href]; exact hone, by rw [hdesc]; exact htype, ?_⟩
    intro q' k₂ hq'
    by_cases hq'q : q' = q
    · subst hq'q
      rw [h.turn.next] at hq'
      cases hq'
      exact ⟨nofun, fun hne => absurd rfl hne⟩
    · rcases h.thread_of_ne hq'q hq' with hold | ⟨hnone', rfl⟩
      · refine ⟨fun hmem => ?_, fun _ => ?_⟩
        · exact hs.base.apart hq'q h.turn.own List.mem_cons_self hold hmem
        · rw [(h.here q' hq'q).1]
          cases hdoing : (s.here q').doing with
          | fill fd' f' =>
            obtain ⟨p₁, hq₁, hentry₁, -⟩ := hs.fill hdoing
            rw [hold] at hq₁
            cases hq₁
            simp only [Doing.fills, decide_eq_false_iff_not]
            intro heq
            rw [heq, hnone] at hentry₁
            cases hentry₁
          | table | uses | release => rfl
      · refine ⟨nofun, fun _ => ?_⟩
        rw [(h.here q' hq'q).1, (hs.vacant hnone').1]
        rfl
  · rw [(h.here q hqt).1] at hfill
    obtain ⟨p₁, hq, hentry, hone, htype, hothers⟩ := hs.fill hfill
    obtain ⟨p₂, hq₂, hcounted⟩ := hs.fill_counted hfill
    rw [hq] at hq₂
    cases hq₂
    obtain ⟨hone', htype'⟩ := h.still_raw hs hone htype
      (fun hrefs => by
        have := hs.base.two_of_counted hcounted h.turn.own hrefs
        omega)
      (fun fd' hfill' => by
        -- two threads would fill one entry
        obtain ⟨p₂, ht₂, hcounted'⟩ := hs.fill_counted hfill'
        obtain ⟨rfl, rfl⟩ := hs.base.counted_eq hcounted hcounted' hone
        have hnot := (hothers t _ ht₂).2 (Ne.symm hqt)
        simp [hfill', Doing.fills] at hnot)
    refine ⟨p₁, h.idle_of_ne hqt hq, h.entry_of_ne hentry fun k ht hmem => ?_, hone', htype', ?_⟩
    · exact (hothers t k ht).1 (Call.window_of_transit hmem)
    · intro q' k₂ hq'
      refine ⟨fun hmem => ?_, fun hne => ?_⟩
      · by_cases hq't : q' = t
        · subst hq't
          rw [h.turn.next] at hq'
          cases hq'
          rcases h.turn.window fd hmem with hold | hnone | hfetch
          · exact (hothers q' k h.turn.own).1 hold
          · rw [hentry] at hnone
            cases hnone
          · refine (h.fetches fd hfetch).1 ⟨q, ?_, ?_⟩
            · rw [World.sibling_eq (show s.table.world.thread q = _ from hq) hqt]
              rfl
            · simp [hfill, Doing.fills]
        · rcases h.thread_of_ne hq't hq' with hold | ⟨-, rfl⟩
          · exact (hothers q' k₂ hold).1 hmem
          · cases hmem
      · by_contra hfills
        obtain ⟨-, hold, hfills'⟩ := h.fills_of_entry hs hentry hq' (by simpa using hfills)
        have hnot := (hothers q' k₂ hold).2 hne
        rw [hnot] at hfills'
        cases hfills'

theorem sorted_uses {kind : Kind} {b : Bool} (huses : (s'.here q).doing = .uses kind fd f b) :
    ∃ p, s'.table.thread q = some (p, .idle) ∧ s'.table.ofile (p, fd) = some f ∧
    (∀ q' k, s'.table.thread q' = some (p, k) →
      fd ∉ k.transit ∧ (s'.here q').doing.fills fd = false) ∧ ∃ x, s'.got q = some x ∧ x.f = f := by
  by_cases hqt : q = t
  · subst hqt
    exact h.uses kind fd f b huses
  · rw [(h.here q hqt).1] at huses
    obtain ⟨p₁, hq, hentry, hfree, hgot⟩ := hs.uses huses
    rw [← (h.here q hqt).2] at hgot
    refine ⟨p₁, h.idle_of_ne hqt hq, h.entry_of_ne hentry fun k ht => (hfree t k ht).1, ?_, hgot⟩
    intro q' k₂ hq'
    refine ⟨fun hmem => ?_, ?_⟩
    · by_cases hq't : q' = t
      · subst hq't
        rw [h.turn.next] at hq'
        cases hq'
        rcases h.turn.transit fd hmem with hold | hnone | hdrop
        · exact (hfree q' k h.turn.own).1 hold
        · rw [hentry] at hnone
          cases hnone
        · refine h.drops fd hdrop ⟨q, ?_, ?_⟩
          · rw [World.sibling_eq (show s.table.world.thread q = _ from hq) hqt]
            rfl
          · simp [huses, Doing.isUsing]
      · rcases h.thread_of_ne hq't hq' with hold | ⟨-, rfl⟩
        · exact (hfree q' k₂ hold).1 hmem
        · cases hmem
    · by_contra hfills
      obtain ⟨-, hold, hfills'⟩ := h.fills_of_entry hs hentry hq' (by simpa using hfills)
      rw [(hfree q' k₂ hold).2] at hfills'
      cases hfills'

theorem sorted_got {x : Got} (hgot : s'.got q = some x) : s'.gen x.f = x.gen ∧ s'.desc x.f = x.desc ∧
    x.desc.object ≠ none ∧ ((∃ kind fd b, (s'.here q).doing = .uses kind fd x.f b) ∨
      ∃ p k, s'.table.thread q = some (p, k) ∧ k.fetched = some x.f) := by
  by_cases hqt : q = t
  · subst hqt
    obtain ⟨hgen, hdesc, hobject, huses | hk⟩ := h.got x hgot
    · exact ⟨hgen, hdesc, hobject, .inl huses⟩
    · exact ⟨hgen, hdesc, hobject, .inr ⟨p, k', h.turn.next, hk⟩⟩
  · rw [(h.here q hqt).2] at hgot
    obtain ⟨hgen, hdesc, hobject, hwhere⟩ := hs.got hgot
    have hpos := hs.got_pos hgot
    rw [← (h.here q hqt).1] at hwhere
    have hwhere' : (∃ kind fd b, (s'.here q).doing = .uses kind fd x.f b) ∨
        ∃ p k, s'.table.thread q = some (p, k) ∧ k.fetched = some x.f := by
      rcases hwhere with huses | ⟨p₁, k₁, hq, hk⟩
      · exact .inl huses
      · rcases h.turn.others q hqt with heq | ⟨hnone, -⟩
        · exact .inr ⟨p₁, k₁, heq ▸ hq, hk⟩
        · rw [hnone] at hq
          cases hq
    have href : s'.table.ref x.f ≠ 0 := by
      rcases hwhere' with ⟨kind, fd, b, huses⟩ | ⟨p₁, k₁, hq, hk⟩
      · obtain ⟨p₁, hq, hentry, hfree, -⟩ := h.sorted_uses hs huses
        have hcounted := h.base.counted hq hentry fun q' k hq' => (hfree q' k hq').1
        exact Nat.ne_of_gt (h.base.pos_of_counted hcounted)
      · exact Nat.ne_of_gt (h.base.pos_of_ready hq (Call.ready_of_fetched hk))
    rw [h.gen x.f (Nat.ne_of_gt hpos), h.desc_eq hs (hdesc ▸ hobject) href]
    exact ⟨hgen, hdesc, hobject, hwhere'⟩

theorem sorted_fetched (hq : s'.table.thread q = some (p', k₁)) (hf : k₁.fetched = some f) :
    ∃ x, s'.got q = some x ∧ x.f = f := by
  by_cases hqt : q = t
  · subst hqt
    rw [h.turn.next] at hq
    cases hq
    exact h.fetched f hf
  · rw [(h.here q hqt).2]
    rcases h.thread_of_ne hqt hq with hold | ⟨-, rfl⟩
    · exact hs.fetched hold hf
    · cases hf

theorem sorted : s'.Sorted where
  base := h.base
  vacant := by
    intro q hq
    have hqt : q ≠ t := by
      intro heq
      rw [heq, h.turn.next] at hq
      cases hq
    rw [(h.here q hqt).1, (h.here q hqt).2]
    rcases h.turn.others q hqt with heq | ⟨-, p₁, hnew⟩
    · exact hs.vacant (heq ▸ hq)
    · rw [hnew] at hq
      cases hq
  zero := fun {f} => h.zero f
  entry := h.sorted_entry hs
  ready := h.sorted_ready hs
  raw := h.sorted_raw hs
  fill := h.sorted_fill hs
  uses := h.sorted_uses hs
  got := h.sorted_got hs
  fetched := h.sorted_fetched hs
  calm := h.calm

end Shift

end Files

end ThreadKernel.File
