import ThreadKernel.File.Table
import ThreadKernel.Library.Sharing

/-! Who has the references to an open file.

A call in progress may hold references itself, and it relies on what it has read of the
descriptor table. Two entries are for a moment without a reference of their own: the one
`sys_dup` has stored before it calls `filedup`, and the one `exit` has called `fileclose`
for and not cleared yet. Apart from these, the count of a file is the number of entries
that point at it and of references that calls hold, as long as no call reads an entry
that a call of another thread of the process relies on, and `exit` leaves nobody behind
in a call. -/
namespace ThreadKernel.File

open Refcount Lts Function

/-! ### What a call has in hand -/

def Origin.seen (f : FileId) : Origin → List (Fd × Option FileId)
  | dup old => [(old, some f)]
  | pipeWrite rf fd0 => [(fd0, some rf)]
  | opens | pipeRead _ => []

def Origin.refs (f : FileId) : Origin → List FileId
  | dup _ => []
  | opens | pipeWrite _ _ => [f]
  | pipeRead wf => [f, wf]

namespace Call

/-- The entries a call has read and still relies on, with what it has found there. -/
def seen : Call → List (Fd × Option FileId)
  | fdalloc k f _ => k.seen f
  | fdstore k f fd => (fd, none) :: k.seen f
  | dupRef f old new => [(old, some f), (new, some f)]
  | closeClear fd f => [(fd, some f)]
  | pipeClear rf _ fd0 => [(fd0, some rf)]
  | forkRead _ i f | forkDup _ i f => [(i, some f)]
  | exitRead i f | exitClose i f | exitClear i f => [(i, some f)]
  | idle | closing _ | pipeSecond _ | pipePage _ _ | forkTest _ _ | forkStore _ _ _ | exitTest _ => []

/-- The entry that has no reference of its own at this moment. -/
def gap : Call → Option Fd
  | dupRef _ _ new => some new
  | exitClear i _ => some i
  | _ => none

/-- The references a call has obtained and not yet stored or dropped. -/
def refs : Call → List FileId
  | fdalloc k f _ | fdstore k f _ => k.refs f
  | closing fs => fs
  | pipeSecond f0 => [f0]
  | pipePage f0 f1 => [f0, f1]
  | pipeClear _ wf _ => [wf]
  | forkStore _ _ f => [f]
  | _ => []

/-- The process whose table a `fork` fills. -/
def child : Call → Option Nat
  | forkTest np _ | forkRead np _ _ | forkDup np _ _ | forkStore np _ _ => some np
  | _ => none

/-- The entries that it has still to come to. -/
def todo : Call → Fd → Prop
  | forkTest _ i, fd => i ≤ fd.val
  | forkRead _ i _, fd | forkDup _ i _, fd | forkStore _ i _, fd => i ≤ fd
  | _, _ => True

/-- `sys_dup` has found another entry than the one it was given. -/
def Apt : Call → Prop
  | dupRef _ old new => old ≠ new
  | _ => True

/-- The entry that the next step reads anew. -/
def reads : Call → Op → Option Fd
  | idle, .dup fd | idle, .close fd => some fd
  | fdalloc _ _ i, .go | forkTest _ i, .go | exitTest i, .go =>
    if h : i < NOFILE then some ⟨i, h⟩ else none
  | _, _ => none

end Call

def script : Script Call FileId Fd where
  seen := Call.seen
  gap := Call.gap
  refs := Call.refs
  child := Call.child
  todo := Call.todo
  apt := Call.Apt

namespace State

def world (s : State) : World Call FileId Fd Slot := ⟨s.ref, s.ofile, s.live, s.next, s.thread⟩

/-- A call reads an entry only when no call of a sibling relies on it, and `exit` ends with
its siblings stopped, in no call, and with no entry open. -/
def Undisturbed (s : State) (l : (Slot × Op) × Event) : Prop :=
  match s.thread l.1.1, l.1.2 with
  | some (p, _), .leave gone => (∀ fd, s.ofile (p, fd) = none) ∧
      ∀ q, ∀ k ∈ s.world.sibling l.1.1 p q, q ∈ gone ∧ k = .idle
  | some (p, k), op => ∀ fd ∈ k.reads op, s.world.Alone script l.1.1 p fd
  | none, _ => True

instance (s : State) (l : (Slot × Op) × Event) : Decidable (s.Undisturbed l) := by
  unfold Undisturbed
  split <;> infer_instance

structure Inv (s : State) : Prop where
  world : s.world.Inv script
  calm : s.panic = none

variable {s s' : State} {t q : Slot} {p np : Nat} {k k' : Call} {f : FileId} {fd : Fd} {e : Event}
  {i : Nat} {found : FileId → Call} {old : Fd}

/-! ### Accesses to the table -/

section
variable (hi : s.Inv) (ht : s.thread t = some (p, k))
include hi ht

theorem Inv.hold (hgap : k.gap = none) (hk : script.Goes k k' []) : (s.setCall t p k').Inv :=
  ⟨hi.world.hold ht hgap hk, hi.calm⟩

theorem Inv.test (halone : s.world.Alone script t p fd) (hgap : k.gap = none)
    {null : Call} (hfound : ∀ f, script.Goes k (found f) [(fd, some f)])
    (hnull : script.Goes k null [(fd, none)]) : (s.test t p fd found null).Inv := by
  unfold State.test
  split
  · rename_i f hf
    refine ⟨hi.world.look ht halone hgap ?_, hi.calm⟩
    rw [show s.world.entry (p, fd) = some f from hf]
    exact hfound f
  · rename_i hnone
    refine ⟨hi.world.look ht halone hgap ?_, hi.calm⟩
    rw [show s.world.entry (p, fd) = none from hnone]
    exact hnull

/-- A round of a loop, if the loop has not come to its end. -/
theorem Inv.round (halone : ∀ fd ∈ if h : i < NOFILE then some (⟨i, h⟩ : Fd) else none,
      s.world.Alone script t p fd) (hgap : k.gap = none)
    {found : Fd → FileId → Call} {null : Fd → Call}
    (hfound : ∀ fd f, fd.val = i → script.Goes k (found fd f) [(fd, some f)])
    (hnull : ∀ fd, fd.val = i → script.Goes k (null fd) [(fd, none)])
    (h : s.round t p i found null = some s') : s'.Inv := by
  unfold State.round at h
  split at h
  · rename_i hlt
    cases h
    refine hi.test ht (halone ⟨i, hlt⟩ ?_) hgap (fun f => hfound _ f rfl) (hnull _ rfl)
    rw [dif_pos hlt]
    rfl
  · cases h

theorem Inv.reread (hfd : (fd, some f) ∈ k.seen)
    (hgap : k.gap = none) (hk : script.Goes k (found f) []) :
    (s.reread t p fd found).Inv := by
  have hentry : s.ofile (p, fd) = some f := hi.world.entry_of_seen ht hfd
  unfold State.reread
  rw [hentry]
  exact hi.hold ht hgap hk

theorem Inv.alloc (hgap : k.gap = none)
    (hseen : ∀ f, (found f).seen ⊆ k.seen) (hgap' : ∀ f, (found f).gap = none)
    (hrefs : ∀ f, (found f).refs.Perm (f :: k.refs)) (hnext : ∀ f, script.Follows k (found f))
    (hk : script.Goes k k' []) : (s.alloc t p found k').Inv := by
  unfold State.alloc
  split
  · rename_i f hf
    have hzero : s.ref f = 0 := by
      simpa using Fin.eq_true_of_find?_eq_some hf
    exact ⟨hi.world.alloc ht (hnext f) hzero (hseen f) hgap (hgap' f) (hrefs f), hi.calm⟩
  · exact hi.hold ht hgap hk

end

theorem fileclose_eq (hpos : 0 < s.ref f) :
    s.fileclose t p f k = (s.setCall t p k).setRef f (s.ref f - 1) := by
  rw [fileclose, if_neg (by omega)]

theorem filedup_eq (hpos : 0 < s.ref f) :
    s.filedup t p f k = (s.setCall t p k).setRef f (s.ref f + 1) := by
  rw [filedup, if_neg (by omega)]

theorem Inv.drop (hi : s.Inv) (ht : s.thread t = some (p, k)) (hseen : k'.seen ⊆ k.seen)
    (hgap : k.gap = none) (hgap' : k'.gap = none) (hrefs : k.refs.Perm (f :: k'.refs))
    (hnext : script.Follows k k') : (s.fileclose t p f k').Inv := by
  rw [fileclose_eq (hi.world.pos_of_ref ht (hrefs.mem_iff.mpr List.mem_cons_self))]
  exact ⟨hi.world.drop ht hnext hseen hgap hgap' hrefs, hi.calm⟩

theorem Inv.inc (hi : s.Inv) (ht : s.thread t = some (p, k)) (hfd : (fd, some f) ∈ k.seen)
    (hseen : k'.seen ⊆ k.seen) (hgap : k.gap = none) (hgap' : k'.gap = none)
    (hrefs : k'.refs.Perm (f :: k.refs)) (hnext : script.Follows k k') : (s.filedup t p f k').Inv := by
  have hpos : 0 < s.ref f := by
    refine hi.world.pos_of_seen ht hfd ?_
    rw [show script.gap k = none from hgap]
    nofun
  rw [filedup_eq hpos]
  exact ⟨hi.world.inc ht hnext hseen hgap hgap' hrefs, hi.calm⟩

/-- `sys_dup` stores the file it has read before it has the reference, and then gets it. -/
theorem Inv.dupStore (hi : s.Inv) (ht : s.thread t = some (p, .fdstore (.dup old) f fd)) :
    ((s.setCall t p (.dupRef f old fd)).setFile p fd (some f)).Inv := by
  have hold : (old, some f) ∈ (Call.fdstore (.dup old) f fd).seen :=
    List.mem_cons_of_mem _ List.mem_cons_self
  have hne : old ≠ fd := by
    intro heq
    subst heq
    have hnull : s.world.entry (p, old) = none := hi.world.entry_of_seen ht List.mem_cons_self
    rw [hi.world.entry_of_seen ht hold] at hnull
    cases hnull
  refine ⟨hi.world.lead ht (.of_none rfl hne) List.mem_cons_self ?_ ?_ rfl rfl (.refl _), hi.calm⟩
  · intro y hy
    rcases List.mem_cons.mp hy with rfl | hy
    · exact .inr ⟨hold, hne⟩
    · exact .inl (List.mem_singleton.mp hy)
  · exact List.mem_cons_of_mem _ List.mem_cons_self

theorem Inv.dupRef {new : Fd} (hi : s.Inv) (ht : s.thread t = some (p, .dupRef f old new)) :
    (s.filedup t p f .idle).Inv := by
  have hne : old ≠ new := hi.world.framed.apt ht
  have hpos : 0 < s.ref f := by
    refine hi.world.pos_of_seen ht List.mem_cons_self ?_
    intro heq
    exact hne (Option.some.inj heq).symm
  rw [filedup_eq hpos]
  exact ⟨hi.world.cover ht (.of_none rfl trivial) rfl (List.mem_cons_of_mem _ List.mem_cons_self)
    (List.nil_subset _) rfl (.refl _), hi.calm⟩

/-- `exit` drops the reference of an entry before it clears it. -/
theorem Inv.exitClose (hi : s.Inv) (ht : s.thread t = some (p, .exitClose fd f)) :
    (s.fileclose t p f (.exitClear fd f)).Inv := by
  rw [fileclose_eq (hi.world.pos_of_seen ht List.mem_cons_self nofun)]
  exact ⟨hi.world.strip ht (.of_none rfl trivial) List.mem_cons_self (List.Subset.refl _)
    List.mem_cons_self rfl rfl (.refl _), hi.calm⟩

theorem Inv.exitClear (hi : s.Inv) (ht : s.thread t = some (p, .exitClear fd f)) (i : Nat) :
    ((s.setCall t p (.exitTest i)).setFile p fd none).Inv := by
  have hnext : script.Follows (.exitClear fd f) (.exitTest i) := .of_none rfl trivial
  exact ⟨hi.world.close ht hnext rfl nofun rfl (.refl _), hi.calm⟩

/-! ### Every step -/

/-- A `fork` that has not got to the end of the table goes on. -/
theorem follows_fork (hk : k.child = some np) (hk' : k'.child = some np)
    (hle : ∀ fd, k'.todo fd → k.todo fd) (hapt : k'.Apt) : script.Follows k k' := by
  refine ⟨fun {np'} hc => ?_, hapt⟩
  cases hk'.symm.trans hc
  exact ⟨hk, hle⟩

theorem Inv.forkStore (hi : s.Inv) (ht : s.thread t = some (p, .forkStore np fd f)) :
    ((s.setCall t p (.forkTest np (fd + 1))).setFile np fd (some f)).Inv := by
  refine ⟨hi.world.fill ht (follows_fork rfl rfl ?_ trivial) rfl ?_ ?_ (List.nil_subset _) rfl rfl
    (.refl _), hi.calm⟩
  · intro fd' hle
    exact Nat.le_of_succ_le hle
  · exact le_refl fd
  · exact Nat.not_succ_le_self _

theorem Inv.fdstore {k : Origin} (hi : s.Inv) (ht : s.thread t = some (p, .fdstore k f fd)) :
    ((s.setCall t p (k.stored f fd)).setFile p fd (some f)).Inv := by
  cases k with
  | dup old => exact hi.dupStore ht
  | opens | pipeWrite rf fd0 =>
    exact ⟨hi.world.put ht (.of_none rfl trivial) List.mem_cons_self nofun rfl rfl (.refl _), hi.calm⟩
  | pipeRead wf =>
    refine ⟨hi.world.put ht (.of_none rfl trivial) List.mem_cons_self ?_ rfl rfl (.refl _), hi.calm⟩
    intro x hx
    exact .inl (List.mem_singleton.mp hx)

theorem Inv.full {k : Origin} (hi : s.Inv) (ht : s.thread t = some (p, .fdalloc k f i)) :
    (s.setCall t p (k.full f)).Inv := by
  refine hi.hold ht rfl ?_
  cases k with
  | dup old | opens | pipeRead wf => exact .of_none nofun rfl (.refl _) rfl trivial
  | pipeWrite rf fd0 => exact .of_none (fun _ hy => .inr hy) rfl (.refl _) rfl trivial

theorem Inv.clear {fs : List FileId} (hi : s.Inv) (ht : s.thread t = some (p, k))
    (hfd : (fd, some f) ∈ k.seen) (hgap : k.gap = none) (hrefs : fs.Perm (f :: k.refs)) :
    ((s.setCall t p (.closing fs)).setFile p fd none).Inv :=
  ⟨hi.world.take ht (.of_none rfl trivial) hfd nofun hgap rfl hrefs, hi.calm⟩

/-- The state after a step that is written out; `cases` would evaluate `filealloc`. -/
theorem fst_of_some {s₁ : State} {e₁ : Event} (h : some (s₁, e₁) = some (s', e)) : s₁ = s' :=
  congrArg Prod.fst (Option.some.inj h)

theorem Inv.go (hi : s.Inv) (ht : s.thread t = some (p, k))
    (halone : ∀ fd ∈ k.reads .go, s.world.Alone script t p fd)
    (h : s.go t p k = some (s', e)) : s'.Inv := by
  cases k with
  | fdalloc k f i =>
    cases hround : s.round t p i (fun _ _ => .fdalloc k f (i + 1)) (.fdstore k f) with
    | some s₁ =>
      simp only [State.go, hround] at h
      cases h
      refine hi.round ht halone rfl (fun fd f' hfd => ?_) (fun fd hfd => ?_) hround
      · exact .of_none (fun _ hy => .inr hy) rfl (.refl _) rfl trivial
      · exact .of_none (fun _ hy => (List.mem_cons.mp hy).imp_left List.mem_singleton.mpr) rfl (.refl _)
          rfl trivial
    | none =>
      simp only [State.go, hround] at h
      cases h
      exact hi.full ht
  | fdstore k f fd =>
    cases h
    exact hi.fdstore ht
  | dupRef f old new =>
    cases h
    exact hi.dupRef ht
  | closeClear fd f | pipeClear rf wf fd0 =>
    cases h
    exact hi.clear ht List.mem_cons_self rfl (.refl _)
  | closing fs =>
    cases fs with
    | nil =>
      cases h
      exact hi.hold ht rfl (.of_none nofun rfl (.refl _) rfl trivial)
    | cons f fs =>
      cases h
      exact hi.drop ht (List.Subset.refl _) rfl rfl (.refl _) (.of_none rfl trivial)
  | pipeSecond f0 =>
    rw [← fst_of_some h]
    exact hi.alloc ht rfl (fun _ => List.Subset.refl _) (fun _ => rfl) (fun _ => .swap _ _ _)
      (fun _ => .of_none rfl trivial) (.of_none nofun rfl (.refl _) rfl trivial)
  | forkTest np i =>
    obtain ⟨s₁, hround, heq⟩ := Option.map_eq_some_iff.mp h
    cases heq
    refine hi.round ht halone rfl (fun fd f hfd => ?_) (fun fd hfd => ?_) hround
    · refine ⟨fun _ hy => .inl hy, rfl, .refl _, follows_fork rfl rfl (fun fd' hle => ?_) trivial⟩
      exact hfd ▸ hle
    · refine ⟨nofun, rfl, .refl _, follows_fork rfl rfl (fun fd' hle => ?_) trivial⟩
      exact Nat.le_of_succ_le hle
  | forkRead np i f =>
    cases h
    exact hi.reread ht List.mem_cons_self rfl
      ⟨fun _ hy => .inr hy, rfl, .refl _, follows_fork rfl rfl (fun _ => id) trivial⟩
  | forkDup np i f =>
    cases h
    exact hi.inc ht List.mem_cons_self (List.nil_subset _) rfl rfl (.refl _)
      (follows_fork rfl rfl (fun _ => id) trivial)
  | forkStore np i f =>
    cases h
    exact hi.forkStore ht
  | exitTest i =>
    obtain ⟨s₁, hround, heq⟩ := Option.map_eq_some_iff.mp h
    cases heq
    refine hi.round ht halone rfl (fun fd f hfd => ?_) (fun fd hfd => ?_) hround
    · exact .of_none (fun _ hy => .inl hy) rfl (.refl _) rfl trivial
    · exact .of_none nofun rfl (.refl _) rfl trivial
  | exitRead i f =>
    cases h
    exact hi.reread ht List.mem_cons_self rfl (.of_none (fun _ hy => .inr hy) rfl (.refl _) rfl trivial)
  | exitClose i f =>
    cases h
    exact hi.exitClose ht
  | exitClear i f =>
    cases h
    exact hi.exitClear ht _
  | idle | pipePage => cases h

theorem Inv.start {op : Op} (hi : s.Inv) (ht : s.thread t = some (p, .idle))
    (halone : ∀ fd ∈ Call.reads .idle op, s.world.Alone script t p fd)
    (h : s.start t p op = some (s', e)) : s'.Inv := by
  have hidle : script.Goes .idle .idle [] := .of_none nofun rfl (.refl _) rfl trivial
  cases op with
  | threadCreate q =>
    simp only [State.start] at h
    split at h
    · rename_i hq
      cases h
      refine ⟨hi.world.spawn hq (hi.world.framed.home ht) ?_ rfl rfl rfl rfl trivial, hi.calm⟩
      intro t' p' k' ht' hc
      exact (hi.world.framed.own ht' hc ht).1 rfl
    · cases h
  | threadExit =>
    cases h
    refine ⟨hi.world.retire (fun q => ?_) (fun _ => .inl rfl) (fun _ _ => rfl), hi.calm⟩
    by_cases hq : q = t
    · subst hq
      refine .inr ⟨update_self .., ?_⟩
      rw [show s.world.thread q = some (p, .idle) from ht]
      exact Script.hand_eq_none rfl rfl rfl
    · exact .inl (update_of_ne hq _ _)
  | opens | pipe =>
    rw [← fst_of_some h]
    exact hi.alloc ht rfl (fun _ => List.Subset.refl _) (fun _ => rfl) (fun _ => .refl _)
      (fun _ => .of_none rfl trivial) hidle
  | dup old =>
    cases h
    exact hi.test ht (halone old rfl) rfl
      (fun _ => .of_none (fun _ hy => .inl hy) rfl (.refl _) rfl trivial)
      (.of_none nofun rfl (.refl _) rfl trivial)
  | close fd =>
    cases h
    exact hi.test ht (halone fd rfl) rfl
      (fun _ => .of_none (fun _ hy => .inl hy) rfl (.refl _) rfl trivial)
      (.of_none nofun rfl (.refl _) rfl trivial)
  | fork =>
    cases h
    exact ⟨hi.world.birth ht rfl (List.nil_subset _) rfl (.refl _) rfl trivial, hi.calm⟩
  | exit =>
    cases h
    exact hi.hold ht rfl (.of_none nofun rfl (.refl _) rfl trivial)
  | go | page | publish | leave => cases h

theorem Inv.publish (hi : s.Inv) (ht : s.thread t = some (p, .forkTest np i))
    (hq : s.thread q = none) : ((s.setCall t p .idle).setCall q np .idle).Inv :=
  ⟨hi.world.publish ht rfl hq rfl (.of_none nofun rfl (.refl _) rfl trivial) rfl rfl rfl rfl rfl trivial,
    hi.calm⟩

theorem Inv.exited {gone : List Slot} (hi : s.Inv) (ht : s.thread t = some (p, .exitTest i))
    (hempty : ∀ fd, s.ofile (p, fd) = none)
    (hgone : ∀ q, ∀ k ∈ s.world.sibling t p q, q ∈ gone ∧ k = .idle) : (s.exited t p gone).Inv := by
  have hsibling : ∀ {q k}, q ≠ t → s.thread q = some (p, k) → q ∈ gone ∧ k = .idle := by
    intro q k hne hq
    exact hgone q k (World.sibling_eq hq hne)
  have hleft : ∀ {q p' k}, (s.exited t p gone).thread q = some (p', k) →
      q ≠ t ∧ s.thread q = some (p', k) ∧ p' ≠ p := by
    intro q p' k hq
    simp only [State.exited] at hq
    split at hq
    · cases hq
    · rename_i hnot
      refine ⟨fun h => hnot (.inl h), hq, fun hp => ?_⟩
      subst hp
      exact hnot (.inr ⟨(hsibling (fun h => hnot (.inl h)) hq).1, by rw [hq]; rfl⟩)
  refine ⟨hi.world.retire (fun q => ?_) (fun p' => ?_) ?_, hi.calm⟩
  · simp only [State.exited]
    split
    · rename_i hq
      refine .inr ⟨rfl, ?_⟩
      by_cases hqt : q = t
      · rw [hqt, show s.world.thread t = _ from ht]
        exact Script.hand_eq_none rfl rfl rfl
      · obtain ⟨-, hp⟩ := hq.resolve_left hqt
        obtain ⟨⟨p', k⟩, hq', hpk⟩ := Option.map_eq_some_iff.mp hp
        subst hpk
        obtain ⟨-, rfl⟩ := hsibling hqt hq'
        rw [show s.world.thread q = _ from hq']
        exact Script.hand_eq_none rfl rfl rfl
    · exact .inl rfl
  · by_cases hp : p' = p
    · subst hp
      exact .inr ⟨hempty, fun q k hq => (hleft hq).2.2 rfl⟩
    · exact .inl (update_of_ne hp _ _)
  · intro q p' k np hq hc
    have hnp := (hi.world.framed.own (hleft hq).2.1 hc ht).1
    exact update_of_ne hnp.symm _ _

theorem Inv.step (hi : s.Inv) {l : (Slot × Op) × Event} (h : Guarded Taken Undisturbed s l s') :
    s'.Inv := by
  obtain ⟨⟨t, op⟩, e⟩ := l
  obtain ⟨hstep, hrule⟩ := h
  simp only [Taken, State.step, hi.calm] at hstep
  cases ht : s.thread t with
  | none =>
    rw [ht] at hstep
    cases hstep
  | some x =>
    obtain ⟨p, k⟩ := x
    rw [ht] at hstep
    cases op with
    | leave gone =>
      cases k with
      | exitTest i =>
        simp only [Undisturbed, ht] at hrule
        simp only [State.act] at hstep
        split at hstep
        · cases hstep
          exact hi.exited ht hrule.1 hrule.2
        · cases hstep
      | _ => cases hstep
    | publish q =>
      cases k with
      | forkTest np i =>
        simp only [State.act] at hstep
        split at hstep
        · rename_i hq
          cases hstep
          exact hi.publish ht hq.2
        · cases hstep
      | _ => cases hstep
    | page ok =>
      cases k with
      | pipePage f0 f1 =>
        cases hstep
        refine hi.hold ht rfl ?_
        cases ok with
        | true | false => exact .of_none nofun rfl (.refl _) rfl trivial
      | _ => cases hstep
    | go =>
      simp only [Undisturbed, ht] at hrule
      exact hi.go ht hrule hstep
    | _ =>
      simp only [Undisturbed, ht] at hrule
      simp only [State.act] at hstep
      split at hstep
      · rename_i hk
        subst hk
        exact hi.start ht hrule hstep
      · cases hstep

end State

end ThreadKernel.File
