import ThreadKernel.File.Refs

/-! Reference counts and descriptors over whole runs.

In every run that keeps to `Undisturbed`, the count of a file is the number of entries
that point at it and of references that calls hold. At the two points where a call has
stored a pointer ahead of its reference, or dropped a reference ahead of its pointer, the
entries are one more than that, and at no other. Nothing panics, and a descriptor that has
been given out is given out again only after it has been closed. -/
namespace ThreadKernel.File

open Refcount Lts Function

namespace State

/-- The entries of shared data not yet given up that point at `f`. -/
def entries (s : State) (f : FileId) : Nat := s.world.entries script f

/-- The references that calls in progress have obtained and not yet stored or dropped. -/
def inProgress (s : State) (f : FileId) : Nat := s.world.inProgress script f

/-- The entries that are ahead of their reference, or behind it. -/
def owed (s : State) (f : FileId) : Nat := s.world.owed script f

variable {s s' : State} {t : Slot} {p : Nat} {k : Call} {fd : Fd} {e : Event}

theorem inv_boot : boot.Inv := by
  have hthread : ∀ q, boot.world.thread q = none ∨ boot.world.thread q = some (0, .idle) := by
    intro q
    simp only [world, boot]
    split
    · exact .inr rfl
    · exact .inl rfl
  refine ⟨World.Inv.start (fun q => ?_) (fun {q p k} hq => ?_) (fun _ => rfl) (fun f => ?_), rfl⟩
  · rcases hthread q with hq | hq
    · rw [hq]
    · rw [hq]
      exact Script.hand_eq_none rfl rfl rfl
  · rcases hthread q with hq' | hq'
    · cases hq'.symm.trans hq
    · cases hq'.symm.trans hq
      exact ⟨⟨Nat.one_pos, rfl⟩, trivial, rfl⟩
  · have hnone : (boot.world.book script).pointing f = ∅ :=
      Finset.filter_eq_empty_iff.mpr fun x _ hx => nomatch hx
    rfl

theorem gap_full (h : k.gap = some fd) : ∃ f, (fd, some f) ∈ k.seen := by
  cases k with
  | dupRef f old new =>
    cases h
    exact ⟨f, List.mem_cons_of_mem _ List.mem_cons_self⟩
  | exitClear i f =>
    cases h
    exact ⟨f, List.mem_cons_self⟩
  | _ => cases h

/-! ### What a step does to the tables -/

/-- A step that is told of a table fills an entry that was null, or clears one; all other
entries stay. -/
structure Effect (s : State) (e : Event) (s' : State) : Prop where
  keeps : ∀ p fd, s.ofile (p, fd) ≠ none → s'.ofile (p, fd) ≠ none ∨ e = .cleared p fd
  stores : ∀ p fd, e = .stored p fd → s.ofile (p, fd) = none ∧ s'.ofile (p, fd) ≠ none

theorem Effect.of_same (h : s'.ofile = s.ofile) : Effect s .quiet s' :=
  ⟨fun p fd hne => .inl (by rw [h]; exact hne), nofun⟩

theorem Effect.of_stored {f : FileId} (hnone : s.ofile (p, fd) = none)
    (h : s'.ofile = update s.ofile (p, fd) (some f)) : Effect s (.stored p fd) s' := by
  refine ⟨fun p' fd' hne => .inl ?_, fun p' fd' heq => ?_⟩
  · by_cases hx : (p', fd') = (p, fd)
    · rw [h, hx, update_self]
      nofun
    · rw [h, update_of_ne hx]
      exact hne
  · cases heq
    refine ⟨hnone, ?_⟩
    rw [h, update_self]
    nofun

theorem Effect.of_cleared (h : s'.ofile = update s.ofile (p, fd) none) :
    Effect s (.cleared p fd) s' := by
  refine ⟨fun p' fd' hne => ?_, nofun⟩
  by_cases hx : (p', fd') = (p, fd)
  · cases hx
    exact .inr rfl
  · refine .inl ?_
    rw [h, update_of_ne hx]
    exact hne

section
variable {f : FileId} {found : FileId → Call} {null : Call}

@[simp] theorem filedup_ofile : (s.filedup t p f k).ofile = s.ofile := by
  unfold filedup
  split <;> rfl

@[simp] theorem fileclose_ofile : (s.fileclose t p f k).ofile = s.ofile := by
  unfold fileclose
  split <;> rfl

@[simp] theorem alloc_ofile : (s.alloc t p found null).ofile = s.ofile := by
  unfold State.alloc
  split <;> rfl

@[simp] theorem test_ofile : (s.test t p fd found null).ofile = s.ofile := by
  unfold State.test
  split <;> rfl

@[simp] theorem reread_ofile : (s.reread t p fd found).ofile = s.ofile := by
  unfold State.reread
  split <;> rfl

theorem round_ofile {i : Nat} {found : Fd → FileId → Call} {null : Fd → Call}
    (h : s.round t p i found null = some s') : s'.ofile = s.ofile := by
  unfold State.round at h
  split at h
  · cases h
    exact test_ofile
  · cases h

end

theorem Inv.go_effect (hi : s.Inv) (ht : s.thread t = some (p, k)) (h : s.go t p k = some (s', e)) :
    Effect s e s' := by
  cases k with
  | fdalloc k f i =>
    cases hround : s.round t p i (fun _ _ => .fdalloc k f (i + 1)) (.fdstore k f) with
    | some s₁ =>
      simp only [State.go, hround] at h
      cases h
      exact .of_same (round_ofile hround)
    | none =>
      simp only [State.go, hround] at h
      cases h
      exact .of_same rfl
  | fdstore k f fd =>
    cases h
    exact .of_stored (hi.world.entry_of_seen ht List.mem_cons_self) rfl
  | forkStore np i f =>
    cases h
    exact .of_stored ((hi.world.framed.child ht rfl).2 i (le_refl i)) rfl
  | closeClear | pipeClear | exitClear =>
    cases h
    exact .of_cleared rfl
  | forkTest | exitTest =>
    obtain ⟨s₁, hround, heq⟩ := Option.map_eq_some_iff.mp h
    cases heq
    exact .of_same (round_ofile hround)
  | closing fs =>
    cases fs with
    | nil =>
      cases h
      exact .of_same rfl
    | cons f fs =>
      cases h
      exact .of_same fileclose_ofile
  | pipeSecond =>
    obtain ⟨rfl, rfl⟩ := Prod.mk.inj (Option.some.inj h)
    exact .of_same alloc_ofile
  | dupRef | forkDup =>
    cases h
    exact .of_same filedup_ofile
  | forkRead | exitRead =>
    cases h
    exact .of_same reread_ofile
  | exitClose =>
    cases h
    exact .of_same fileclose_ofile
  | idle | pipePage => cases h

theorem Inv.start_effect {op : Op} (hi : s.Inv) (h : s.start t p op = some (s', e)) :
    Effect s e s' := by
  cases op with
  | threadCreate q =>
    simp only [State.start] at h
    split at h
    · cases h
      exact .of_same rfl
    · cases h
  | opens | pipe =>
    obtain ⟨rfl, rfl⟩ := Prod.mk.inj (Option.some.inj h)
    exact .of_same alloc_ofile
  | dup | close =>
    cases h
    exact .of_same test_ofile
  | fork =>
    cases h
    exact .of_same hi.world.framed.zeroed
  | threadExit | exit =>
    cases h
    exact .of_same rfl
  | go | page | publish | leave => cases h

theorem Inv.effect (hi : s.Inv) {l : (Slot × Op) × Event} (h : Taken s l s') : Effect s l.2 s' := by
  obtain ⟨⟨t, op⟩, e⟩ := l
  simp only [Taken, State.step, hi.calm] at h
  cases ht : s.thread t with
  | none =>
    rw [ht] at h
    cases h
  | some x =>
    obtain ⟨p, k⟩ := x
    rw [ht] at h
    cases op with
    | go => exact hi.go_effect ht h
    | page ok =>
      cases k with
      | pipePage =>
        cases h
        exact .of_same rfl
      | _ => cases h
    | publish q =>
      cases k with
      | forkTest np i =>
        simp only [State.act] at h
        split at h
        · cases h
          exact .of_same rfl
        · cases h
      | _ => cases h
    | leave gone =>
      cases k with
      | exitTest i =>
        simp only [State.act] at h
        split at h
        · cases h
          exact .of_same rfl
        · cases h
      | _ => cases h
    | _ =>
      simp only [State.act] at h
      split at h
      · exact hi.start_effect h
      · cases h

end State

/-! ### Runs -/

/-- Between two times that a descriptor is given out it has been closed. -/
def Distinct (h : List ((Slot × Op) × Event)) : Prop :=
  ∀ newer between older a a' p fd,
    h = newer ++ (a, .stored p fd) :: (between ++ (a', .stored p fd) :: older) →
      ∃ a'', (a'', .cleared p fd) ∈ between

/-- A descriptor that has been given out is open, or it has been closed since. -/
def Tracked (h : List ((Slot × Op) × Event)) (s : State) : Prop :=
  ∀ newer older a p fd, h = newer ++ (a, .stored p fd) :: older →
    s.ofile (p, fd) ≠ none ∨ ∃ a', (a', .cleared p fd) ∈ newer

variable {h : List ((Slot × Op) × Event)} {s s' : State} {l : (Slot × Op) × Event}

theorem Tracked.step (ht : Tracked h s) (he : State.Effect s l.2 s') : Tracked (l :: h) s' := by
  intro newer older a p fd heq
  cases newer with
  | nil =>
    cases heq
    exact .inl (he.stores p fd rfl).2
  | cons l' newer =>
    obtain ⟨rfl, hrest⟩ := List.cons.inj heq
    rcases ht newer older a p fd hrest with hopen | ⟨a', ha'⟩
    · rcases he.keeps p fd hopen with hopen | hcleared
      · exact .inl hopen
      · exact .inr ⟨l.1, List.mem_cons.mpr (.inl (Prod.ext rfl hcleared.symm))⟩
    · exact .inr ⟨a', List.mem_cons_of_mem _ ha'⟩

theorem Distinct.step (hd : Distinct h) (ht : Tracked h s) (he : State.Effect s l.2 s') :
    Distinct (l :: h) := by
  intro newer between older a a' p fd heq
  cases newer with
  | nil =>
    obtain ⟨rfl, hrest⟩ := List.cons.inj heq
    exact (ht between older a' p fd hrest).resolve_left fun hopen => hopen (he.stores p fd rfl).1
  | cons l' newer =>
    exact hd newer between older a a' p fd (List.cons.inj heq).2

theorem run_inv (hr : Run (Guarded Taken State.Undisturbed) State.boot h s) :
    s.Inv ∧ Tracked h s ∧ Distinct h := by
  refine hr.invariant (fun h s => s.Inv ∧ Tracked h s ∧ Distinct h) ⟨State.inv_boot, ?_, ?_⟩ ?_
  · intro newer older a p fd heq
    simp at heq
  · intro newer between older a a' p fd heq
    simp at heq
  · intro h s l s' _ ⟨hi, ht, hd⟩ hstep
    have he := hi.effect hstep.1
    exact ⟨hi.step hstep, ht.step he, hd.step ht he⟩

/-- In a run that keeps to `Undisturbed` nothing panics and no descriptor is given out
twice, and every count is the number of entries and of references that calls hold, but at
the two points where an entry is without a reference of its own. -/
theorem refs_exact (hr : Run (Guarded Taken State.Undisturbed) State.boot h s) :
    ((∀ f, s.ref f = s.entries f + s.inProgress f) ↔
      ∀ t p k, s.thread t = some (p, k) → k.gap = none) ∧
    (∀ f, s.ref f + s.owed f = s.entries f + s.inProgress f) ∧ s.panic = none ∧ Distinct h := by
  obtain ⟨hi, -, hd⟩ := run_inv hr
  exact ⟨hi.world.exact_iff State.gap_full, hi.world.exact, hi.calm, hd⟩

/-- Two threads: one opens a file and dups it while the other opens another one, and the
first forks; all three descriptors are then open in both processes. -/
theorem refs_exact_fork : ∃ h s, Run (Guarded Taken State.Undisturbed) State.boot h s ∧
    s.ref 0 = 4 ∧ s.ref 1 = 2 ∧ (∀ f, s.ref f = s.entries f + s.inProgress f) ∧
    s.panic = none ∧ Distinct h := by
  have hrun : ∃ h s, Run (Guarded Taken State.Undisturbed) State.boot h s ∧
      s.ref 0 = 4 ∧ s.ref 1 = 2 ∧ ∀ t, ∀ x ∈ s.thread t, x.2.gap = none :=
    Run.exists_of_named State.Undisturbed
      ([(0, Op.threadCreate 1), (0, .opens), (0, .go), (0, .go), (1, .opens), (0, .dup 0), (0, .go),
        (0, .go), (0, .go), (0, .go), (1, .go), (1, .go), (1, .go), (1, .go), (0, .fork)] ++
        List.replicate 25 (0, Op.go) ++ [(0, Op.publish 2)]) (by decide +kernel)
  obtain ⟨h, s, hr, h₀, h₁, hgap⟩ := hrun
  obtain ⟨hiff, -, hcalm, hd⟩ := refs_exact hr
  exact ⟨h, s, hr, h₀, h₁, hiff.mpr fun t p k ht => hgap t (p, k) ht, hcalm, hd⟩

/-- Two threads close one descriptor, each having read it before the other clears it: the
second `fileclose` panics. Two threads open a file each, having both found entry 0 null:
both get descriptor 0, and the first file keeps a reference that nobody has. -/
theorem shared_table_races :
    (∃ h s, Run Taken State.boot h s ∧ s.panic = some .fileclose) ∧
    ∃ h s, Run Taken State.boot h s ∧ ¬ Distinct h ∧
      s.ref 0 = 1 ∧ s.entries 0 + s.inProgress 0 = 0 := by
  constructor
  · exact Run.exists_of_acts [(0, .threadCreate 1), (0, .opens), (0, .go), (0, .go), (0, .close 0),
      (1, .close 0), (0, .go), (1, .go), (0, .go), (1, .go)] (by decide +kernel)
  · have hrun : ∃ h s, Run Taken State.boot h s ∧
        h.take 2 = [((1, .go), .stored 0 0), ((0, .go), .stored 0 0)] ∧
        s.ref 0 = 1 ∧ s.entries 0 + s.inProgress 0 = 0 :=
      Run.exists_of_acts [(0, .threadCreate 1), (0, .opens), (1, .opens), (0, .go), (1, .go), (0, .go),
        (1, .go)] (by decide +kernel)
    obtain ⟨h, s, hr, htake, href, hnone⟩ := hrun
    refine ⟨h, s, hr, fun hd => ?_, href, hnone⟩
    have heq := List.take_append_drop 2 h
    rw [htake] at heq
    obtain ⟨a, ha⟩ := hd [] [] (h.drop 2) (1, .go) (0, .go) 0 0 heq.symm
    exact List.not_mem_nil ha

end ThreadKernel.File
