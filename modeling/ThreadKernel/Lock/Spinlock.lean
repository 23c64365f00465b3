import ThreadKernel.Library.Triple

/-! Spin locks and the depth of `pushcli`, as one CPU sees them.

The code of `spinlock.c` on the fields of `struct cpu` that it reads, with the locks this
CPU holds. A lock that another CPU holds makes `acquire` wait, so `acquire` returns with
the lock or not at all; the calls below are about the CPU that they return on. -/
namespace ThreadKernel.Lock

open Code (Triple bind_ok times)

/-- The spin locks that the calls on the table take; the rest have numbers. -/
inductive Spinlock where
  | ptable | kmem | cons | ftable | icache
  | other (n : Nat)
  deriving DecidableEq, Repr

/-- `intr` is `FL_IF` of the flags register. -/
structure Core where
  held : List Spinlock
  ncli : Nat
  intena : Bool
  intr : Bool
  deriving DecidableEq, Repr

/-- Why a call does not return. -/
inductive Stop where
  | panic (msg : String)
  /-- A page fault in the kernel. -/
  | fault
  /-- It sleeps and has not been switched to again. -/
  | asleep
  deriving DecidableEq, Repr

abbrev Code (α : Type) := StateT Core (Except Stop) α

/-! ### spinlock.c -/

def pushcli : Code Unit := fun c =>
  .ok ((), {c with
    ncli := c.ncli + 1, intena := if c.ncli = 0 then c.intr else c.intena, intr := false})

def popcli : Code Unit := fun c =>
  if c.intr then .error (.panic "popcli - interruptible")
  else if c.ncli = 0 then .error (.panic "popcli")
  else .ok ((), {c with ncli := c.ncli - 1, intr := c.ncli = 1 && c.intena})

/-- The answer is read between `pushcli` and `popcli`. -/
def holding (l : Spinlock) : Code Bool := do
  pushcli
  let c ← get
  popcli
  return l ∈ c.held

def acquire (l : Spinlock) : Code Unit := do
  pushcli
  if ← holding l then throw (.panic "acquire")
  else modify fun c => {c with held := l :: c.held}

def release (l : Spinlock) : Code Unit := do
  if ← holding l then
    modify fun c => {c with held := c.held.erase l}
    popcli
  else throw (.panic "release")

/-! ### What they come to -/

namespace Core

/-- Interrupts are off inside a section, and the locks held were all pushed. -/
structure Wf (c : Core) : Prop where
  masked : c.ncli ≠ 0 → c.intr = false
  nodup : c.held.Nodup
  pushed : c.held.length ≤ c.ncli

/-- The CPU once it has taken `l`. -/
def push (c : Core) (l : Spinlock) : Core :=
  ⟨l :: c.held, c.ncli + 1, if c.ncli = 0 then c.intr else c.intena, false⟩

/-- Two CPUs that are the same to the code that runs on them: `intena` has no meaning at
depth zero. -/
structure Same (c c' : Core) : Prop where
  held : c'.held = c.held
  ncli : c'.ncli = c.ncli
  intr : c'.intr = c.intr
  intena : c.ncli ≠ 0 → c'.intena = c.intena

theorem Same.refl (c : Core) : Same c c := ⟨rfl, rfl, rfl, fun _ => rfl⟩

theorem Same.trans {c₁ c₂ c₃ : Core} (h : Same c₁ c₂) (h' : Same c₂ c₃) : Same c₁ c₃ where
  held := h'.held.trans h.held
  ncli := h'.ncli.trans h.ncli
  intr := h'.intr.trans h.intr
  intena := fun hn => (h'.intena (by rw [h.ncli]; exact hn)).trans (h.intena hn)

theorem Same.wf {c c' : Core} (h : Same c c') (hc : c.Wf) : c'.Wf where
  masked := by rw [h.ncli, h.intr]; exact hc.masked
  nodup := by rw [h.held]; exact hc.nodup
  pushed := by rw [h.held, h.ncli]; exact hc.pushed

theorem Same.push {c c' : Core} (h : Same c c') (l : Spinlock) : Same (c.push l) (c'.push l) where
  held := by simp only [Core.push, h.held]
  ncli := by simp only [Core.push, h.ncli]
  intr := rfl
  intena := by
    intro _
    simp only [Core.push, h.ncli, h.intr]
    split
    · rfl
    · exact h.intena ‹_›

theorem Wf.push {c : Core} (hc : c.Wf) {l : Spinlock} (hl : l ∉ c.held) : (c.push l).Wf where
  masked := fun _ => rfl
  nodup := List.nodup_cons.mpr ⟨hl, hc.nodup⟩
  pushed := Nat.succ_le_succ hc.pushed

end Core

variable {c c' : Core} {l : Spinlock}

theorem holding_eq (hc : c.Wf) (l : Spinlock) :
    ∃ c', holding l c = .ok (decide (l ∈ c.held), c') ∧ c.Same c' := by
  refine ⟨_, rfl, rfl, rfl, ?_, ?_⟩
  · by_cases hn : c.ncli = 0
    · simp [hn]
    · simp [hn, hc.masked hn]
  · intro hn
    simp [hn]

theorem pushcli_wf (hc : c.Wf) :
    (⟨c.held, c.ncli + 1, if c.ncli = 0 then c.intr else c.intena, false⟩ : Core).Wf where
  masked := fun _ => rfl
  nodup := hc.nodup
  pushed := Nat.le_succ_of_le hc.pushed

theorem acquire_ok (hc : c.Wf) (hl : l ∉ c.held) :
    ∃ c', acquire l c = .ok ((), c') ∧ (c.push l).Same c' := by
  obtain ⟨c₁, hhold, hsame⟩ := holding_eq (pushcli_wf hc) l
  refine ⟨{c₁ with held := l :: c₁.held}, ?_, ?_⟩
  · refine bind_ok.mpr ⟨(), _, rfl, bind_ok.mpr ⟨_, c₁, hhold, ?_⟩⟩
    rw [if_neg (by simpa using hl)]
    rfl
  · exact ⟨congrArg (l :: ·) hsame.held, hsame.ncli, hsame.intr, hsame.intena⟩

theorem not_held_of_acquire (hc : c.Wf) (h : acquire l c = .ok ((), c')) : l ∉ c.held := by
  intro hl
  obtain ⟨_, _, hpush, h⟩ := bind_ok.mp h
  cases hpush
  obtain ⟨_, c₁, hhold, h⟩ := bind_ok.mp h
  obtain ⟨c₂, hhold', -⟩ := holding_eq (pushcli_wf hc) l
  cases hhold
  rw [if_pos (by simpa using hl)] at h
  cases h

theorem release_ok {c₁ : Core} (hc : c.Wf) (hl : l ∉ c.held) (h : (c.push l).Same c₁) :
    ∃ c', release l c₁ = .ok ((), c') ∧ c.Same c' := by
  obtain ⟨c₂, hhold, hsame⟩ := holding_eq (h.wf (hc.push hl)) l
  have hsame := h.trans hsame
  have hheld : l ∈ c₁.held := by
    rw [h.held]
    exact List.mem_cons_self
  have hintr : c₂.intr = false := hsame.intr
  have hncli : c₂.ncli = c.ncli + 1 := hsame.ncli
  refine ⟨{c₂ with held := c₂.held.erase l, ncli := c.ncli, intr := c.ncli = 0 && c₂.intena}, ?_, ?_⟩
  · refine bind_ok.mpr ⟨_, c₂, hhold, ?_⟩
    rw [if_pos (by simpa using hheld)]
    refine bind_ok.mpr ⟨(), _, rfl, ?_⟩
    simp [popcli, hintr, hncli]
  · refine ⟨?_, rfl, ?_, ?_⟩
    · rw [hsame.held]
      exact List.erase_cons_head _ _
    · have hintena : c₂.intena = if c.ncli = 0 then c.intr else c.intena :=
        hsame.intena (Nat.succ_ne_zero _)
      rw [hintena]
      by_cases hn : c.ncli = 0
      · simp [hn]
      · simp [hn, hc.masked hn]
    · intro hn
      have hintena := hsame.intena (Nat.succ_ne_zero _)
      rw [hintena]
      simp [Core.push, hn]

/-! ### Triples -/

/-- A call that leaves the CPU as it found it. -/
def Keeps {α : Type} (p : Code α) : Prop :=
  ∀ c : Core, c.Wf → Triple c.Same p fun _ => c.Same

theorem acquire_triple (hc : c.Wf) (hl : l ∉ c.held) :
    Triple c.Same (acquire l) fun _ => (c.push l).Same := by
  intro c₁ _ c' h heq
  obtain ⟨c₂, hok, hsame⟩ := acquire_ok (h.wf hc) (by rw [h.held]; exact hl)
  rw [hok] at heq
  cases heq
  exact (h.push l).trans hsame

theorem release_triple (hc : c.Wf) (hl : l ∉ c.held) :
    Triple (c.push l).Same (release l) fun _ => c.Same := by
  intro c₁ _ c' h heq
  obtain ⟨c₂, hok, hsame⟩ := release_ok hc hl h
  rw [hok] at heq
  cases heq
  exact hsame

/-- A section: whatever runs inside with the lock held, on the paths that give it back. -/
theorem Keeps.locked {α : Type} {p : Code α}
    (h : ∀ c : Core, c.Wf → l ∉ c.held → Triple (c.push l).Same p fun _ => c.Same) :
    Keeps (acquire l >>= fun _ => p) := by
  intro c hc
  by_cases hl : l ∈ c.held
  · intro c₁ a c' hsame heq
    obtain ⟨_, _, hacq, -⟩ := bind_ok.mp heq
    rw [← hsame.held] at hl
    exact absurd hl (not_held_of_acquire (hsame.wf hc) hacq)
  · exact (acquire_triple hc hl).seq fun _ => h c hc hl

theorem Keeps.seq {α β : Type} {p : Code α} {f : α → Code β} (hp : Keeps p)
    (hf : ∀ a, Keeps (f a)) : Keeps (p >>= f) :=
  fun c hc => (hp c hc).seq fun a => hf a c hc

theorem Keeps.ret {α : Type} (a : α) : Keeps (pure a) :=
  fun _ _ => Triple.ret fun _ h => h

theorem Keeps.stop {α : Type} (e : Stop) : Keeps (throw e : Code α) :=
  fun _ _ => Triple.stop

theorem Keeps.times {p : Code Unit} (hp : Keeps p) (n : Nat) : Keeps (times n p) :=
  fun c hc => (hp c hc).times n

theorem Keeps.inside {α : Type} {p : Code α} (hp : Keeps p) (hc : c.Wf) (hl : l ∉ c.held) :
    Triple (c.push l).Same p fun _ => (c.push l).Same :=
  hp _ (hc.push hl)

/-- Taken and given back at once. -/
def brief (l : Spinlock) : Code Unit := do
  acquire l
  release l

theorem brief_keeps (l : Spinlock) : Keeps (brief l) :=
  Keeps.locked fun _ hc hl => release_triple hc hl

theorem brief_ok (hc : c.Wf) (hl : l ∉ c.held) : ∃ c', brief l c = .ok ((), c') ∧ c.Same c' := by
  obtain ⟨c₁, hacq, hsame⟩ := acquire_ok hc hl
  obtain ⟨c₂, hrel, hsame'⟩ := release_ok hc hl hsame
  exact ⟨c₂, bind_ok.mpr ⟨(), c₁, hacq, hrel⟩, hsame'⟩

theorem times_brief_ok (hc : c.Wf) (hl : l ∉ c.held) (n : Nat) :
    ∃ c', times n (brief l) c = .ok ((), c') ∧ c.Same c' := by
  induction n generalizing c with
  | zero => exact ⟨c, rfl, .refl c⟩
  | succ n ih =>
    obtain ⟨c₁, hbrief, hsame⟩ := brief_ok hc hl
    obtain ⟨c₂, htimes, hsame'⟩ := ih (hsame.wf hc) (by rw [hsame.held]; exact hl)
    exact ⟨c₂, bind_ok.mpr ⟨(), c₁, hbrief, htimes⟩, hsame.trans hsame'⟩

end ThreadKernel.Lock
