import ThreadKernel.Vm.Sbrk
import ThreadKernel.Vm.Sections

/-! The directory of a process fits its size.

The sections of `ptable.lock` keep the two together, but for `sbrk(-sz)`. What runs
outside the lock keeps them together as long as it is alone: `fork` reads the size twice
and the directory in between, and `exec` stores the directory and the size one after the
other. `Calm` is what that takes; on the runs that keep it nothing panics. -/
namespace ThreadKernel.Vm

open Lts State Function

/-! ### What it takes -/

def Call.isIdle : Call → Bool
  | .idle => true
  | .sbrk _ _ | .forkCopy _ _ _ _ | .forkSize _ | .forkPublish _ _ | .execing | .execDir _ _
  | .execSz _ _ | .execFree _ => false

/-- `fork` is between its two reads of the size. -/
def Call.copies : Call → Bool
  | .forkCopy _ _ _ _ | .forkSize _ => true
  | .idle | .sbrk _ _ | .forkPublish _ _ | .execing | .execDir _ _ | .execSz _ _ | .execFree _ => false

/-- The call is about to take every page of a process of size `sz`. -/
def Call.Empties (sz : Nat) : Call → Prop
  | .sbrk _ n => Vm.Empties sz n
  | .idle | .forkCopy _ _ _ _ | .forkSize _ | .forkPublish _ _ | .execing | .execDir _ _ | .execSz _ _
  | .execFree _ => False

instance (sz : Nat) (k : Call) : Decidable (k.Empties sz) := by
  apply @Call.casesOn _ k <;> intros <;> dsimp only [Call.Empties] <;> infer_instance

def State.Copying (s : State) (own : Page) : Prop :=
  ∃ p, ∃ x ∈ s.thread p, x.1 = own ∧ x.2.copies = true

instance (s : State) (own : Page) : Decidable (s.Copying own) :=
  inferInstanceAs (Decidable (∃ p, ∃ x ∈ s.thread p, x.1 = own ∧ x.2.copies = true))

/-- No `sbrk(-sz)`; the size and the directory do not change under a `fork`;
`kill_other_threads` gets hold of every other thread; and neither it nor `exit` finds another
thread `RUNNING` or `EMBRYO`. -/
def Calm (s : State) : Event → Prop
  | .grown p _ _ _ | .growFailed p =>
    ∀ x ∈ s.thread p, ¬ x.2.Empties (s.space x.1).sz ∧ ¬ s.Copying x.1
  | .created p _ _ | .createFailed p => ∀ x ∈ s.thread p, ¬ s.Copying x.1
  | .killedOthers p gone running =>
    ∀ x ∈ s.thread p, ∀ q, ∀ y ∈ s.thread q, y.1 = x.1 → q = p ∨ q ∈ gone ∧ q ∉ running
  | .exited p running => ∀ x ∈ s.thread p, ∀ q, ∀ y ∈ s.thread q, y.1 = x.1 → q = p ∨ q ∉ running
  | .quiet | .asked _ _ | .panicked _ => True

instance (s : State) (e : Event) : Decidable (Calm s e) := by
  apply @Event.casesOn _ e <;> intros <;> dsimp only [Calm] <;> infer_instance

/-! ### The invariant -/

/-- The call has stopped the other threads of its process. -/
def Call.execs : Call → Bool
  | .execing | .execDir _ _ | .execSz _ _ | .execFree _ => true
  | .idle | .sbrk _ _ | .forkCopy _ _ _ _ | .forkSize _ | .forkPublish _ _ => false

namespace State

def Fits (s : State) (own : Page) : Prop := Exact (s.dirOf own) (s.space own).sz

/-- `p` is the only thread of `own`. -/
def Only (s : State) (p : Slot) (own : Page) : Prop := ∀ q k, s.thread q = some (own, k) → q = p

/-- A directory of no live process. -/
def Loose (s : State) (i : Nat) : Prop :=
  i < s.nextDir ∧ ∀ q own k, s.thread q = some (own, k) → (s.space own).pgdir ≠ i

/-- What a thread of `own` can count on while it is in a call. -/
def Fine (s : State) (p : Slot) (own : Page) : Call → Prop
  | .idle | .sbrk _ _ => s.Fits own
  | .forkCopy src limit v d =>
    s.Fits own ∧ src = (s.space own).pgdir ∧ limit = (s.space own).sz ∧ v ≤ pages limit ∧
      ∀ w, (d.get w).isSome = true ↔ w < v
  | .forkSize d => s.Fits own ∧ Exact d (s.space own).sz
  | .forkPublish d sz => s.Fits own ∧ Exact d sz
  | .execing => s.Fits own ∧ s.Only p own
  | .execDir d sz => s.Fits own ∧ s.Only p own ∧ Exact d sz
  -- between the two stores
  | .execSz sz old => s.Only p own ∧ s.Loose old ∧ Exact (s.dirOf own) sz
  | .execFree old => s.Fits own ∧ s.Only p own ∧ s.Loose old

variable {s s' : State} {p q : Slot} {own : Page} {k : Call}

theorem Fine.only (h : s.Fine p own k) (hk : k.execs = true) : s.Only p own := by
  cases k with
  | execing => exact h.2
  | execDir => exact h.2.1
  | execSz => exact h.1
  | execFree => exact h.2.1
  | idle | sbrk | forkCopy | forkSize | forkPublish => cases hk

/-- What `Fine` depends on. -/
theorem Fine.frame (h : s.Fine p own k) (hspace : s'.space own = s.space own)
    (hdir : s'.dirOf own = s.dirOf own) (honly : s.Only p own → s'.Only p own ∨ k.execs = false)
    (hloose : ∀ {i}, s.Loose i → s'.Loose i) : s'.Fine p own k := by
  have hfits : s'.Fits own ↔ s.Fits own := by rw [Fits, Fits, hdir, hspace]
  have hand : k.execs = true → s'.Only p own := fun hk =>
    (honly (h.only hk)).resolve_right (by simp [hk])
  cases k with
  | idle | sbrk => exact hfits.mpr h
  | forkCopy | forkSize =>
    rw [Fine, hfits, hspace]
    exact h
  | forkPublish => exact ⟨hfits.mpr h.1, h.2⟩
  | execing => exact ⟨hfits.mpr h.1, hand rfl⟩
  | execDir => exact ⟨hfits.mpr h.1, hand rfl, h.2.2⟩
  | execSz => exact ⟨hand rfl, hloose h.2.1, by rw [hdir]; exact h.2.2⟩
  | execFree => exact ⟨hfits.mpr h.1, hand rfl, hloose h.2.2⟩

end State

structure Tight (s : State) : Prop where
  call : ∀ {p own k}, s.thread p = some (own, k) → s.Fine p own k
  dirs : ∀ {p q own own' k k'}, s.thread p = some (own, k) → s.thread q = some (own', k') →
    (s.space own).pgdir = (s.space own').pgdir → own = own'
  fresh : ∀ {p own k}, s.thread p = some (own, k) → (s.space own).pgdir < s.nextDir ∧ own < s.nextSpace

/-- No process is new, and each has the directory it had. -/
structure SameDirs (s s' : State) : Prop where
  live : ∀ {p own k}, s'.thread p = some (own, k) → ∃ q k', s.thread q = some (own, k')
  pgdir : ∀ own, (s'.space own).pgdir = (s.space own).pgdir
  nextDir : s'.nextDir = s.nextDir
  nextSpace : s'.nextSpace = s.nextSpace

theorem SameDirs.loose {s s' : State} (h : SameDirs s s') {i : Nat} (hi : s.Loose i) : s'.Loose i := by
  refine ⟨by rw [h.nextDir]; exact hi.1, fun p own k hp => ?_⟩
  obtain ⟨q, k', hq⟩ := h.live hp
  rw [h.pgdir]
  exact hi.2 q own k' hq

/-- `own` has a directory that no process had; the others are as they were. -/
structure Renewed (s s' : State) (own : Page) : Prop where
  thread : ∀ {p own' k}, s'.thread p = some (own', k) → own' ≠ own → s.thread p = some (own', k)
  space : ∀ {own'}, own' ≠ own → s'.space own' = s.space own'
  dir : ∀ {i}, i < s.nextDir → s'.dir i = s.dir i
  pgdir : (s'.space own).pgdir = s.nextDir
  known : own < s'.nextSpace
  nextDir : s'.nextDir = s.nextDir + 1
  nextSpace : s.nextSpace ≤ s'.nextSpace

theorem Renewed.loose {s s' : State} {own : Page} (h : Renewed s s' own) {i : Nat} (hi : s.Loose i) :
    s'.Loose i := by
  refine ⟨by rw [h.nextDir]; exact Nat.lt_succ_of_lt hi.1, fun p own' k hp => ?_⟩
  by_cases hown : own' = own
  · rw [hown, h.pgdir]
    exact Nat.ne_of_gt hi.1
  · rw [h.space hown]
    exact hi.2 p own' k (h.thread hp hown)

namespace Tight

variable {s s' : State} {p np : Slot} {own : Page} {k k₀ : Call} {d : Pgdir} {sz : Nat}
  {frames : List Page} {old : Nat}

section

variable (ht : Tight s)
include ht

theorem sameDirs (h : SameDirs s s')
    (hcall : ∀ {p own k}, s'.thread p = some (own, k) → s'.Fine p own k) : Tight s' where
  call := hcall
  dirs := fun {p q own own' k k'} hp hq heq => by
    obtain ⟨p₀, kp, hp₀⟩ := h.live hp
    obtain ⟨q₀, kq, hq₀⟩ := h.live hq
    rw [h.pgdir, h.pgdir] at heq
    exact ht.dirs hp₀ hq₀ heq
  fresh := fun {p own k} hp => by
    obtain ⟨q, k', hq⟩ := h.live hp
    rw [h.pgdir, h.nextDir, h.nextSpace]
    exact ht.fresh hq

section
variable (hp : s.thread p = some (own, k₀))
include hp

theorem setCall (hk : s.Fine p own k) :
    Tight (s.setCall p own k) := by
  have hback : ∀ {q own' k'}, (s.setCall p own k).thread q = some (own', k') →
      ∃ k'', s.thread q = some (own', k'') := by
    intro q own' k' hq
    simp only [State.setCall, update_apply] at hq
    split at hq
    · rename_i heq
      cases hq
      exact ⟨k₀, by rw [heq]; exact hp⟩
    · exact ⟨k', hq⟩
  have hsame : SameDirs s (s.setCall p own k) :=
    ⟨fun hq => ⟨_, hback hq⟩, fun _ => rfl, rfl, rfl⟩
  have hframe : ∀ {q own' k'}, s.Fine q own' k' → (s.setCall p own k).Fine q own' k' := fun h =>
    h.frame rfl rfl (fun honly => .inl fun q' k'' hq' => (hback hq').elim fun _ => honly q' _) hsame.loose
  refine ht.sameDirs hsame fun {q own' k'} hq => ?_
  simp only [State.setCall, update_apply] at hq
  split at hq
  · rename_i heq
    cases hq
    rw [heq]
    exact hframe hk
  · exact hframe (ht.call hq)

theorem idle (h : s.Fits own) : Tight (s.setCall p own .idle) :=
  ht.setCall hp h

theorem not_execs (hk₀ : k₀.execs = false) {q : Slot}
    (hq : s.thread q = some (own, k)) : k.execs = false := by
  by_contra hk
  have honly := (ht.call hq).only (by simpa using hk)
  obtain rfl := honly p k₀ hp
  rw [hp] at hq
  cases hq
  exact hk hk₀

end

theorem spawn (hp : s.thread p = some (own, .idle)) : Tight (s.setCall np own .idle) := by
  have hsame : SameDirs s (s.setCall np own .idle) := by
    refine ⟨fun {q own' k'} hq => ?_, fun _ => rfl, rfl, rfl⟩
    simp only [State.setCall, update_apply] at hq
    split at hq
    · cases hq
      exact ⟨p, _, hp⟩
    · exact ⟨q, k', hq⟩
  refine ht.sameDirs hsame fun {q own' k'} hq => ?_
  simp only [State.setCall, update_apply] at hq
  split at hq
  · cases hq
    exact ht.call hp
  · refine (ht.call hq).frame rfl rfl (fun honly => ?_) hsame.loose
    by_cases hown : own' = own
    · rw [hown] at hq
      exact .inr (ht.not_execs hp rfl hq)
    · refine .inl fun q' k'' hq' => ?_
      simp only [State.setCall, update_apply] at hq'
      split at hq'
      · cases hq'
        contradiction
      · exact honly q' k'' hq'

section
variable (hp : s.thread p = some (own, k₀)) (hk₀ : k₀.execs = false) (hcopy : ¬ s.Copying own)
include hp hk₀ hcopy

/-- The directory and the size change together, outside every `fork`. -/
theorem resize (hex : Exact d sz) : Tight ((s.setDir own d).setSz own sz) := by
  have hpgdir : ∀ own', (((s.setDir own d).setSz own sz).space own').pgdir = (s.space own').pgdir := by
    intro own'
    simp only [State.setSz, State.setDir, update_apply]
    split
    · rename_i heq
      rw [heq]
    · rfl
  have hsame : SameDirs s ((s.setDir own d).setSz own sz) :=
    ⟨fun hq => ⟨_, _, hq⟩, hpgdir, rfl, rfl⟩
  refine ht.sameDirs hsame fun {q own' k'} hq => ?_
  by_cases hown : own' = own
  · subst hown
    have hfits : ((s.setDir own' d).setSz own' sz).Fits own' := by
      simp [State.Fits, State.dirOf, State.setSz, State.setDir, hex]
    have hexecs := ht.not_execs hp hk₀ hq
    have hcopies : k'.copies ≠ true := fun hk => hcopy ⟨q, _, hq, rfl, hk⟩
    cases k' with
    | idle | sbrk => exact hfits
    | forkPublish => exact ⟨hfits, (ht.call hq).2⟩
    | forkCopy | forkSize => exact absurd rfl hcopies
    | execing | execDir | execSz | execFree => cases hexecs
  · have hspace : ((s.setDir own d).setSz own sz).space own' = s.space own' := by
      simp [State.setSz, State.setDir, hown]
    have hdir : ((s.setDir own d).setSz own sz).dirOf own' = s.dirOf own' := by
      have hne : (s.space own').pgdir ≠ (s.space own).pgdir := fun heq => hown (ht.dirs hq hp heq)
      rw [State.dirOf, hspace]
      exact update_of_ne hne _ _
    exact (ht.call hq).frame hspace hdir .inl hsame.loose

theorem setDir (hex : Exact d (s.space own).sz) : Tight (s.setDir own d) := by
  have ht₁ := ht.resize hp hk₀ hcopy hex
  have heq : (s.setDir own d).setSz own (s.space own).sz = s.setDir own d := by
    simp [State.setSz, State.setDir]
  rw [heq] at ht₁
  exact ht₁

end

theorem remove (hthread : ∀ {q x}, s'.thread q = some x → s.thread q = some x)
    (hdir : s'.dir = s.dir) (hspace : s'.space = s.space) (hnext : s'.nextDir = s.nextDir)
    (hnext' : s'.nextSpace = s.nextSpace) : Tight s' := by
  have hsame : SameDirs s s' :=
    ⟨fun hq => ⟨_, _, hthread hq⟩, fun _ => by rw [hspace], hnext, hnext'⟩
  refine ht.sameDirs hsame fun {q own k} hq => ?_
  refine (ht.call (hthread hq)).frame (by rw [hspace]) ?_ ?_ hsame.loose
  · rw [State.dirOf, State.dirOf, hdir, hspace]
  · exact fun honly => .inl fun q' k' hq' => honly q' k' (hthread hq')

/-- A process, new or old, gets a directory that no process had. -/
theorem renew (h : Renewed s s' own)
    (hcall : ∀ {p k}, s'.thread p = some (own, k) → s'.Fine p own k) : Tight s' where
  call := fun {p own' k} hp => by
    by_cases hown : own' = own
    · subst hown
      exact hcall hp
    · have hp₀ := h.thread hp hown
      refine (ht.call hp₀).frame (h.space hown) ?_ ?_ h.loose
      · rw [State.dirOf, h.space hown]
        exact h.dir (ht.fresh hp₀).1
      · exact fun honly => .inl fun q k' hq => honly q k' (h.thread hq hown)
  dirs := fun {p q own₁ own₂ k k'} hp hq heq => by
    have hne : ∀ {q own' k'}, s'.thread q = some (own', k') → own' ≠ own →
        (s'.space own').pgdir ≠ s.nextDir := fun hq hown => by
      rw [h.space hown]
      exact Nat.ne_of_lt (ht.fresh (h.thread hq hown)).1
    by_cases h₁ : own₁ = own <;> by_cases h₂ : own₂ = own
    · rw [h₁, h₂]
    · rw [h₁, h.pgdir] at heq
      exact absurd heq.symm (hne hq h₂)
    · rw [h₂, h.pgdir] at heq
      exact absurd heq (hne hp h₁)
    · rw [h.space h₁, h.space h₂] at heq
      exact ht.dirs (h.thread hp h₁) (h.thread hq h₂) heq
  fresh := fun {p own' k} hp => by
    rw [h.nextDir]
    by_cases hown : own' = own
    · rw [hown, h.pgdir]
      exact ⟨Nat.lt_succ_self _, h.known⟩
    · obtain ⟨hlt, hlt'⟩ := ht.fresh (h.thread hp hown)
      rw [h.space hown]
      exact ⟨Nat.lt_succ_of_lt hlt, Nat.lt_of_lt_of_le hlt' h.nextSpace⟩

theorem publish (hp : s.thread p = some (own, .forkPublish d sz)) :
    Tight (s.publish p np own d sz) := by
  obtain ⟨hfits, hex⟩ : s.Fits own ∧ Exact d sz := ht.call hp
  have ht₁ := ht.idle hp hfits
  have hspace : (s.publish p np own d sz).space s.nextSpace = ⟨s.nextDir, sz⟩ :=
    update_self _ _ _
  have hthread : ∀ q, (s.publish p np own d sz).thread q =
      if q = np then some (s.nextSpace, .idle) else (s.setCall p own .idle).thread q := by
    intro q
    simp only [State.publish, State.setCall, update_apply]
  have hrenewed : Renewed (s.setCall p own .idle) (s.publish p np own d sz) s.nextSpace := by
    refine ⟨fun {q own' k} hq hown => ?_, fun hown => update_of_ne hown _ _,
      fun hi => update_of_ne (Nat.ne_of_lt hi) _ _, by rw [hspace]; rfl, Nat.lt_succ_self _,
      rfl, Nat.le_succ _⟩
    rw [hthread] at hq
    split at hq
    · cases hq
      contradiction
    · exact hq
  refine ht₁.renew hrenewed fun {q k} hq => ?_
  rw [hthread] at hq
  split at hq
  · cases hq
    rw [State.Fine, State.Fits, State.dirOf, hspace]
    simpa [State.publish] using hex
  · exact absurd (ht₁.fresh hq).2 (Nat.lt_irrefl _)

theorem storeDir (hp : s.thread p = some (own, .execDir d sz)) : Tight (s.storeDir p own d sz) := by
  obtain ⟨-, honly, hex⟩ : s.Fits own ∧ s.Only p own ∧ Exact d sz := ht.call hp
  obtain ⟨hold, hlt⟩ := ht.fresh hp
  have hthread : ∀ q, (s.storeDir p own d sz).thread q =
      if q = p then some (own, .execSz sz (s.space own).pgdir) else s.thread q := by
    intro q
    simp only [State.storeDir, State.setCall, update_apply]
  have hrenewed : Renewed s (s.storeDir p own d sz) own := by
    refine ⟨fun {q own' k} hq hown => ?_, fun hown => update_of_ne hown _ _,
      fun hi => update_of_ne (Nat.ne_of_lt hi) _ _, by simp [State.storeDir], hlt, rfl, le_rfl⟩
    rw [hthread] at hq
    split at hq
    · cases hq
      contradiction
    · exact hq
  have honly' : (s.storeDir p own d sz).Only p own := fun q k hq => by
    by_contra hqp
    rw [hthread, if_neg hqp] at hq
    exact hqp (honly q k hq)
  refine ht.renew hrenewed fun {q k} hq => ?_
  obtain rfl := honly' q k hq
  rw [hthread, if_pos rfl] at hq
  cases hq
  refine ⟨honly', ⟨Nat.lt_succ_of_lt hold, fun q' own' k' hq' => ?_⟩, ?_⟩
  · -- the old directory is nobody else's
    by_cases hown : own' = own
    · rw [hown, hrenewed.pgdir]
      exact Nat.ne_of_gt hold
    · rw [hrenewed.space hown]
      exact fun heq => hown (ht.dirs (hrenewed.thread hq' hown) hp heq)
  · rw [State.dirOf, hrenewed.pgdir]
    simpa [State.storeDir] using hex

end

section
variable (ht : Tight s)
include ht

theorem storeSz (hp : s.thread p = some (own, .execSz sz old)) :
    Tight ((s.setSz own sz).setCall p own (.execFree old)) := by
  obtain ⟨honly, hloose, hex⟩ : s.Only p own ∧ s.Loose old ∧ Exact (s.dirOf own) sz := ht.call hp
  have hpgdir : ∀ own', ((s.setSz own sz).space own').pgdir = (s.space own').pgdir := by
    intro own'
    simp only [State.setSz, update_apply]
    split
    · rename_i heq
      rw [heq]
    · rfl
  have hdir : ∀ own', (s.setSz own sz).dirOf own' = s.dirOf own' := fun own' => by
    rw [State.dirOf, hpgdir]
    rfl
  have hsame : SameDirs s (s.setSz own sz) := ⟨fun hq => ⟨_, _, hq⟩, hpgdir, rfl, rfl⟩
  have ht₁ : Tight (s.setSz own sz) := by
    refine ht.sameDirs hsame fun {q own' k'} hq => ?_
    change s.thread q = some (own', k') at hq
    by_cases hown : own' = own
    · subst hown
      obtain rfl := honly q k' hq
      rw [hp] at hq
      cases hq
      exact ⟨honly, hsame.loose hloose, by rw [hdir]; exact hex⟩
    · exact (ht.call hq).frame (update_of_ne hown _ _) (hdir own') .inl hsame.loose
  refine ht₁.setCall (k := .execFree old) hp ⟨?_, honly, hsame.loose hloose⟩
  rw [State.Fits, hdir]
  simpa [State.setSz] using hex

theorem free (hp : s.thread p = some (own, .execFree old)) :
    Tight {s.setCall p own .idle with dir := update s.dir old .empty} := by
  obtain ⟨hfits, -, hloose⟩ : s.Fits own ∧ s.Only p own ∧ s.Loose old := ht.call hp
  have hsame : SameDirs s {s with dir := update s.dir old .empty} :=
    ⟨fun hq => ⟨_, _, hq⟩, fun _ => rfl, rfl, rfl⟩
  have hdir : ∀ {q own' k'}, s.thread q = some (own', k') →
      State.dirOf {s with dir := update s.dir old .empty} own' = s.dirOf own' :=
    fun hq => update_of_ne (hloose.2 _ _ _ hq) _ _
  have ht₁ : Tight {s with dir := update s.dir old .empty} :=
    ht.sameDirs hsame fun hq => (ht.call hq).frame rfl (hdir hq) .inl hsame.loose
  refine ht₁.idle hp ?_
  rw [State.Fits, hdir hp]
  exact hfits

theorem exec {gone running : List Slot} (hp : s.thread p = some (own, .idle))
    (hrule : Calm s (.killedOthers p gone running)) :
    Tight ((s.without p own fun q => gone.contains q && !running.contains q).setCall p own .execing) := by
  have ht₁ : Tight (s.without p own fun q => gone.contains q && !running.contains q) :=
    ht.remove thread_of_without rfl rfl rfl rfl
  have hp₁ : (s.without p own fun q => gone.contains q && !running.contains q).thread p =
      some (own, .idle) := by
    simpa [State.without] using hp
  refine ht₁.setCall (k := .execing) hp₁ ⟨ht₁.call hp₁, fun q k hq => ?_⟩
  by_contra hqp
  have hq₀ := thread_of_without hq
  obtain ⟨hgone, hrunning⟩ := (hrule _ hp q _ hq₀ rfl).resolve_left hqp
  simp [State.without, hqp, hgone, hrunning, hq₀] at hq

theorem grow {addr : Nat} {n : Word} (hp : s.thread p = some (own, .sbrk addr n))
    (hrule : Calm s (s.growStep p own addr n frames).2) :
    Tight (s.growStep p own addr n frames).1 ∧
      ∀ w, (s.growStep p own addr n frames).2 ≠ .panicked w := by
  obtain ⟨d, x, hgrow, hex⟩ := Exact.growproc (ht.call hp) n frames
  unfold State.growStep at hrule ⊢
  rw [hgrow] at hrule ⊢
  cases x with
  | none =>
    obtain ⟨hempties, hcopy⟩ := hrule _ hp
    have ht₁ := ht.setDir hp rfl hcopy (hex hempties)
    exact ⟨(ht₁.idle hp (ht₁.call hp)).remove id rfl rfl rfl rfl, nofun⟩
  | some sz =>
    obtain ⟨hempties, hcopy⟩ := hrule _ hp
    have ht₁ := ht.resize hp rfl hcopy (hex hempties)
    exact ⟨ht₁.idle hp (ht₁.call hp), nofun⟩

theorem create (hp : s.thread p = some (own, .idle)) (hrule : Calm s (s.createStep p np own frames).2) :
    Tight (s.createStep p np own frames).1 ∧
      ∀ w, (s.createStep p np own frames).2 ≠ .panicked w := by
  have hfits : s.Fits own := ht.call hp
  unfold State.createStep at hrule ⊢
  generalize hstack : s.newStack own frames = x at hrule ⊢
  have hx := Exact.createStack hfits rfl hstack
  cases x with
  | panicked w => exact hx.elim
  | unpushed d sz ram => exact hx.elim
  | noMemory d => exact ⟨ht.setDir hp rfl (hrule _ hp) hx, nofun⟩
  | ok d sz ram => exact ⟨(ht.resize hp rfl (hrule _ hp) hx.exact).spawn hp, nofun⟩

theorem copy {src limit v : Nat} (hp : s.thread p = some (own, .forkCopy src limit v d)) :
    Tight (s.copyStep p own src limit v d frames).1 ∧
      ∀ w, (s.copyStep p own src limit v d frames).2 ≠ .panicked w := by
  obtain ⟨hfits, hsrc, hlimit, hv, hd⟩ : s.Fits own ∧ src = (s.space own).pgdir ∧
    limit = (s.space own).sz ∧ v ≤ pages limit ∧ ∀ w, (d.get w).isSome = true ↔ w < v := ht.call hp
  unfold State.copyStep
  split
  · rename_i hlt
    -- the page is there to be copied
    have hpage : ((s.dir src).get v).isSome = true := by
      rw [hsrc]
      exact (hfits v).mpr (by rw [← hlimit]; exact hlt)
    have hfree : d.get v = none := by
      have := (hd v).not.mpr (Nat.lt_irrefl v)
      simpa using this
    rw [Sparse.Dir.get] at hpage
    split
    · rename_i hwalk
      rw [hwalk] at hpage
      cases hpage
    · rename_i hwalk
      rw [hwalk] at hpage
      cases hpage
    · split
      · exact ⟨ht.idle hp hfits, (by simp)⟩
      · split
        · rename_i d' frames' hmap
          refine ⟨ht.setCall hp ⟨hfits, hsrc, hlimit, hlt, fun w => ?_⟩, (by simp)⟩
          rw [get_mappages hmap]
          split
          · rename_i hw
            simp [hw]
          · rw [hd]
            omega
        · exact ⟨ht.idle hp hfits, (by simp)⟩
        · rename_i hmap
          exact absurd hmap (mappages_ne_remap hfree)
  · refine ⟨ht.setCall hp ⟨hfits, fun w => ?_⟩, (by simp)⟩
    rw [hd, ← hlimit]
    omega

theorem build {im : Image} (hp : s.thread p = some (own, .execing)) :
    Tight (s.buildStep p own im).1 ∧ ∀ w, (s.buildStep p own im).2 ≠ .panicked w := by
  obtain ⟨hfits, honly⟩ : s.Fits own ∧ s.Only p own := ht.call hp
  obtain ⟨x, hbuild, hx⟩ := Exact.buildImage im
  unfold State.buildStep
  rw [hbuild]
  cases x with
  | none => exact ⟨ht.idle hp hfits, nofun⟩
  | some y => exact ⟨ht.setCall (k := .execDir y.1 y.2) hp ⟨hfits, honly, hx y rfl⟩, nofun⟩

theorem step {e : Event} (h : Case s e s') (hrule : Calm s e) :
    Tight s' ∧ ∀ w, e ≠ .panicked w := by
  cases h with
  | stay => exact ⟨ht, nofun⟩
  | @sbrk p own n hp =>
    have hfits : s.Fits own := ht.call hp
    exact ⟨ht.setCall hp hfits, nofun⟩
  | grow hp => exact ht.grow hp hrule
  | create hp _ => exact ht.create hp hrule
  | fork hp => exact ⟨ht.setCall hp ⟨ht.call hp, rfl, rfl, Nat.zero_le _, by simp⟩, nofun⟩
  | copy hp => exact ht.copy hp
  | @size p own d hp =>
    obtain ⟨hfits, hex⟩ : s.Fits own ∧ Exact d (s.space own).sz := ht.call hp
    exact ⟨ht.setCall hp ⟨hfits, hex⟩, nofun⟩
  | publish hp => exact ⟨ht.publish hp, nofun⟩
  | exec hp => exact ⟨ht.exec hp hrule, nofun⟩
  | build hp => exact ht.build hp
  | storeDir hp => exact ⟨ht.storeDir hp, nofun⟩
  | storeSz hp => exact ⟨ht.storeSz hp, nofun⟩
  | free hp => exact ⟨ht.free hp, nofun⟩
  | threadExit hp =>
    refine ⟨ht.remove (fun {q x} hq => ?_) rfl rfl rfl rfl, nofun⟩
    simp only [update_apply] at hq
    split at hq
    · cases hq
    · exact hq
  | exit hp =>
    refine ⟨ht.remove (fun {q x} hq => ?_) rfl rfl rfl rfl, nofun⟩
    simp only [update_apply] at hq
    split at hq
    · cases hq
    · exact thread_of_without hq

end

end Tight

theorem boot_thread {p : Slot} {own : Page} {k : Call} (hp : boot.thread p = some (own, k)) :
    own = 1 ∧ k = .idle := by
  simp only [boot] at hp
  split at hp
  · cases hp
    exact ⟨rfl, rfl⟩
  · cases hp

theorem boot_exact : Exact (boot.dir 0) PGSIZE := by
  intro v
  have hpages : pages PGSIZE = 1 := by decide
  change (((Sparse.Dir.empty.grow 0).put 0 (some ⟨0, true⟩) : Pgdir).get v).isSome = true ↔
    v < pages PGSIZE
  rw [hpages, Sparse.Dir.get_put _ _ _ _ (Sparse.Dir.grow_table _ _), Sparse.Dir.get_grow _ _ _ rfl]
  split <;> simp <;> omega

theorem boot_tight : Tight boot where
  call := fun {p own k} hp => by
    obtain ⟨rfl, rfl⟩ := boot_thread hp
    exact boot_exact
  dirs := fun hp hq _ => (boot_thread hp).1.trans (boot_thread hq).1.symm
  fresh := fun hp => by
    obtain ⟨rfl, -⟩ := boot_thread hp
    decide

/-! ### Runs -/

variable {h : List Event} {s : State}

theorem tight_run (hr : Run (Guarded Step Calm) boot h s) : Tight s ∧ ∀ w, .panicked w ∉ h := by
  refine hr.invariant (fun h s => Tight s ∧ ∀ w, .panicked w ∉ h) ⟨boot_tight, nofun⟩ ?_
  intro h s e s' _ ⟨ht, hno⟩ ⟨hstep, hrule⟩
  obtain ⟨ht', he⟩ := ht.step (step_case hstep) hrule
  refine ⟨ht', fun w hw => ?_⟩
  rcases List.mem_cons.mp hw with heq | hmem
  · exact he w heq.symm
  · exact hno w hmem

/-- A process with a live thread, none of its threads in the middle of a call. -/
def State.AtRest (s : State) (own : Page) : Prop :=
  (∃ p, ∃ x ∈ s.thread p, x.1 = own) ∧
    ∀ p, ∀ x ∈ s.thread p, x.1 = own → x.2.isIdle = true

instance (s : State) (own : Page) : Decidable (s.AtRest own) :=
  inferInstanceAs (Decidable ((∃ p, ∃ x ∈ s.thread p, x.1 = own) ∧
    ∀ p, ∀ x ∈ s.thread p, x.1 = own → x.2.isIdle = true))

/-- On every run whose steps are calm, the pages of a process at rest are the pages below
its size, which is below the kernel, and there has been no panic. -/
theorem exact_of_calm (hr : Run (Guarded Step Calm) boot h s) :
    (∀ own, s.AtRest own → Exact (s.dirOf own) (s.space own).sz ∧ (s.space own).sz < KERNBASE) ∧
      ∀ w, .panicked w ∉ h := by
  obtain ⟨ht, hno⟩ := tight_run hr
  refine ⟨fun own ⟨⟨p, x, hp, hown⟩, hidle⟩ => ⟨?_, (small_run hr.unguarded).size own⟩, hno⟩
  obtain ⟨own', k⟩ := x
  obtain rfl := hown
  have hk := hidle p _ hp rfl
  have hfine := ht.call hp
  cases k with
  | idle => exact hfine
  | sbrk | forkCopy | forkSize | forkPublish | execing | execDir | execSz | execFree => cases hk

/-- `init` starts a thread and grows; the thread forks; then `init` loads another image. -/
theorem exact_of_calm_exec : ∃ h s, Run (Guarded Step Calm) boot h s ∧
    ((s.space 1).sz = 16384 ∧ (s.space 2).sz = 12388) ∧
    Exact (s.dirOf 1) (s.space 1).sz ∧ Exact (s.dirOf 2) (s.space 2).sz ∧ ∀ w, .panicked w ∉ h := by
  obtain ⟨h, s, hr, hsz, h₁, h₂⟩ := reached Calm boot
    [.threadCreate 0 1 [10, 11], .sbrk 0 100, .grow 0 [12], .fork 1 true, .forkPage 1 [13, 14],
      .forkPage 1 [15], .forkPage 1 [16], .forkPage 1 [17], .forkPage 1 [], .forkSize 1,
      .forkPublish 1 2, .exec 0 [1] [], .execBuild 0 ⟨[⟨5000, [18, 19, 20], true⟩], [21, 22], true⟩,
      .execDir 0, .execSz 0, .execFree 0]
    (P := fun _ s => ((s.space 1).sz = 16384 ∧ (s.space 2).sz = 12388) ∧ s.AtRest 1 ∧ s.AtRest 2)
    (by decide +kernel)
  obtain ⟨hex, hno⟩ := exact_of_calm hr
  exact ⟨h, s, hr, hsz, (hex 1 h₁).1, (hex 2 h₂).1, hno⟩

/-- `sbrk(-4096)` in a process of 4096 bytes returns -1, and the process has lost its page;
and a thread that shrinks the process while another one forks it makes `copyuvm` panic. -/
theorem sbrk_spoils_address_space :
    (∃ h s, Run Step boot h s ∧ s.AtRest 1 ∧ .growFailed 0 ∈ h ∧
      ¬ Exact (s.dirOf 1) (s.space 1).sz) ∧
    ∃ h s, Run Step boot h s ∧ .panicked .copyPage ∈ h := by
  constructor
  · obtain ⟨h, s, hr, hrest, hfailed, hsz, hpage⟩ :=
      reached (fun _ _ => True) boot [.sbrk 0 (-4096), .grow 0 []]
      (P := fun h s => s.AtRest 1 ∧ .growFailed 0 ∈ h ∧ (s.space 1).sz = 4096 ∧ (s.dirOf 1).get 0 = none)
      (by decide +kernel)
    refine ⟨h, s, hr.unguarded, hrest, hfailed, fun hex => ?_⟩
    have hpresent := (hex 0).mpr (by rw [hsz]; decide)
    rw [hpage] at hpresent
    cases hpresent
  · exact Run.exists_of_steps _ (fun _ op _ _ hs => ⟨op, hs⟩)
      [.threadCreate 0 1 [10, 11], .fork 0 true, .forkPage 0 [12, 13], .sbrk 1 (-8192), .grow 1 [],
        .forkPage 0 [14]] (by decide +kernel)

end ThreadKernel.Vm
