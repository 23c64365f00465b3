import ThreadKernel.Proc.Wait

/-! What `threads[]` holds, over whole runs.

`wait`, `kill` and `thread_exit` follow `threads[i]` without asking `isThere[i]`. An
entry is filled when a thread is registered there and never emptied, and the entries
are filled from the left; so all six are filled exactly if the process once had six
threads registered at the same time. No rule on the steps is needed for this. -/
namespace ThreadKernel

open Function
namespace Kernel

/-- What a step does to the two arrays of a page. -/
inductive Change (s s' : Kernel) (a : Page) : Prop where
  | same : (s'.shared a).threads = (s.shared a).threads →
      (s'.shared a).isThere = (s.shared a).isThere → Change s s' a
  | blank : a = s.nextPage → (∀ i, (s'.shared a).threads i = none) →
      (∀ i, (s'.shared a).isThere i = false) → Change s s' a
  | publish {np : Slot} : (s.proc np).sharePtr = some a →
      (s'.shared a).threads = update (s.shared a).threads 0 (some np) →
      (∀ i, (s'.shared a).isThere i = decide (i = 0)) → Change s s' a
  | register {cur np : Slot} {i : Index} : (s.proc cur).sharePtr = some a →
      freeIndex (s.shared a) = some i →
      (s'.shared a).threads = update (s.shared a).threads i (some np) →
      (s'.shared a).isThere = update (s.shared a).isThere i true → Change s s' a
  | clear {cur : Slot} {i : Index} : (s.proc cur).sharePtr = some a →
      (s'.shared a).threads = (s.shared a).threads →
      (s'.shared a).isThere = update (s.shared a).isThere i false → Change s s' a

/-- Pages in use are pages handed out. -/
structure Grown (s s' : Kernel) : Prop where
  next : s.nextPage ≤ s'.nextPage
  share : ∀ q a, (s'.proc q).sharePtr = some a →
    (∃ p, (s.proc p).sharePtr = some a) ∨ (a = s.nextPage ∧ a < s'.nextPage)

variable {s s' : Kernel} {c : Nat} {e : Event} {op : Op} {cur : Slot} {a : Page} {d : SharedData}

theorem Change.refl (h : s'.shared a = s.shared a) : Change s s' a :=
  .same (by rw [h]) (by rw [h])

theorem Change.of_field {own : Page} (h : s'.shared a = if a = own then d else s.shared a)
    (ht : d.threads = (s.shared own).threads) (hi : d.isThere = (s.shared own).isThere) :
    Change s s' a := by
  by_cases ha : a = own
  · subst ha
    rw [if_pos rfl] at h
    exact .same (by rw [h, ht]) (by rw [h, hi])
  · rw [if_neg ha] at h
    exact .refl h

theorem Grown.of_kept (hn : s'.nextPage = s.nextPage)
    (hshare : ∀ q, (s'.proc q).sharePtr = (s.proc q).sharePtr ∨ (s'.proc q).sharePtr = none ∨
      ∃ p, (s'.proc q).sharePtr = (s.proc p).sharePtr) : Grown s s' := by
  refine ⟨by rw [hn], fun q a ha => .inl ?_⟩
  rcases hshare q with h | h | ⟨p, h⟩
  · exact ⟨q, by rw [← h, ha]⟩
  · rw [h] at ha
    cases ha
  · exact ⟨p, by rw [← h, ha]⟩

/-! ### Every step -/

theorem enter_shared {s₁ : Kernel} (h : Enter s c cur s₁) :
    s₁.shared = s.shared ∧ s₁.nextPage = s.nextPage ∧
      ∀ q, (s₁.proc q).sharePtr = (s.proc q).sharePtr := by
  cases h with
  | call => exact ⟨rfl, rfl, fun _ => rfl⟩
  | wake =>
    refine ⟨rfl, rfl, fun q => ?_⟩
    rw [setProc_keeps (g := Proc.sharePtr) (h := rfl), setProc_keeps (g := Proc.sharePtr) (h := rfl)]
    rfl

theorem body_change (h : Body s c cur e s') : Change s s' a := by
  cases h with
  | @reaped child own hfind hown =>
    have hrest := (reapFold s cur own child (List.finRange 6)).1
    by_cases ha : a = own
    · subst ha
      exact .same hrest.threads hrest.isThere
    · exact .refl (hrest.other a ha)
  | joined => exact .of_field (joinReap_shared ..) rfl rfl
  | failed => exact .refl rfl
  | asleep => exact .refl rfl

theorem body_grown (h : Body s c cur e s') : Grown s s' := by
  cases h with
  | @reaped child own hfind hown =>
    refine .of_kept (reapFold s cur own child (List.finRange 6)).1.nextPage fun q => .inl ?_
    rw [release_proc]
    by_cases hl : Listed s q own (List.finRange 6)
    · rw [reap_listed hl]
      rfl
    · rcases (reapFold s q own child (List.finRange 6)).2.2 hl with h | ⟨-, h⟩
      · rw [reap, h]
      · rw [reap, h]
  | joined =>
    refine .of_kept rfl fun q => ?_
    rw [release_proc, joinReap_proc]
    split
    · exact .inr (.inl rfl)
    · exact .inl rfl
  | failed => exact .of_kept rfl fun _ => .inl rfl
  | asleep =>
    refine .of_kept rfl fun q => .inl ?_
    rw [Kernel.sleep, sched_proc, setProc_keeps (g := Proc.sharePtr) (h := rfl)]

theorem Case.change (h : Case s c op e s') : Change s s' a := by
  cases h with
  | acquire | letGo | resume | awake | tick | yield | sleep | wakeup | stay | allocKstack | abandon
  | forkCopyFail | createFail | kill | killLeak | execFail => exact .refl rfl
  | body henter hbody =>
    obtain ⟨hshared, hnext, hshare⟩ := enter_shared henter
    cases body_change (a := a) hbody with
    | same ht hi => exact .same (by rw [ht, hshared]) (by rw [hi, hshared])
    | blank ha ht hi => exact .blank (by rw [ha, hnext]) ht hi
    | publish hn ht hi => exact .publish (by rw [← hshare, hn]) (by rw [ht, hshared]) hi
    | register hn hf ht hi =>
      exact .register (by rw [← hshare, hn]) (by rw [← hshared, hf]) (by rw [ht, hshared])
        (by rw [hi, hshared])
    | clear hn ht hi => exact .clear (by rw [← hshare, hn]) (by rw [ht, hshared]) (by rw [hi, hshared])
  | alloc hc halloc =>
    obtain ⟨-, -, rfl⟩ := allocproc_eq halloc
    exact .refl rfl
  | @forkPage cur np hc =>
    have hshared := forkPage_shared s np a
    by_cases ha : a = s.nextPage
    · rw [if_pos ha] at hshared
      exact .blank ha (fun i => congrFun (congrArg SharedData.threads hshared) i)
        fun i => congrFun (congrArg SharedData.isThere hshared) i
    · rw [if_neg ha] at hshared
      exact .refl hshared
  | @forkCopy cur np own => exact .of_field (forkCopy_shared s cur np own a) rfl rfl
  | @forkPublish cur np own hc hown =>
    have hshared := forkPublish_shared s np own a
    by_cases ha : a = own
    · subst ha
      rw [if_pos rfl] at hshared
      exact .publish hown (congrArg SharedData.threads hshared)
        fun i => congrFun (congrArg SharedData.isThere hshared) i
    · rw [if_neg ha] at hshared
      exact .refl hshared
  | @create cur np own hc hown =>
    have hshared := create_shared s cur np own a
    cases hfree : freeIndex (s.shared own) with
    | none =>
      simp only [hfree] at hshared
      exact .refl hshared
    | some i =>
      simp only [hfree] at hshared
      by_cases ha : a = own
      · subst ha
        rw [if_pos rfl] at hshared
        exact .register hown hfree (congrArg SharedData.threads hshared)
          (congrArg SharedData.isThere hshared)
      · rw [if_neg ha] at hshared
        exact .refl hshared
  | @threadExit cur own v hc hown =>
    have hshared := threadExit_shared s cur own a v
    by_cases ha : a = own
    · subst ha
      rw [if_pos rfl] at hshared
      exact .clear hown (by rw [sched_shared, hshared]) (by rw [sched_shared, hshared])
    · rw [if_neg ha] at hshared
      exact .refl hshared
  | exit => exact .refl (by rw [sched_shared, exit_shared])
  | @exec cur own s₁ k init hc hown hkill hk =>
    obtain ⟨hrest, hsame, -⟩ := killOtherThreads_eq s cur own hkill
    refine .refl ?_
    show s₁.shared a = s.shared a
    by_cases ha : a = own
    · rw [ha, hsame]
    · exact hrest.other a ha
  | @execCommit cur own => exact .of_field (execCommit_shared s cur own a) rfl rfl

theorem Case.grown (h : Case s c op e s') : Grown s s' := by
  have kept : ∀ {p : Slot} {x : Proc}, x.sharePtr = (s.proc p).sharePtr → ∀ q,
      (if q = p then x else s.proc q).sharePtr = (s.proc q).sharePtr := by
    intro p x hx q
    split
    · rename_i hq
      rw [hx, hq]
    · rfl
  cases h with
  | acquire | letGo | tick | stay | killLeak | execFail => exact .of_kept rfl fun _ => .inl rfl
  | resume | awake =>
    refine .of_kept rfl fun q => .inl ?_
    rw [release_proc]
    repeat rw [setProc_keeps (g := Proc.sharePtr) (h := rfl)]
    rfl
  | body henter hbody =>
    obtain ⟨-, hnext, hshare⟩ := enter_shared henter
    obtain ⟨hle, hgrown⟩ := body_grown hbody
    refine ⟨by rw [← hnext]; exact hle, fun q a ha => ?_⟩
    rcases hgrown q a ha with ⟨p, hp⟩ | ⟨hn, hlt⟩
    · exact .inl ⟨p, by rw [← hshare, hp]⟩
    · exact .inr ⟨by rw [hn, hnext], hlt⟩
  | yield | sleep =>
    refine .of_kept rfl fun q => .inl ?_
    simp only [Kernel.sleep, sched_proc]
    rw [setProc_keeps (g := Proc.sharePtr) (h := rfl)]
  | wakeup => exact .of_kept rfl fun q => .inl (wakeup1_kept s q _).sharePtr
  | alloc hc halloc =>
    have hproc := allocproc_proc halloc
    obtain ⟨-, -, rfl⟩ := allocproc_eq halloc
    refine .of_kept rfl fun q => .inl ?_
    rw [Kernel.goto, setCpu_proc, hproc]
    exact kept (by rfl) q
  | allocKstack | forkCopy =>
    refine ⟨Nat.le_succ _, fun q a ha => .inl ⟨q, ?_⟩⟩
    simp only [← ha, Kernel.goto, setCpu_proc, allocKstack_proc, forkCopy_proc]
    exact (kept (by rfl) q).symm
  | abandon | forkCopyFail | forkPublish =>
    refine .of_kept rfl fun q => .inl ?_
    simp only [Kernel.goto, setCpu_proc, abandon_proc, forkCopyFail_proc, forkPublish_proc]
    exact kept (by rfl) q
  | @forkPage cur np =>
    refine ⟨Nat.le_succ _, fun q a ha => ?_⟩
    rw [Kernel.goto, setCpu_proc, forkPage_proc] at ha
    split at ha
    · cases ha
      exact .inr ⟨rfl, Nat.lt_succ_self _⟩
    · exact .inl ⟨q, ha⟩
  | @create cur np own =>
    refine .of_kept (create_nextPage ..) fun q => ?_
    rw [Kernel.goto, setCpu_proc, create_proc]
    split
    · exact .inr (.inr ⟨cur, rfl⟩)
    · exact .inl rfl
  | @createFail cur np =>
    refine .of_kept rfl fun q => ?_
    rw [Kernel.goto, setCpu_proc, createFail_proc]
    split
    · exact .inr (.inr ⟨cur, rfl⟩)
    · exact .inl rfl
  | threadExit =>
    refine .of_kept rfl fun q => .inl ?_
    rw [sched_proc, threadExit_proc]
    split
    · rename_i hq
      rw [hq]
      exact (wakeup1_kept s _ _).sharePtr
    · exact (wakeup1_kept s q _).sharePtr
  | @exit cur =>
    refine .of_kept (by rw [sched_nextPage, exit_nextPage]) fun q => .inl ?_
    exact (exit_fields s cur q).1
  | kill => exact .of_kept rfl fun q => .inl (kill_kept s _ q).sharePtr
  | @exec cur own s₁ k init hc hown hkill hk =>
    obtain ⟨hrest, -, hproc⟩ := killOtherThreads_eq s cur own hkill
    refine .of_kept hrest.nextPage fun q => ?_
    rw [Kernel.goto, setCpu_proc]
    by_cases hv : Victim s cur q own (List.finRange 6)
    · exact .inr (.inl (by rw [(hproc q).1 hv]; rfl))
    · exact .inl (by rw [(hproc q).2 hv])
  | execCommit =>
    refine ⟨Nat.le_succ _, fun q a ha => .inl ⟨q, ?_⟩⟩
    rw [← ha, Kernel.goto, setCpu_proc, execCommit_proc]
    exact (kept (by rfl) q).symm

/-! ### Every run -/

/-- A registered entry is filled, and the entries are filled from the left. -/
structure Packed (d : SharedData) : Prop where
  filled : ∀ i, d.isThere i = true → d.threads i ≠ none
  left : ∀ i j, i ≤ j → d.threads j ≠ none → d.threads i ≠ none

/-- Pages that are in use were handed out, the others are blank. -/
structure Paged (s : Kernel) : Prop where
  share : ∀ q a, (s.proc q).sharePtr = some a → a < s.nextPage
  blank : ∀ a, s.nextPage ≤ a → ∀ i, (s.shared a).threads i = none
  packed : ∀ a, Packed (s.shared a)

theorem packed_blank (ht : ∀ i, d.threads i = none) (hi : ∀ i, d.isThere i = false) : Packed d :=
  ⟨fun i h => absurd h (by rw [hi]; simp), fun _ j _ h => absurd (ht j) h⟩

theorem Packed.change (hp : Packed (s.shared a)) (h : Change s s' a) : Packed (s'.shared a) := by
  cases h with
  | same ht hi => exact ⟨by rw [ht, hi]; exact hp.filled, by rw [ht]; exact hp.left⟩
  | blank _ ht hi => exact packed_blank ht hi
  | publish _ ht hi =>
    refine ⟨fun i h => ?_, fun i j hij h => ?_⟩
    · rw [hi, decide_eq_true_eq] at h
      rw [ht, h, update_self]
      simp
    · by_cases h0 : i = 0
      · rw [ht, h0, update_self]
        simp
      · have hj : j ≠ 0 := fun hj => h0 (Fin.le_zero_iff.mp (hj ▸ hij))
        rw [ht, update_of_ne hj] at h
        rw [ht, update_of_ne h0]
        exact hp.left i j hij h
  | @register cur np i _ hf ht hi =>
    -- every entry before the first free one is registered, hence filled
    have hbefore : ∀ j < i, (s.shared a).threads j ≠ none := by
      intro j hj
      have := Fin.eq_false_of_find?_eq_some_of_lt hf j hj
      exact hp.filled j (by simpa using this)
    refine ⟨fun j h => ?_, fun j k hjk h => ?_⟩
    · by_cases hj : j = i
      · rw [ht, hj, update_self]
        simp
      · rw [hi, update_of_ne hj] at h
        rw [ht, update_of_ne hj]
        exact hp.filled j h
    · by_cases hj : j = i
      · rw [ht, hj, update_self]
        simp
      · rw [ht, update_of_ne hj]
        by_cases hk : k = i
        · exact hbefore j (lt_of_le_of_ne (hk ▸ hjk) hj)
        · rw [ht, update_of_ne hk] at h
          exact hp.left j k hjk h
  | @clear cur i _ ht hi =>
    refine ⟨fun j h => ?_, by rw [ht]; exact hp.left⟩
    rw [ht]
    refine hp.filled j ?_
    by_cases hj : j = i
    · rw [hi, hj, update_self] at h
      cases h
    · rwa [hi, update_of_ne hj] at h

theorem Paged.step (hp : Paged s) (h : Case s c op e s') : Paged s' := by
  have hgrown := h.grown
  refine ⟨fun q a ha => ?_, fun a hle i => ?_, fun a => (hp.packed a).change h.change⟩
  · rcases hgrown.share q a ha with ⟨p, hshare⟩ | ⟨-, hlt⟩
    · exact Nat.lt_of_lt_of_le (hp.share p a hshare) hgrown.next
    · exact hlt
  · have hold : s.nextPage ≤ a := Nat.le_trans hgrown.next hle
    have hunshared : ∀ q, (s.proc q).sharePtr ≠ some a := fun q ha =>
      Nat.not_lt.mpr hold (hp.share q a ha)
    cases h.change (a := a) with
    | same ht _ => rw [ht]; exact hp.blank a hold i
    | blank _ ht _ => exact ht i
    | publish hs _ _ | register hs _ _ _ | clear hs _ _ => exact absurd hs (hunshared _)

/-- A filled entry of a page in use stays filled. -/
theorem filled_step (hp : Paged s) (h : Case s c op e s') {i : Index}
    (hi : (s.shared a).threads i ≠ none) : (s'.shared a).threads i ≠ none := by
  cases h.change (a := a) with
  | same ht _ => rwa [ht]
  | blank ha _ _ => exact absurd (hp.blank a (Nat.le_of_eq ha.symm) i) hi
  | publish _ ht _ =>
    rw [ht]
    by_cases h0 : i = 0
    · rw [h0, update_self]
      simp
    · rwa [update_of_ne h0]
  | @register _ _ j _ _ ht _ =>
    rw [ht]
    by_cases hj : i = j
    · rw [hj, update_self]
      simp
    · rwa [update_of_ne hj]
  | clear _ ht _ => rwa [ht]

/-- The last entry is filled only by registering a sixth thread. -/
theorem last_filled (h : Case s c op e s') (hi : (s'.shared a).threads 5 ≠ none) :
    (s.shared a).threads 5 ≠ none ∨ ∀ i, (s'.shared a).isThere i = true := by
  cases h.change (a := a) with
  | same ht _ | clear _ ht _ => exact .inl (by rwa [ht] at hi)
  | blank _ ht _ => exact absurd (ht 5) hi
  | publish _ ht _ =>
    rw [ht, update_of_ne (by decide)] at hi
    exact .inl hi
  | @register _ _ j _ hf ht hthere =>
    by_cases hj : 5 = j
    · refine .inr fun i => ?_
      rw [hthere]
      by_cases hij : i = j
      · rw [hij, update_self]
      · rw [update_of_ne hij]
        have hlt : i < j := lt_of_le_of_ne (hj ▸ Fin.le_last i) hij
        have := Fin.eq_false_of_find?_eq_some_of_lt hf i hlt
        simpa using this
    · rw [ht, update_of_ne hj] at hi
      exact .inl hi

end Kernel

open Kernel Lts

theorem boot_paged : Paged boot where
  share := by
    intro q a ha
    simp only [boot] at ha ⊢
    split at ha
    · cases ha
      decide
    · cases ha
  blank := by
    intro a ha i
    have : a ≠ 1 := by
      rintro rfl
      exact absurd ha (by decide)
    simp only [boot, if_neg this]
  packed := by
    intro a
    by_cases ha : a = 1
    · subst ha
      refine ⟨by decide, by decide⟩
    · exact packed_blank (by simp [boot, ha]) (by simp [boot, ha])

theorem paged_run {h : List Event} {s s' : Kernel} (hp : Paged s) (hr : Run Step s h s') : Paged s' :=
  hr.invariant (fun _ s => Paged s) hp fun _ _ _ _ _ hp ⟨_, _, hs⟩ => hp.step (step_case hs)

theorem filled_run {h : List Event} {s s' : Kernel} {a : Page} {i : Index} (hp : Paged s)
    (hi : (s.shared a).threads i ≠ none) (hr : Run Step s h s') : (s'.shared a).threads i ≠ none :=
  (hr.invariant (fun _ s => Paged s ∧ (s.shared a).threads i ≠ none) ⟨hp, hi⟩
    fun _ _ _ _ _ ⟨hp, hi⟩ ⟨_, _, hs⟩ =>
      ⟨hp.step (step_case hs), filled_step hp (step_case hs) hi⟩).2

/-- On the run with history `h` from boot to `s`, the process with page `own` once had six
threads registered. -/
def HadSix (h : List Event) (s : Kernel) (own : Page) : Prop :=
  ∃ h₁ h₂ t, h = h₂ ++ h₁ ∧ Run Step boot h₁ t ∧ Run Step t h₂ s ∧
    ∀ i, (t.shared own).isThere i = true

theorem last_filled_iff {h : List Event} {s : Kernel} {own : Page} (hr : Run Step boot h s) :
    (s.shared own).threads 5 ≠ none ↔ HadSix h s own := by
  constructor
  · refine hr.origin (fun s => (s.shared own).threads 5 ≠ none)
      (fun t => ∀ i, (t.shared own).isThere i = true) ?_ ?_
    · by_cases h1 : own = 1
      · subst h1
        decide
      · simp [boot, h1]
    · intro h s e s' _ ⟨c, op, hs⟩ hfilled
      exact last_filled (step_case hs) hfilled
  · rintro ⟨h₁, h₂, t, -, hr₁, hr₂, hthere⟩
    have hpaged := paged_run boot_paged hr₁
    exact filled_run hpaged ((hpaged.packed own).filled 5 (hthere 5)) hr₂

/-! ### What is followed -/

/-- `wait` and `kill` follow every entry, whatever they find. -/
def loopReads : List Nat := List.range 6

/-- `thread_exit` follows the entries up to the first master. Without one it has followed
all six, and reads `threads[6]` for `wakeup1`. -/
def Kernel.threadExitReads (s : Kernel) (own : Page) : List Nat :=
  match s.masterIndex own with
  | some i => List.range (i.val + 1)
  | none => List.range 7

/-- Each of these entries of `p->sharePtr->threads` is inside the array and filled. -/
def Kernel.SafeReads (s : Kernel) (p : Slot) (reads : Page → List Nat) : Prop :=
  ∃ own ∈ (s.proc p).sharePtr, ∀ n ∈ reads own,
    ∃ i : Index, i.val = n ∧ (s.shared own).threads i ≠ none

theorem loopReads_safe_iff {s : Kernel} (hp : Paged s) (own : Page) :
    (∀ n ∈ loopReads, ∃ i : Index, i.val = n ∧ (s.shared own).threads i ≠ none) ↔
      (s.shared own).threads 5 ≠ none := by
  constructor
  · intro h
    obtain ⟨i, hi, hfilled⟩ := h 5 (by decide)
    rwa [show i = 5 from Fin.ext hi] at hfilled
  · intro h n hn
    have hlt : n < 6 := List.mem_range.mp hn
    exact ⟨⟨n, hlt⟩, rfl, (hp.packed own).left ⟨n, hlt⟩ 5 (Fin.le_last _) h⟩

theorem masterIndex_some {s : Kernel} {own : Page} {i : Index} (h : s.masterIndex own = some i) :
    ∃ q, (s.shared own).threads i = some q ∧ (s.proc q).imMaster = true := by
  have := Fin.eq_true_of_find?_eq_some h
  split at this
  · rename_i q hq
    exact ⟨q, hq, this⟩
  · cases this

theorem masterIndex_none {s : Kernel} {own : Page} (h : s.masterIndex own = none) {i : Index}
    {q : Slot} (hq : (s.shared own).threads i = some q) : (s.proc q).imMaster = false := by
  have := Fin.find?_eq_none_iff.mp h i
  simpa [hq] using this

theorem threadExitReads_safe_iff {s : Kernel} (hp : Paged s) (own : Page) :
    (∀ n ∈ s.threadExitReads own, ∃ i : Index, i.val = n ∧ (s.shared own).threads i ≠ none) ↔
      ∃ i q, (s.shared own).threads i = some q ∧ (s.proc q).imMaster = true := by
  unfold Kernel.threadExitReads
  cases h : s.masterIndex own with
  | some i =>
    obtain ⟨q, hq, hmaster⟩ := masterIndex_some h
    refine ⟨fun _ => ⟨i, q, hq, hmaster⟩, fun _ n hn => ?_⟩
    have hle : n ≤ i.val := Nat.le_of_lt_succ (List.mem_range.mp hn)
    refine ⟨⟨n, by omega⟩, rfl, (hp.packed own).left _ i hle ?_⟩
    rw [hq]
    simp
  | none =>
    constructor
    · intro hreads
      obtain ⟨i, hi, -⟩ := hreads 6 (by decide)
      omega
    · rintro ⟨i, q, hq, hmaster⟩
      rw [masterIndex_none h hq] at hmaster
      cases hmaster

/-- After every run: `wait` on a child `p` and `kill` on a proc `p` follow only filled
entries exactly if the process once had six threads registered, and `thread_exit` by
`p` exactly if a proc its `threads[]` lists is a master. -/
theorem reads_safe_iff {h : List Event} {s : Kernel} (hr : Run Step boot h s) (p : Slot) :
    (s.SafeReads p (fun _ => loopReads) ↔ ∃ own ∈ (s.proc p).sharePtr, HadSix h s own) ∧
    (s.SafeReads p s.threadExitReads ↔ ∃ own ∈ (s.proc p).sharePtr,
      ∃ i q, (s.shared own).threads i = some q ∧ (s.proc q).imMaster = true) := by
  have hp := paged_run boot_paged hr
  constructor
  · refine exists_congr fun own => and_congr_right fun _ => ?_
    rw [loopReads_safe_iff hp, last_filled_iff hr]
  · exact exists_congr fun own => and_congr_right fun _ => threadExitReads_safe_iff hp own

/-- Slot 1 has started five threads: everything it follows is there. -/
theorem reads_safe_six : ∃ h s, Run Step boot h s ∧
    s.SafeReads 1 (fun _ => loopReads) ∧ s.SafeReads 1 s.threadExitReads := by
  obtain ⟨h, s, hr, hshare, hsix, hthreads, hmaster⟩ := reaches
    (onCpu 0 (Op.childRuns ++ Op.creates ++ Op.creates ++ Op.creates ++
      Op.creates ++ Op.creates))
    (P := fun _ s => (s.proc 1).sharePtr = some 5 ∧ (∀ i, (s.shared 5).isThere i = true) ∧
      (s.shared 5).threads 0 = some 1 ∧ (s.proc 1).imMaster = true) (by decide +kernel)
  have hiff := reads_safe_iff hr 1
  exact ⟨h, s, hr, hiff.1.mpr ⟨5, hshare, h, [], s, rfl, hr, .nil, hsix⟩,
    hiff.2.mpr ⟨5, hshare, 0, 1, hthreads, hmaster⟩⟩

/-- Slot 1, a child of `init` without threads, has exited: the `wait` that reaps it
follows `threads[1]`, which is null. -/
theorem wait_follows_null : ∃ h s s', Run Step boot h s ∧
    s.step 0 .wait = some (s', .waited 0 1 2) ∧
    1 ∈ loopReads ∧ (s.proc 1).sharePtr = some 5 ∧ (s.shared 5).threads 1 = none :=
  reaches_step (onCpu 0 (Op.childRuns ++ [Op.exit] ++ Op.rescan)) 0 .wait
    (by decide +kernel)

end ThreadKernel
