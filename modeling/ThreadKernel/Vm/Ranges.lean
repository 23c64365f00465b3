import ThreadKernel.Vm.Invariant

/-! The user memory that a system call in progress has been promised.

`fetchint`, `fetchstr` and `argptr` compare an address with `sharePtr->sz` and hand it on;
the call uses it later, after it has slept on a pipe, a disk block or another thread. The
machine of the address spaces is run here together with the ranges each thread has had
approved and may still access. What keeps them in the process is that no thread shrinks it
below a range that another one has in hand, and that the pages are there in the first
place (`Calm`). -/
namespace ThreadKernel.Vm

open Lts State Function

/-- The ranges are an address and a number of bytes. -/
structure Ranged where
  vm : State
  held : Slot → List (Nat × Nat)

inductive RangedOp where
  | vm (op : Op)
  /-- `argptr`, `fetchint` and `fetchstr` let `n` bytes from `addr` on pass; the `nul` of a
  string is one of them. -/
  | approve (p : Slot) (addr n : Nat)
  /-- The last access of the call. -/
  | done (p : Slot)

/-- The places from which a call may still come to an address the user gave it. `sbrk` and
`fork` have none, and `exec` copies the arguments and the name before it is ready to
commit. -/
def Call.accesses : Call → Bool
  | .idle | .execing => true
  | .sbrk _ _ | .forkCopy _ _ _ _ | .forkSize _ | .forkPublish _ _ | .execDir _ _ | .execSz _ _
  | .execFree _ => false

/-- The test of `argptr`, in machine arithmetic; `fetchint` is the case of four bytes. -/
def Approves (sz addr n : Nat) : Prop :=
  addr < sz ∧ n < 2 ^ 31 ∧ (addr + n) % 2 ^ 32 ≤ sz

instance (sz addr n : Nat) : Decidable (Approves sz addr n) :=
  inferInstanceAs (Decidable (_ ∧ _ ∧ _))

namespace Ranged

/-- The ranges that outlive a step of the machine below. -/
def keep (s : Ranged) (vm : State) : Ranged where
  vm := vm
  held := fun q => if (vm.thread q).any (fun x => x.2.accesses) then s.held q else []

def step (s : Ranged) : RangedOp → Option (Ranged × Event)
  | .vm op => (s.vm.step op).map fun x => (s.keep x.1, x.2)
  | .approve p addr n =>
    match s.vm.thread p with
    | some (own, .idle) =>
      if Approves (s.vm.space own).sz addr n then
        some ({s with held := update s.held p ((addr, n) :: s.held p)}, .quiet)
      else none
    | _ => none
  | .done p => some ({s with held := update s.held p []}, .quiet)

def boot : Ranged := ⟨State.boot, fun _ => []⟩

end Ranged

def Ranged.Step (s : Ranged) (e : Event) (s' : Ranged) : Prop := ∃ op, s.step op = some (s', e)

/-! ### How sizes change -/

variable {s s' : State} {e : Event} {p q : Slot} {own own' : Page} {k k' : Call}

theorem growproc_neg {d d' : Pgdir} {sz r : Nat} {n : Word} {frames : List Page}
    (hn : ¬ 0 < n.toInt) (h : growproc d sz n frames = some (d', some r)) :
    sz ≤ r ∨ n.toInt < 0 ∧ r = (sz + n.toNat) % 2 ^ 32 ∧ r < sz := by
  rw [growproc, if_neg hn] at h
  split at h
  · rename_i hneg
    have hr := (Prod.mk.inj (Option.some.inj h)).2
    split at hr
    · cases hr
    · obtain rfl := Option.some.inj hr
      unfold deallocuvm
      split
      · exact .inl le_rfl
      · rename_i hlt
        exact .inr ⟨hneg, rfl, Nat.lt_of_not_le hlt⟩
  · cases h
    exact .inl le_rfl

/-- A size does not shrink, but by `sbrk` and under `exec`. -/
theorem Case.shrinks (hs : Small s) (ht : Tight s) (h : Case s e s') (hq : s.thread q = some (own, k)) :
    (s.space own).sz ≤ (s'.space own).sz ∨
      (∃ p addr n, e = .grown p own addr n ∧ n.toInt < 0 ∧
        (s'.space own).sz = ((s.space own).sz + n.toNat) % 2 ^ 32 ∧
        (s'.space own).sz < (s.space own).sz) ∨
      ∃ p sz old, s.thread p = some (own, .execSz sz old) := by
  cases h with
  | sbrk | stay | fork | size | exec | threadExit | exit | free => exact .inl le_rfl
  | copy =>
    refine .inl (le_of_eq ?_)
    unfold copyStep
    repeat' split
    all_goals rfl
  | build =>
    refine .inl (le_of_eq ?_)
    unfold buildStep
    split <;> rfl
  | @publish p np own₁ d sz hp hnp =>
    have hne : own ≠ s.nextSpace := Nat.ne_of_lt (ht.fresh hq).2
    exact .inl (by simp [State.publish, setCall, hne])
  | @storeDir p own₁ d sz hp =>
    refine .inl (le_of_eq ?_)
    by_cases hown : own = own₁
    · subst hown
      simp [State.storeDir, setCall]
    · simp [State.storeDir, setCall, hown]
  | @storeSz p own₁ sz old hp =>
    by_cases hown : own = own₁
    · subst hown
      exact .inr (.inr ⟨p, sz, old, hp⟩)
    · simp [setSz, setCall, hown]
  | @grow p own₁ addr n frames hp =>
    unfold growStep
    cases hgrow : growproc (s.dirOf own₁) (s.space own₁).sz n frames with
    | none => exact .inl le_rfl
    | some x =>
      obtain ⟨d, _ | sz⟩ := x
      · exact .inl le_rfl
      · by_cases hown : own = own₁
        · subst hown
          have hsz : ((((s.setDir own d).setSz own sz).setCall p own .idle).space own).sz = sz := by
            simp [setSz, setCall]
          simp only [hsz]
          by_cases hpos : 0 < n.toInt
          · have := (growproc_pos hpos (hs.size own) hgrow).1
            exact .inl (by omega)
          · rcases growproc_neg hpos hgrow with hle | ⟨hneg, hr, hlt⟩
            · exact .inl hle
            · exact .inr (.inl ⟨p, addr, n, rfl, hneg, hr, hlt⟩)
        · simp [setSz, setDir, setCall, hown]
  | @create p np own₁ frames hp hnp =>
    refine .inl ?_
    unfold createStep
    cases hstack : s.newStack own₁ frames with
    | panicked w => exact le_rfl
    | noMemory d => exact le_rfl
    | unpushed d sz ram | ok d sz ram =>
      have hsz : sz = (s.space own₁).sz + 2 * PGSIZE := by
        first
          | exact (createStack_size (.inr hstack)).1
          | exact (createStack_size (.inl hstack)).1
      by_cases hown : own = own₁
      · subst hown
        simp [setSz, setDir, setCall, hsz]
      · simp [setSz, setDir, setCall, hown]

theorem Case.process (h : Case s e s') (hq : s.thread q = some (own, k))
    (hq' : s'.thread q = some (own', k')) : own' = own := by
  have hset : ∀ {p own₁ k₁ k₂}, s.thread p = some (own₁, k₁) →
      update s.thread p (some (own₁, k₂)) q = some (own', k') → own' = own := by
    intro p own₁ k₁ k₂ hp h
    rw [update_apply] at h
    split at h <;> grind
  have hsame : s.thread q = some (own', k') → own' = own := by
    intro h
    rw [hq] at h
    cases h
    rfl
  cases h with
  | sbrk hp | fork hp | size hp | storeDir hp | storeSz hp | free hp => exact hset hp hq'
  | stay => exact hsame hq'
  | grow hp =>
    unfold growStep at hq'
    split at hq'
    · exact hsame hq'
    · exact hset hp hq'
    · exact hset hp hq'
  | create hp hnp =>
    unfold createStep at hq'
    split at hq'
    · exact hsame hq'
    · exact hsame hq'
    · exact hsame hq'
    · simp only [setCall, setSz, setDir, update_apply] at hq'
      split at hq' <;> grind
  | copy hp =>
    unfold copyStep at hq'
    repeat' split at hq'
    all_goals first
      | exact hset hp hq'
      | exact hsame hq'
  | build hp =>
    unfold buildStep at hq'
    split at hq'
    · exact hsame hq'
    · exact hset hp hq'
    · exact hset hp hq'
  | publish hp hnp =>
    simp only [State.publish, setCall, update_apply] at hq'
    split at hq' <;> grind
  | exec hp =>
    simp only [setCall, update_apply] at hq'
    split at hq'
    · grind
    · exact hsame (thread_of_without hq')
  | threadExit hp =>
    simp only [update_apply] at hq'
    split at hq'
    · cases hq'
    · exact hsame hq'
  | exit hp =>
    simp only [update_apply] at hq'
    split at hq'
    · cases hq'
    · exact hsame (thread_of_without hq')

/-! ### What keeps the ranges -/

/-- `sbrk` does not shrink the process below a range that one of its threads has in hand. -/
def Spares (s : Ranged) : Event → Prop
  | .grown _ own _ n =>
    n.toInt < 0 → ((s.vm.space own).sz + n.toNat) % 2 ^ 32 < (s.vm.space own).sz →
      ∀ q, ∀ x ∈ s.vm.thread q, x.1 = own → ∀ r ∈ s.held q,
        r.1 + r.2 ≤ ((s.vm.space own).sz + n.toNat) % 2 ^ 32
  | .quiet | .asked _ _ | .growFailed _ | .created _ _ _ | .createFailed _ | .killedOthers _ _ _
  | .exited _ _ | .panicked _ => True

instance (s : Ranged) (e : Event) : Decidable (Spares s e) := by
  apply @Event.casesOn _ e <;> intros <;> dsimp only [Spares] <;> infer_instance

/-- The step is calm and spares the ranges. -/
def Undisturbed (s : Ranged) (e : Event) : Prop := Calm s.vm e ∧ Spares s e

instance (s : Ranged) (e : Event) : Decidable (Undisturbed s e) :=
  inferInstanceAs (Decidable (_ ∧ _))

structure Promised (s : Ranged) : Prop where
  tight : Tight s.vm
  small : Small s.vm
  /-- A range has a thread that may access it, and is in its process. -/
  range : ∀ q, ∀ r ∈ s.held q, ∃ own k, s.vm.thread q = some (own, k) ∧ k.accesses = true ∧
    r.1 + r.2 ≤ (s.vm.space own).sz

namespace Promised

variable {s s' : Ranged} {e : Event}

theorem keep {vm : State} (hp : Promised s) (h : Case s.vm e vm) (hcalm : Calm s.vm e)
    (hspares : Spares s e) : Promised (s.keep vm) where
  tight := (hp.tight.step h hcalm).1
  small := hp.small.step h
  range := by
    intro q r hr
    simp only [Ranged.keep] at hr
    split at hr
    · rename_i hany
      obtain ⟨own, k, hq, hk, hle⟩ := hp.range q r hr
      obtain ⟨own', k', hq', hk'⟩ : ∃ own' k', vm.thread q = some (own', k') ∧ k'.accesses = true := by
        simpa [Option.any_eq_true] using hany
      obtain rfl := h.process hq hq'
      refine ⟨own', k', hq', hk', ?_⟩
      rcases h.shrinks hp.small hp.tight hq with hge | ⟨p, addr, n, rfl, hneg, hsz, hlt⟩ | hexec
      · exact le_trans hle hge
      · simp only [Ranged.keep]
        rw [hsz] at hlt ⊢
        exact hspares hneg hlt q _ hq rfl r hr
      · -- the thread in `exec` is the only one, and it has nothing left to access
        obtain ⟨p, sz, old, hp'⟩ := hexec
        obtain rfl := (hp.tight.call hp').1 q k hq
        rw [hp'] at hq
        cases hq
        cases hk
    · cases hr

theorem approve {addr n : Nat} (hp : Promised s)
    (hidle : s.vm.thread p = some (own, .idle)) (hok : Approves (s.vm.space own).sz addr n) :
    Promised {s with held := update s.held p ((addr, n) :: s.held p)} where
  tight := hp.tight
  small := hp.small
  range := by
    intro q r hr
    by_cases hq : q = p
    · subst hq
      simp only [update_self, List.mem_cons] at hr
      rcases hr with rfl | hr
      · have hkern : (s.vm.space own).sz < 2 ^ 31 := hp.small.size own
        obtain ⟨haddr, hn, hsum⟩ := hok
        exact ⟨own, .idle, hidle, rfl, by simp only; omega⟩
      · exact hp.range q r hr
    · simp only [update_of_ne hq] at hr
      exact hp.range q r hr

theorem done (hp : Promised s) (p : Slot) :
    Promised {s with held := update s.held p []} where
  tight := hp.tight
  small := hp.small
  range := by
    intro q r hr
    by_cases hq : q = p
    · subst hq
      simp at hr
    · simp only [update_of_ne hq] at hr
      exact hp.range q r hr

theorem step (hp : Promised s) (h : s.Step e s') (hrule : Undisturbed s e) : Promised s' := by
  obtain ⟨op, h⟩ := h
  cases op with
  | vm op =>
    obtain ⟨⟨vm, e'⟩, hvm, heq⟩ := Option.map_eq_some_iff.mp h
    cases heq
    exact hp.keep (step_case ⟨op, hvm⟩) hrule.1 hrule.2
  | approve p addr n =>
    simp only [Ranged.step] at h
    split at h
    · split at h <;> cases h
      exact hp.approve ‹_› ‹_›
    · cases h
  | done p =>
    cases h
    exact hp.done p

theorem boot : Promised Ranged.boot where
  tight := boot_tight
  small := boot_small
  range := nofun

theorem mapped (hp : Promised s) {r : Nat × Nat} (hr : r ∈ s.held q)
    (hq : s.vm.thread q = some (own, k)) :
    r.1 + r.2 ≤ (s.vm.space own).sz ∧
      ∀ i, i < r.2 → (phys (s.vm.dirOf own) (r.1 + i)).isSome = true := by
  obtain ⟨own', k', hq', hk, hle⟩ := hp.range q r hr
  rw [hq] at hq'
  cases hq'
  have hfine := hp.tight.call hq
  have hfits : s.vm.Fits own := by
    cases k with
    | idle => exact hfine
    | execing => exact hfine.1
    | sbrk | forkCopy | forkSize | forkPublish | execDir | execSz | execFree => cases hk
  exact ⟨hle, fun i hi => hfits.phys_isSome (by omega)⟩

end Promised

end ThreadKernel.Vm
