import ThreadKernel.Vm.Space

/-! The regions that `sbrk` and `thread_create` hand out.

`sys_sbrk` returns the size it read before `growproc` took the lock. Where the two agree
(`Unraced`) a region begins at the old size and ends at the new one, and regions cannot
meet; nothing makes them agree when another thread grows the process in between. -/
namespace ThreadKernel.Vm

open Lts State Function

/-! ### Sizes stay below the kernel -/

theorem allocuvm_size {d d' : Pgdir} {oldsz newsz r : Nat} {frames : List Page}
    (h : allocuvm d oldsz newsz frames = some (d', r)) :
    r = 0 ∨ (newsz < KERNBASE ∧ r = max oldsz newsz) := by
  unfold allocuvm at h
  split at h
  · cases h
    exact .inl rfl
  · split at h
    · cases h
      exact .inr ⟨by omega, by omega⟩
    · split at h
      · cases h
        exact .inr ⟨by omega, by omega⟩
      · cases h
        exact .inl rfl
      · cases h

/-- A thread that asks for more gets exactly what it asks for. -/
theorem growproc_pos {d d' : Pgdir} {sz r : Nat} {n : Word} {frames : List Page}
    (hn : 0 < n.toInt) (hsz : sz < KERNBASE) (h : growproc d sz n frames = some (d', some r)) :
    r = sz + n.toNat ∧ r < KERNBASE := by
  rw [growproc, if_pos hn] at h
  obtain ⟨⟨d₁, r₁⟩, halloc, heq⟩ := Option.map_eq_some_iff.mp h
  have hlt : n.toNat < 2 ^ 31 := by
    by_contra hnot
    rw [BitVec.toInt_eq_toNat_cond, if_neg (by omega)] at hn
    omega
  have hkern : KERNBASE = 2 ^ 31 := rfl
  have hmod : (sz + n.toNat) % 2 ^ 32 = sz + n.toNat := Nat.mod_eq_of_lt (by omega)
  obtain ⟨rfl, hr⟩ := Prod.mk.inj heq
  split at hr
  · cases hr
  · obtain rfl := Option.some.inj hr
    rcases allocuvm_size halloc with h0 | ⟨hkern, hmax⟩
    · contradiction
    · omega

theorem growproc_size {d d' : Pgdir} {sz r : Nat} {n : Word} {frames : List Page}
    (hsz : sz < KERNBASE) (h : growproc d sz n frames = some (d', some r)) : r < KERNBASE := by
  by_cases hpos : 0 < n.toInt
  · exact (growproc_pos hpos hsz h).2
  · rw [growproc, if_neg hpos] at h
    split at h
    · have hr := (Prod.mk.inj (Option.some.inj h)).2
      split at hr
      · cases hr
      · obtain rfl := Option.some.inj hr
        unfold deallocuvm
        split
        · exact hsz
        · simp only
          omega
    · cases h
      exact hsz

theorem createStack_size {α : Type} {push : Pgdir → Nat → Copied α} {d d' : Pgdir} {sz r : Nat}
    {frames : List Page} {x : α} (h : createStack push d sz frames = .ok d' r x ∨
      createStack push d sz frames = .unpushed d' r x) :
    r = sz + 2 * PGSIZE ∧ r < KERNBASE := by
  unfold createStack at h
  cases halloc : allocuvm d sz (sz + 2 * PGSIZE) frames with
  | none => simp [halloc] at h
  | some x =>
    obtain ⟨d₁, r₁⟩ := x
    simp only [halloc] at h
    have hr : r₁ ≠ 0 ∧ r₁ = r := by
      split at h
      · simp at h
      · rename_i hne
        split at h
        · simp at h
        · split at h <;> simp_all
    rcases allocuvm_size halloc with h0 | ⟨hkern, hmax⟩
    · exact absurd h0 hr.1
    · omega

theorem buildImage_size {im : Image} {d : Pgdir} {r : Nat} (h : buildImage im = some (some (d, r))) :
    r < KERNBASE := by
  unfold buildImage at h
  split at h
  · rename_i d₀ sz hload
    cases halloc : allocuvm d₀ (pages sz * PGSIZE) (pages sz * PGSIZE + 2 * PGSIZE) im.frames with
    | none => simp [halloc] at h
    | some x =>
      obtain ⟨d₁, r₁⟩ := x
      simp only [halloc] at h
      have hr : r₁ ≠ 0 ∧ r₁ = r := by
        split at h
        · simp at h
        · split at h
          · simp at h
          · split at h <;> simp_all
      rcases allocuvm_size halloc with h0 | ⟨hkern, hmax⟩
      · exact absurd h0 hr.1
      · omega
  · rename_i hnot
    exact absurd h (hnot d r)

/-- The sizes a call has in hand. -/
def Call.Small : Call → Prop
  | .forkPublish _ sz | .execDir _ sz | .execSz sz _ => sz < KERNBASE
  | .idle | .sbrk _ _ | .forkCopy _ _ _ _ | .forkSize _ | .execing | .execFree _ => True

structure Small (s : State) : Prop where
  size : ∀ own, (s.space own).sz < KERNBASE
  call : ∀ {p own k}, s.thread p = some (own, k) → k.Small

namespace Small

variable {s s' : State} {e : Event} {own : Page} {p : Slot}

theorem setCall (hs : Small s) {k : Call} (hk : k.Small) :
    Small (s.setCall p own k) := by
  refine ⟨hs.size, fun {q own' k'} hq => ?_⟩
  simp only [State.setCall, update_apply] at hq
  split at hq
  · cases hq
    exact hk
  · exact hs.call hq

theorem idle (hs : Small s) : Small (s.setCall p own .idle) :=
  hs.setCall trivial

theorem setSz (hs : Small s) {sz : Nat} (hsz : sz < KERNBASE) :
    Small (s.setSz own sz) := by
  refine ⟨fun own' => ?_, hs.call⟩
  simp only [State.setSz, update_apply]
  split
  · exact hsz
  · exact hs.size own'

/-- The directories make no difference, and threads may end. -/
theorem congr (hs : Small s) (hspace : ∀ own, (s'.space own).sz = (s.space own).sz)
    (hthread : ∀ {q x}, s'.thread q = some x → s.thread q = some x) : Small s' :=
  ⟨fun own => by rw [hspace]; exact hs.size own, fun hq => hs.call (hthread hq)⟩

theorem step (hs : Small s) (h : Case s e s') : Small s' := by
  have hdir : ∀ own d, Small (s.setDir own d) := fun own d => hs.congr (fun _ => rfl) id
  cases h with
  | stay => exact hs
  | sbrk | fork => exact hs.setCall trivial
  | size => exact hs.setCall (hs.size _)
  | @grow p own addr n frames hp =>
    unfold growStep
    split
    · exact hs
    · exact (hdir own _).idle.congr (fun _ => rfl) id
    · rename_i hgrow
      exact ((hdir own _).setSz (growproc_size (hs.size own) hgrow)).setCall trivial
  | @create p np own frames hp hnp =>
    unfold createStep
    split
    · exact hs
    · exact hdir own _
    · rename_i hstack
      exact (hdir own _).setSz (createStack_size (.inr hstack)).2
    · rename_i hstack
      exact ((hdir own _).setSz (createStack_size (.inl hstack)).2).setCall trivial
  | copy hp =>
    unfold copyStep
    split
    · split
      · exact hs
      · exact hs
      · split
        · exact hs.setCall trivial
        · split
          · exact hs.setCall trivial
          · exact hs.setCall trivial
          · exact hs
    · exact hs.setCall trivial
  | publish hp hnp =>
    have hsmall := hs.call hp
    refine ⟨fun own' => ?_, hs.idle.idle.call⟩
    simp only [State.publish, update_apply]
    split
    · exact hsmall
    · exact hs.size own'
  | @exec p own gone running hp =>
    have hwithout : Small (s.without p own fun q => gone.contains q && !running.contains q) :=
      hs.congr (fun _ => rfl) thread_of_without
    exact hwithout.setCall (k := .execing) trivial
  | build hp =>
    unfold buildStep
    split
    · exact hs
    · exact hs.setCall trivial
    · rename_i hbuild
      exact hs.setCall (buildImage_size hbuild)
  | @storeDir p own d sz hp =>
    have hsmall : sz < KERNBASE := hs.call hp
    refine (hs.setCall (k := .execSz sz (s.space own).pgdir) hsmall).congr (fun own' => ?_) id
    simp only [State.storeDir, update_apply]
    split
    · rename_i heq
      rw [heq]
      rfl
    · rfl
  | storeSz hp => exact (hs.setSz (hs.call hp)).setCall trivial
  | free hp => exact hs.idle.congr (fun _ => rfl) id
  | threadExit hp =>
    refine hs.congr (fun _ => rfl) fun {q x} hq => ?_
    simp only [update_apply] at hq
    split at hq
    · cases hq
    · exact hq
  | exit hp =>
    refine hs.congr (fun _ => rfl) fun {q x} hq => ?_
    simp only [update_apply] at hq
    split at hq
    · cases hq
    · exact thread_of_without hq

end Small

theorem boot_small : Small boot where
  size := fun _ => show PGSIZE < KERNBASE by decide
  call := fun {p own k} hp => by
    simp only [boot] at hp
    split at hp
    · cases hp
      trivial
    · cases hp

theorem small_run {h : List Event} {s : State} (hr : Run Step boot h s) : Small s :=
  hr.invariant (fun _ s => Small s) boot_small fun _ _ _ _ _ hs hstep => hs.step (step_case hstep)

/-! ### Regions -/

/-- The region an event hands out in the process `own`: where it begins, and its length. -/
def Event.region (own : Page) : Event → Option (Nat × Nat)
  | .grown _ own' addr n => if own' = own then some (addr, n.toNat) else none
  | .created _ own' base => if own' = own then some (base, 2 * PGSIZE) else none
  | .quiet | .asked _ _ | .growFailed _ | .createFailed _ | .killedOthers _ _ _ | .exited _ _ | .panicked _ =>
    none

def regions (own : Page) (h : List Event) : List (Nat × Nat) := h.filterMap (Event.region own)

/-- Calls of `sbrk(n)` with `n > 0` and of `thread_create`, and nothing else; `growproc`
finds the size `sys_sbrk` has read. -/
def Unraced (s : State) : Event → Prop
  | .asked _ n => 0 < n.toInt
  | .grown _ own addr n => 0 < n.toInt ∧ (s.space own).sz = addr
  | .growFailed _ | .created _ _ _ | .createFailed _ => True
  | .quiet | .killedOthers _ _ _ | .exited _ _ | .panicked _ => False

instance (s : State) (e : Event) : Decidable (Unraced s e) := by
  apply @Event.casesOn _ e <;> intros <;> dsimp only [Unraced] <;> infer_instance

/-- What a step that keeps the rule does to a size: the region of the event is between the
old and the new one. -/
theorem Case.region {s s' : State} {e : Event} (hs : Small s) (h : Case s e s') (hrule : Unraced s e)
    (own : Page) :
    (s.space own).sz ≤ (s'.space own).sz ∧ ∀ r ∈ e.region own,
      r.1 = (s.space own).sz ∧ r.1 + r.2 = (s'.space own).sz := by
  cases h with
  | sbrk => exact ⟨le_rfl, nofun⟩
  | stay | fork | size | publish | storeDir | storeSz | free | threadExit | exit | exec => cases hrule
  | @grow p own₁ addr n frames hp =>
    unfold growStep at hrule ⊢
    cases hgrow : growproc (s.dirOf own₁) (s.space own₁).sz n frames with
    | none =>
      simp only [hgrow] at hrule
      cases hrule
    | some x =>
      obtain ⟨d, _ | sz⟩ := x
      · exact ⟨le_rfl, nofun⟩
      · simp only [hgrow] at hrule
        obtain ⟨hpos, haddr⟩ := hrule
        obtain ⟨hsz, -⟩ := growproc_pos hpos (hs.size own₁) hgrow
        by_cases hown : own₁ = own
        · subst hown
          refine ⟨?_, fun r hr => ?_⟩
          · simp [setCall, setSz, setDir, hsz]
          · simp only [Event.region, if_true, Option.mem_some] at hr
            subst hr
            simp [setCall, setSz, setDir, hsz, haddr]
        · refine ⟨?_, fun r hr => ?_⟩
          · simp [setCall, setSz, setDir, Ne.symm hown]
          · simp [Event.region, hown] at hr
  | @create p np own₁ frames hp hnp =>
    unfold createStep at hrule ⊢
    cases hstack : s.newStack own₁ frames with
    | panicked w =>
      simp only [hstack] at hrule
      cases hrule
    | noMemory d => exact ⟨le_rfl, nofun⟩
    | unpushed d sz ram =>
      obtain ⟨hsz, -⟩ := createStack_size (.inr hstack)
      refine ⟨?_, nofun⟩
      by_cases hown : own = own₁
      · subst hown
        simp [setSz, setDir, hsz]
      · simp [setSz, setDir, hown]
    | ok d sz ram =>
      obtain ⟨hsz, -⟩ := createStack_size (.inl hstack)
      by_cases hown : own₁ = own
      · subst hown
        refine ⟨?_, fun r hr => ?_⟩
        · simp [setCall, setSz, setDir, hsz]
        · simp only [Event.region, if_true, Option.mem_some] at hr
          subst hr
          simp [setCall, setSz, setDir, hsz]
      · refine ⟨?_, fun r hr => ?_⟩
        · simp [setCall, setSz, setDir, Ne.symm hown]
        · simp [Event.region, hown] at hr
  | copy =>
    unfold copyStep at hrule
    split at hrule
    · split at hrule
      · cases hrule
      · cases hrule
      · split at hrule
        · cases hrule
        · split at hrule <;> cases hrule
    · cases hrule
  | build =>
    unfold buildStep at hrule
    split at hrule <;> cases hrule

variable {h h₀ : List Event} {s s₀ : State}

/-- On every run of `sbrk(n)` with `n > 0` and `thread_create` calls, from a reachable
state, in which each `growproc` finds the size its `sys_sbrk` has read: the regions that
the calls return are disjoint. -/
theorem regions_disjoint (hr₀ : Run Step boot h₀ s₀) (hr : Run (Guarded Step Unraced) s₀ h s)
    (own : Page) : (regions own h).Pairwise fun r r' =>
      Disjoint (Set.Ico r.1 (r.1 + r.2)) (Set.Ico r'.1 (r'.1 + r'.2)) := by
  have hinv : Small s ∧ (∀ r ∈ regions own h, r.1 + r.2 ≤ (s.space own).sz) ∧
      (regions own h).Pairwise fun r r' => r'.1 + r'.2 ≤ r.1 := by
    refine hr.invariant (fun h s => Small s ∧ (∀ r ∈ regions own h, r.1 + r.2 ≤ (s.space own).sz) ∧
      (regions own h).Pairwise fun r r' => r'.1 + r'.2 ≤ r.1) ⟨small_run hr₀, by simp [regions]⟩ ?_
    rintro h s e s' - ⟨hs, hbelow, hpair⟩ ⟨hstep, hrule⟩
    have hcase := step_case hstep
    obtain ⟨hmono, hregion⟩ := hcase.region hs hrule own
    refine ⟨hs.step hcase, ?_⟩
    -- a new region begins where the process ended
    cases he : e.region own with
    | none =>
      simp only [regions, List.filterMap_cons, he]
      exact ⟨fun r hr => (hbelow r hr).trans hmono, hpair⟩
    | some r₀ =>
      obtain ⟨hstart, hend⟩ := hregion r₀ he
      simp only [regions, List.filterMap_cons, he, List.mem_cons, List.pairwise_cons]
      refine ⟨?_, fun r hr => ?_, hpair⟩
      · rintro r (rfl | hr)
        · exact hend.le
        · exact (hbelow r hr).trans hmono
      · rw [hstart]
        exact hbelow r hr
  refine hinv.2.2.imp fun {r r'} hle => ?_
  exact Set.Ico_disjoint_Ico.mpr (by omega)

/-- `init` starts a thread; then both grow the process, one after the other. -/
theorem regions_disjoint_in_turn : ∃ h s, Run (Guarded Step Unraced) boot h s ∧
    regions 1 h = [(12388, 200), (12288, 100), (4096, 8192)] ∧
    (regions 1 h).Pairwise fun r r' =>
      Disjoint (Set.Ico r.1 (r.1 + r.2)) (Set.Ico r'.1 (r'.1 + r'.2)) := by
  obtain ⟨h, s, hr, hp⟩ := reached Unraced boot
    [.threadCreate 0 1 [10, 11, 12], .sbrk 0 100, .grow 0 [13], .sbrk 1 200, .grow 1 []]
    (P := fun h _ => regions 1 h = [(12388, 200), (12288, 100), (4096, 8192)]) (by decide +kernel)
  exact ⟨h, s, hr, hp, regions_disjoint .nil hr 1⟩

/-- `init` starts a thread; both call `sbrk(100)`, and both have read the size before the
first of them grows the process: they are given the same address. -/
theorem sbrk_returns_address_twice : ∃ h s, Run Step boot h s ∧
    .grown 0 1 12288 100 ∈ h ∧ .grown 1 1 12288 100 ∈ h :=
  Run.exists_of_steps _ (fun _ op _ _ hs => ⟨op, hs⟩)
    [.threadCreate 0 1 [10, 11, 12], .sbrk 0 100, .sbrk 1 100, .grow 0 [13], .grow 1 []]
    (by decide +kernel)

end ThreadKernel.Vm
