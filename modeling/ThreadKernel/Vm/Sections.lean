import ThreadKernel.Vm.Space

/-! What the sections do to a directory that fits its size.

Each of them leaves a directory that fits the size it goes with, whether it succeeds or
fails, and none of them panics. The exception is `sbrk(-sz)`: `growproc` frees every page,
is told 0 by `deallocuvm`, takes that for a failure and leaves the size. -/
namespace ThreadKernel

namespace Vm

open Bytes

/-- `growproc(n)` with `n = -sz`. -/
def Empties (sz : Nat) (n : Word) : Prop :=
  n.toInt < 0 ∧ 0 < sz ∧ (sz + n.toNat) % 2 ^ 32 = 0

instance (sz : Nat) (n : Word) : Decidable (Empties sz n) :=
  inferInstanceAs (Decidable (_ ∧ _ ∧ _))

/-- What a new stack of `thread_create` is, on top of a process of size `sz`. -/
structure NewStack (d : Pgdir) (sz : Nat) (frames : List Page) (buf : List Byte) (ram : Ram)
    (d' : Pgdir) (r : Nat) (ram' : Ram) : Prop where
  size : r = sz + 2 * PGSIZE
  below : r < KERNBASE
  exact : Exact d' r
  /-- The pages of the process stay where they are. -/
  old : ∀ w, w < pages sz → (d'.get w).map Pte.pa = (d.get w).map Pte.pa
  /-- What is pushed is on new pages, which the user can reach. -/
  user : ∀ i, i < buf.length →
    ∃ pa ∈ frames, uphys d' (r - buf.length + i) = some (pa, (r - buf.length + i) % PGSIZE)
  stored : storeAll (uphys d') (r - buf.length) buf ram = some ram'

/-- The outcomes of `createStack` on a directory that fits. -/
def Stacked.Good (d : Pgdir) (sz : Nat) (frames : List Page) (buf : List Byte) (ram : Ram) :
    Stacked Ram → Prop
  | .ok d' r ram' => NewStack d sz frames buf ram d' r ram'
  | .noMemory d' => Exact d' sz
  | .unpushed _ _ _ | .panicked _ => False

end Vm

namespace Exact

open Vm Bytes

variable {d : Pgdir} {sz r : Nat} {frames : List Page} {buf : List Byte}

theorem empty : Exact .empty 0 := by
  intro v
  have hpages : pages 0 = 0 := by decide
  simp [hpages]

/-- The pages below a size are those below the next page boundary. -/
theorem roundup (h : Exact d sz) : Exact d (pages sz * PGSIZE) := by
  have hpages : pages (pages sz * PGSIZE) = pages sz := by
    simp only [pages, PGSIZE]
    omega
  intro v
  rw [hpages]
  exact h v

theorem growproc (h : Exact d sz) (n : Word) (frames : List Page) :
    ∃ d' x, Vm.growproc d sz n frames = some (d', x) ∧
      (¬ Empties sz n → Exact d' (x.getD sz)) := by
  unfold Vm.growproc
  split
  · obtain ⟨d', r, halloc, hcases⟩ := h.allocuvm ((sz + n.toNat) % 2 ^ 32) frames
    refine ⟨d', if r = 0 then none else some r, by rw [halloc]; rfl, fun _ => ?_⟩
    rcases hcases with ⟨rfl, hex⟩ | ⟨hr, -, hex, -⟩
    · exact hex
    · split
      · have hsz : sz = r := by omega
        rw [hsz]
        exact hex
      · exact hex
  · split
    · rename_i hneg
      refine ⟨_, _, rfl, fun hn => ?_⟩
      by_cases hge : sz ≤ (sz + n.toNat) % 2 ^ 32
      · simp only [ThreadKernel.deallocuvm, if_pos hge]
        split <;> exact h
      · -- the process shrinks, and not to nothing
        have hne : (sz + n.toNat) % 2 ^ 32 ≠ 0 := fun h0 => hn ⟨hneg, by omega, h0⟩
        have hex := h.deallocuvm (Nat.lt_of_not_le hge)
        simp only [ThreadKernel.deallocuvm, if_neg hge, if_neg hne] at hex ⊢
        exact hex
    · exact ⟨d, some sz, rfl, fun _ => h⟩

theorem guard (h : Exact d r) (hr : 2 * PGSIZE ≤ r) :
    ∃ d', ThreadKernel.clearpteu d ((r - 2 * PGSIZE) / PGSIZE) = some d' ∧ Exact d' r := by
  have hlt : (r - 2 * PGSIZE) / PGSIZE < pages r := by
    simp only [pages, PGSIZE] at hr ⊢
    omega
  obtain ⟨d', hclear⟩ := clearpteu_isSome ((h _).mpr hlt)
  exact ⟨d', hclear, h.clearpteu hclear⟩

/-- Eight bytes below the end of the stack are on pages of its own, above the guard. -/
theorem top (h : Exact d sz) {d' d'' : Pgdir}
    (halloc : ThreadKernel.allocuvm d sz (sz + 2 * PGSIZE) frames = some (d', r)) (hr : r ≠ 0)
    (hclear : ThreadKernel.clearpteu d' ((r - 2 * PGSIZE) / PGSIZE) = some d'') :
    r = sz + 2 * PGSIZE ∧ r < KERNBASE ∧ Exact d'' r ∧
      (∀ w, w < pages sz → (d''.get w).map Pte.pa = (d.get w).map Pte.pa) ∧
      ∀ i, i < 8 → ∃ pa ∈ frames, uphys d'' (r - 8 + i) = some (pa, (r - 8 + i) % PGSIZE) := by
  obtain ⟨d₁, r₁, halloc₁, hcases⟩ := h.allocuvm (sz + 2 * PGSIZE) frames
  rw [halloc] at halloc₁
  cases halloc₁
  rcases hcases with ⟨h0, -⟩ | ⟨hmax, hkern, hex, hold, hnew⟩
  · exact absurd h0 hr
  have hsize : r = sz + 2 * PGSIZE := by omega
  refine ⟨hsize, by omega, hex.clearpteu hclear, fun w hw => ?_, fun i hi => ?_⟩
  · rw [get_clearpteu hclear]
    split
    · rename_i hguard
      rw [← hguard, hold w hw, Option.map_map]
      rfl
    · rw [hold w hw]
  · have hlow : pages sz ≤ (r - 8 + i) / PGSIZE := by
      simp only [pages, PGSIZE] at hsize ⊢
      omega
    have hhigh : (r - 8 + i) / PGSIZE < pages r := by
      simp only [pages, PGSIZE] at hsize ⊢
      omega
    have hguard : (r - 8 + i) / PGSIZE ≠ (r - 2 * PGSIZE) / PGSIZE := by
      simp only [PGSIZE] at hsize ⊢
      omega
    obtain ⟨pa, hmem, hpa⟩ := hnew _ hlow hhigh
    refine ⟨pa, hmem, ?_⟩
    rw [uphys, get_clearpteu hclear, if_neg hguard, hpa]
    rfl

theorem createStack {ram : Ram} {x : Stacked Ram}
    (h : Exact d sz) (hbuf : buf.length = 8) (hx : Vm.createStack (pushBytes buf ram) d sz frames = x) :
    x.Good d sz frames buf ram := by
  obtain ⟨d', r, halloc, hcases⟩ := h.allocuvm (sz + 2 * PGSIZE) frames
  unfold Vm.createStack at hx
  simp only [halloc] at hx
  rcases hcases with ⟨rfl, hex⟩ | ⟨hr, -, hex, -⟩
  · rw [if_pos rfl] at hx
    rw [← hx]
    exact hex
  · obtain ⟨d'', hclear, -⟩ := hex.guard (by omega)
    have hne : r ≠ 0 := by simp only [PGSIZE] at hr; omega
    obtain ⟨hsize, hkern, hex', hold, huser⟩ := h.top halloc hne hclear
    have hkern' : KERNBASE = 2 ^ 31 := rfl
    obtain ⟨ram', hstored, hcopy⟩ := copyLoop_eq buf.length (r - buf.length) buf ram
      (fun i hi => by
        obtain ⟨pa, -, hpa⟩ := huser i (by omega)
        rw [hbuf, hpa]
        rfl)
      (by omega) le_rfl
    have hpush : pushBytes buf ram d'' r = .ok ram' := hcopy
    simp only [if_neg hne, hclear, hpush] at hx
    rw [← hx]
    exact ⟨hsize, hkern, hex', hold, by rw [hbuf]; exact huser, hstored⟩

theorem exists_newStack (h : Exact d sz)
    (hroom : sz + 2 * PGSIZE < KERNBASE) (hframes : 4 ≤ frames.length) (hbuf : buf.length = 8)
    (ram : Ram) : ∃ d' r ram', Vm.createStack (pushBytes buf ram) d sz frames = .ok d' r ram' ∧
      NewStack d sz frames buf ram d' r ram' := by
  have hpages : 2 * (pages (sz + 2 * PGSIZE) - pages sz) ≤ frames.length := by
    have : pages (sz + 2 * PGSIZE) = pages sz + 2 := by
      simp only [pages, PGSIZE]
      omega
    omega
  obtain ⟨d₁, halloc⟩ := h.allocuvm_ne_zero (Nat.le_add_right _ _) hroom hpages
  generalize hx : Vm.createStack (pushBytes buf ram) d sz frames = x
  have hgood := h.createStack hbuf hx
  cases x with
  | ok d' r ram' => exact ⟨d', r, ram', rfl, hgood⟩
  | noMemory d' =>
    have hne : sz + 2 * PGSIZE ≠ 0 := by simp only [PGSIZE]; omega
    simp only [Vm.createStack, halloc, if_neg hne] at hx
    split at hx
    · cases hx
    · split at hx <;> cases hx
  | unpushed d' r ram' => exact hgood.elim
  | panicked w => exact hgood.elim

theorem loadSegments (h : Exact d sz) (gs : List Segment) :
    ∃ x, Vm.loadSegments gs d sz = some x ∧ ∀ y ∈ x, Exact y.1 y.2 := by
  induction gs generalizing d sz with
  | nil =>
    refine ⟨some (d, sz), rfl, fun y hy => ?_⟩
    cases hy
    exact h
  | cons g gs ih =>
    obtain ⟨d', r, halloc, hcases⟩ := h.allocuvm g.newsz g.frames
    rw [Vm.loadSegments, halloc]
    by_cases hbad : r = 0 ∨ g.loads = false
    · simp [hbad]
    · simp only [if_neg hbad]
      rcases hcases with ⟨rfl, -⟩ | ⟨-, -, hex, -⟩
      · exact absurd (.inl rfl) hbad
      · exact ih hex

/-- What `exec` prepares fits, and preparing it does not panic. -/
theorem buildImage (im : Image) : ∃ x, Vm.buildImage im = some x ∧ ∀ y ∈ x, Exact y.1 y.2 := by
  obtain ⟨x, hload, hx⟩ := empty.loadSegments im.segments
  unfold Vm.buildImage
  rw [hload]
  cases x with
  | none => exact ⟨none, rfl, nofun⟩
  | some y =>
    obtain ⟨d, sz⟩ := y
    obtain ⟨d', r, halloc, hcases⟩ :=
      (hx _ rfl).roundup.allocuvm (pages sz * PGSIZE + 2 * PGSIZE) im.frames
    simp only [halloc]
    rcases hcases with ⟨rfl, -⟩ | ⟨hr, -, hex, -⟩
    · simp
    · obtain ⟨d'', hclear, hex'⟩ := hex.guard (by omega)
      have hne : r ≠ 0 := by simp only [PGSIZE] at hr; omega
      simp only [if_neg hne, hclear]
      cases im.pushes
      · exact ⟨none, rfl, nofun⟩
      · refine ⟨some (d'', r), rfl, fun y hy => ?_⟩
        cases hy
        exact hex'

end Exact

end ThreadKernel
