import ThreadKernel.Proc.State
import ThreadKernel.Library.Sparse

/-! User memory: the page directory and the functions of `vm.c` on its user half.

A directory is a sparse table of page numbers; its kernel half, the same for every
process, is left out. Sizes are numbers below `2^32`, and `frames` is what `kalloc` is
going to return before it fails: `[]` is a machine without memory. A loop over the
addresses of pages is a loop over their numbers; `a < sz` for the address of page `v` is
`v < pages sz`. -/
namespace ThreadKernel

abbrev PGSIZE : Nat := 4096
abbrev KERNBASE : Nat := 0x80000000

/-- A present page table entry; user pages are all writable. -/
structure Pte where
  pa : Page
  user : Bool
  deriving DecidableEq, Repr

abbrev Pgdir := Sparse.Dir Pte 1024

/-- `PGROUNDUP(sz) / PGSIZE`. -/
def pages (sz : Nat) : Nat := (sz + PGSIZE - 1) / PGSIZE

inductive Mapped where
  | ok (d : Pgdir) (frames : List Page)
  | noMemory
  | remap

/-- `mappages` for one page. -/
def mappages (d : Pgdir) (v : Nat) (x : Pte) (frames : List Page) : Mapped :=
  match d.walk v with
  | some (some _) => .remap
  | some none => .ok (d.put v (some x)) frames
  | none =>
    match frames with
    | [] => .noMemory
    | _ :: rest => .ok ((d.grow v).put v (some x)) rest

inductive Grown where
  | ok (d : Pgdir)
  | noMemory (d : Pgdir)
  | remap

/-- The loop of `allocuvm`: `n` pages from page `v` on. -/
def allocPages : Nat → Nat → Pgdir → List Page → Grown
  | 0, _, d, _ => .ok d
  | _ + 1, _, d, [] => .noMemory d
  | n + 1, v, d, pa :: frames =>
    match mappages d v ⟨pa, true⟩ frames with
    | .ok d' frames' => allocPages n (v + 1) d' frames'
    | .noMemory => .noMemory d
    | .remap => .remap

/-- How often the loop of `allocuvm` calls `kalloc` when it does not run out of memory: once
for each page, and once for each table that is not there. -/
def asks : Nat → Nat → Pgdir → Nat
  | 0, _, _ => 0
  | n + 1, v, d =>
    match d.walk v with
    | some (some _) => 1
    | some none => 1 + asks n (v + 1) d
    | none => 2 + asks n (v + 1) (d.grow v)

/-- `deallocuvm`, with the size it returns. -/
def deallocuvm (d : Pgdir) (oldsz newsz : Nat) : Pgdir × Nat :=
  if oldsz ≤ newsz then (d, oldsz)
  else (Sparse.Dir.clear (pages oldsz - pages newsz) (pages newsz) (pages oldsz) d, newsz)

/-- `allocuvm`, with the size it returns; 0 is a failure. `none` is the `remap` panic. -/
@[irreducible] def allocuvm (d : Pgdir) (oldsz newsz : Nat) (frames : List Page) : Option (Pgdir × Nat) :=
  if KERNBASE ≤ newsz then some (d, 0)
  else if newsz < oldsz then some (d, oldsz)
  else
    match allocPages (pages newsz - pages oldsz) (pages oldsz) d frames with
    | .ok d' => some (d', newsz)
    | .noMemory d' => some ((deallocuvm d' newsz oldsz).1, 0)
    | .remap => none

/-- `clearpteu` on page `v`; `none` is its panic. -/
def clearpteu (d : Pgdir) (v : Nat) : Option Pgdir :=
  match d.walk v with
  | none => none
  | some x => some (d.put v (x.map fun y => {y with user := false}))

/-- The pages of a process of size `sz`, and no others, are present. -/
def Exact (d : Pgdir) (sz : Nat) : Prop :=
  ∀ v, (d.get v).isSome = true ↔ v < pages sz

/-! ### What they do to the directory -/

theorem pages_mono {a b : Nat} (h : a ≤ b) : pages a ≤ pages b :=
  Nat.div_le_div_right (by omega)

variable {d d' : Pgdir} {v w n sz oldsz newsz : Nat} {x : Pte} {frames frames' : List Page}

theorem mappages_ne_remap (h : d.get v = none) : mappages d v x frames ≠ .remap := by
  unfold mappages
  split
  · rename_i y hwalk
    rw [Sparse.Dir.get, hwalk] at h
    cases h
  · simp
  · split <;> simp

theorem get_mappages (h : mappages d v x frames = .ok d' frames') :
    d'.get w = if w = v then some x else d.get w := by
  unfold mappages at h
  split at h
  · cases h
  · rename_i hwalk
    cases h
    exact d.get_put v w (some x) (by rw [← Sparse.Dir.walk_isSome, hwalk]; rfl)
  · rename_i hwalk
    split at h
    · cases h
    · cases h
      have htable : d.table (v / 1024) = false := by rw [← Sparse.Dir.walk_isSome, hwalk]; rfl
      rw [Sparse.Dir.get_put _ v w (some x) (d.grow_table v), d.get_grow v w htable]

theorem mappages_frames (h : mappages d v x frames = .ok d' frames') :
    frames' ⊆ frames ∧ frames.length ≤ frames'.length + 1 := by
  unfold mappages at h
  split at h
  · cases h
  · cases h
    exact ⟨List.Subset.refl _, Nat.le_succ _⟩
  · split at h
    · cases h
    · cases h
      exact ⟨List.subset_cons_self _ _, Nat.le_refl _⟩

/-- What the loop leaves outside the pages it was to map, and inside if it succeeds. -/
theorem allocPages_spec (frames : List Page) (hnone : ∀ w, v ≤ w → w < v + n → d.get w = none) :
    (allocPages n v d frames ≠ .remap) ∧
    (∀ d', allocPages n v d frames = .noMemory d' →
      ∀ w, ¬ (v ≤ w ∧ w < v + n) → d'.get w = d.get w) ∧
    (∀ d', allocPages n v d frames = .ok d' →
      (∀ w, ¬ (v ≤ w ∧ w < v + n) → d'.get w = d.get w) ∧
      ∀ w, v ≤ w → w < v + n → ∃ pa ∈ frames, d'.get w = some ⟨pa, true⟩) := by
  induction n generalizing v d frames with
  | zero =>
    refine ⟨nofun, nofun, fun d' h => ?_⟩
    cases h
    exact ⟨fun _ _ => rfl, fun w hv hw => absurd hw (by omega)⟩
  | succ n ih =>
    cases frames with
    | nil =>
      refine ⟨nofun, fun d' h => ?_, nofun⟩
      cases h
      exact fun _ _ => rfl
    | cons pa frames =>
      rw [allocPages]
      have hv := hnone v le_rfl (by omega)
      cases hmap : mappages d v ⟨pa, true⟩ frames with
      | remap => exact absurd hmap (mappages_ne_remap hv)
      | noMemory =>
        refine ⟨nofun, fun d' h => ?_, nofun⟩
        cases h
        exact fun _ _ => rfl
      | ok d₁ frames₁ =>
        have hget : ∀ w, d₁.get w = if w = v then some ⟨pa, true⟩ else d.get w :=
          fun w => get_mappages hmap
        have hnone₁ : ∀ w, v + 1 ≤ w → w < v + 1 + n → d₁.get w = none := fun w h h' => by
          rw [hget, if_neg (by omega)]
          exact hnone w (by omega) (by omega)
        obtain ⟨hremap, hfail, hok⟩ := ih frames₁ hnone₁
        refine ⟨hremap, fun d' h w hw => ?_, fun d' h => ⟨fun w hw => ?_, fun w h₁ h₂ => ?_⟩⟩
        · rw [hfail d' h w (by omega), hget, if_neg (by omega)]
        · rw [(hok d' h).1 w (by omega), hget, if_neg (by omega)]
        · by_cases hwv : w = v
          · rw [(hok d' h).1 w (by omega), hget, if_pos hwv]
            exact ⟨pa, List.mem_cons_self, rfl⟩
          · obtain ⟨pa', hmem, hpa'⟩ := (hok d' h).2 w (by omega) (by omega)
            exact ⟨pa', List.mem_cons_of_mem _ ((mappages_frames hmap).1 hmem), hpa'⟩

theorem get_of_allocPages (frames : List Page) (h : allocPages n v d frames = .ok d') :
    ∀ w, v ≤ w → w < v + n → d.get w = none := by
  induction n generalizing v d frames with
  | zero =>
    intro w h₁ h₂
    omega
  | succ n ih =>
    cases frames with
    | nil => cases h
    | cons pa frames =>
      rw [allocPages] at h
      cases hmap : mappages d v ⟨pa, true⟩ frames with
      | remap | noMemory =>
        rw [hmap] at h
        cases h
      | ok d₁ frames₁ =>
        rw [hmap] at h
        intro w h₁ h₂
        by_cases hw : w = v
        · rw [hw, Sparse.Dir.get]
          unfold mappages at hmap
          split at hmap
          · cases hmap
          · rename_i hwalk
            rw [hwalk]
            rfl
          · rename_i hwalk
            rw [hwalk]
            rfl
        · have hrest := ih frames₁ h w (by omega) (by omega)
          rwa [get_mappages hmap, if_neg hw] at hrest

theorem exists_allocPages (frames : List Page) (hnone : ∀ w, v ≤ w → w < v + n → d.get w = none)
    (hlen : 2 * n ≤ frames.length) : ∃ d', allocPages n v d frames = .ok d' := by
  induction n generalizing v d frames with
  | zero => exact ⟨d, rfl⟩
  | succ n ih =>
    obtain ⟨pa, f, frames, rfl⟩ : ∃ pa f frames', frames = pa :: f :: frames' := by
      match frames, hlen with
      | pa :: f :: frames', _ => exact ⟨pa, f, frames', rfl⟩
    rw [allocPages]
    cases hmap : mappages d v ⟨pa, true⟩ (f :: frames) with
    | remap => exact absurd hmap (mappages_ne_remap (hnone v le_rfl (by omega)))
    | noMemory =>
      unfold mappages at hmap
      split at hmap <;> cases hmap
    | ok d₁ frames₁ =>
      have hlen₁ := (mappages_frames hmap).2
      simp only [List.length_cons] at hlen hlen₁
      apply ih
      · intro w h₁ h₂
        rw [get_mappages hmap, if_neg (by omega)]
        exact hnone w (by omega) (by omega)
      · omega

/-- What the loop asks for depends on the pages ahead only. -/
theorem asks_congr (h : ∀ w, v ≤ w → d'.walk w = d.walk w) :
    asks n v d' = asks n v d := by
  induction n generalizing v d d' with
  | zero => rfl
  | succ n ih =>
    unfold asks
    rw [h v le_rfl]
    cases d.walk v with
    | none =>
      refine congrArg (2 + ·) (ih fun w hw => ?_)
      rw [Sparse.Dir.walk_grow, Sparse.Dir.walk_grow, h w (by omega)]
    | some y =>
      cases y with
      | some _ => rfl
      | none => exact congrArg (1 + ·) (ih fun w hw => h w (by omega))

theorem asks_put (n : Nat) (d : Pgdir) (v : Nat) (x : Option Pte) :
    asks n (v + 1) (d.put v x) = asks n (v + 1) d :=
  asks_congr fun w hw => d.walk_put v w x (by omega)

/-- The loop runs out of memory exactly when it asks for more than there is. -/
theorem allocPages_noMemory_iff (frames : List Page) :
    (∃ d', allocPages n v d frames = .noMemory d') ↔ frames.length < asks n v d := by
  induction n generalizing v d frames with
  | zero => simp [allocPages, asks]
  | succ n ih =>
    cases frames with
    | nil =>
      have hpos : 0 < asks (n + 1) v d := by
        unfold asks
        split <;> omega
      simpa [allocPages] using hpos
    | cons pa frames =>
      unfold allocPages mappages asks
      cases d.walk v with
      | none =>
        cases frames with
        | nil => simp; omega
        | cons f rest =>
          simp only [List.length_cons]
          rw [ih, asks_put]
          omega
      | some y =>
        cases y with
        | some _ => simp
        | none =>
          simp only [List.length_cons]
          rw [ih, asks_put]
          omega

theorem get_deallocuvm (h : newsz < oldsz) :
    ((deallocuvm d oldsz newsz).1).get w =
      if pages newsz ≤ w ∧ w < pages oldsz then none else d.get w := by
  rw [deallocuvm, if_neg (by omega)]
  exact Sparse.Dir.get_clear (by decide) _ _ _ (by omega) d w

theorem Exact.deallocuvm (h : Exact d oldsz) (hlt : newsz < oldsz) :
    Exact (ThreadKernel.deallocuvm d oldsz newsz).1 newsz := by
  intro w
  have hmono := pages_mono hlt.le
  rw [get_deallocuvm hlt]
  split
  · rename_i hw
    simp only [Option.isSome_none, Bool.false_eq_true, false_iff]
    omega
  · rw [h w]
    omega

/-- `allocuvm` grows the directory with the size, or leaves it as it was. -/
theorem Exact.allocuvm (h : Exact d oldsz) (newsz : Nat) (frames : List Page) :
    ∃ d' r, ThreadKernel.allocuvm d oldsz newsz frames = some (d', r) ∧
      ((r = 0 ∧ Exact d' oldsz) ∨
        (r = max oldsz newsz ∧ newsz < KERNBASE ∧ Exact d' r ∧
          (∀ w, w < pages oldsz → d'.get w = d.get w) ∧
          ∀ w, pages oldsz ≤ w → w < pages r → ∃ pa ∈ frames, d'.get w = some ⟨pa, true⟩)) := by
  unfold ThreadKernel.allocuvm
  split
  · exact ⟨d, 0, rfl, .inl ⟨rfl, h⟩⟩
  · rename_i hkern
    split
    · rename_i hlt
      exact ⟨d, oldsz, rfl, .inr ⟨by omega, by omega, h, fun _ _ => rfl, fun w h₁ h₂ => by omega⟩⟩
    · rename_i hge
      have hmono := pages_mono (Nat.le_of_not_lt hge)
      have hnone : ∀ w, pages oldsz ≤ w → w < pages oldsz + (pages newsz - pages oldsz) →
          d.get w = none := fun w hw _ => by
        have := (h w).not.mpr (by omega)
        simpa using this
      obtain ⟨hremap, hfail, hok⟩ := allocPages_spec frames hnone
      cases halloc : allocPages (pages newsz - pages oldsz) (pages oldsz) d frames with
      | remap => exact absurd halloc hremap
      | noMemory d' =>
        -- what was mapped is given back
        refine ⟨_, 0, rfl, .inl ⟨rfl, fun w => ?_⟩⟩
        have hout := hfail d' halloc w
        by_cases heq : oldsz = newsz
        · subst heq
          rw [ThreadKernel.deallocuvm, if_pos le_rfl, hout (by omega)]
          exact h w
        · rw [get_deallocuvm (by omega)]
          split
          · rename_i hw
            simp only [Option.isSome_none, Bool.false_eq_true, false_iff]
            omega
          · rw [hout (by omega)]
            exact h w
      | ok d' =>
        obtain ⟨hout, hin⟩ := hok d' halloc
        refine ⟨d', newsz, rfl, .inr ⟨by omega, by omega, fun w => ?_, fun w hw => hout w (by omega),
          fun w h₁ h₂ => hin w h₁ (by omega)⟩⟩
        by_cases hw : pages oldsz ≤ w ∧ w < pages newsz
        · obtain ⟨pa, -, hpa⟩ := hin w hw.1 (by omega)
          simp only [hpa, Option.isSome_some, true_iff]
          exact hw.2
        · rw [hout w (by omega), h w]
          omega

/-- The pages that `allocuvm` adds are for the user, whatever the directory was before. -/
theorem get_of_allocuvm {r : Nat} (hle : oldsz ≤ newsz)
    (h : allocuvm d oldsz newsz frames = some (d', r)) (hr : r ≠ 0) : r = newsz ∧ newsz < KERNBASE ∧
      ∀ w, pages oldsz ≤ w → w < pages newsz → ∃ pa, d'.get w = some ⟨pa, true⟩ := by
  unfold allocuvm at h
  split at h
  · cases h
    exact absurd rfl hr
  · rename_i hkern
    rw [if_neg (by omega)] at h
    split at h
    · rename_i d₁ halloc
      cases h
      have hnew := ((allocPages_spec frames (get_of_allocPages frames halloc)).2.2 _ halloc).2
      refine ⟨rfl, by omega, fun w h₁ h₂ => ?_⟩
      obtain ⟨pa, -, hpa⟩ := hnew w h₁ (by omega)
      exact ⟨pa, hpa⟩
    · cases h
      exact absurd rfl hr
    · cases h

theorem Exact.allocuvm_ne_zero (h : Exact d oldsz) (hle : oldsz ≤ newsz) (hkern : newsz < KERNBASE)
    (hframes : 2 * (pages newsz - pages oldsz) ≤ frames.length) :
    ∃ d', ThreadKernel.allocuvm d oldsz newsz frames = some (d', newsz) := by
  have hnone : ∀ w, pages oldsz ≤ w → w < pages oldsz + (pages newsz - pages oldsz) →
      d.get w = none := fun w hw _ => by
    have := (h w).not.mpr (by omega)
    simpa using this
  obtain ⟨d', hok⟩ := exists_allocPages frames hnone hframes
  refine ⟨d', ?_⟩
  rw [ThreadKernel.allocuvm, if_neg (by omega), if_neg (by omega), hok]

theorem get_clearpteu (h : clearpteu d v = some d') :
    d'.get w = if w = v then (d.get v).map fun y => {y with user := false} else d.get w := by
  unfold clearpteu at h
  cases hwalk : d.walk v with
  | none =>
    rw [hwalk] at h
    cases h
  | some x =>
    rw [hwalk] at h
    cases h
    rw [d.get_put v w _ (by rw [← Sparse.Dir.walk_isSome, hwalk]; rfl), Sparse.Dir.get, Sparse.Dir.get,
      hwalk]
    rfl

theorem Exact.clearpteu (h : Exact d sz) (hc : ThreadKernel.clearpteu d v = some d') :
    Exact d' sz := by
  intro w
  rw [get_clearpteu hc]
  split
  · rename_i hw
    rw [Option.isSome_map, hw]
    exact h v
  · exact h w

theorem clearpteu_isSome (h : (d.get v).isSome = true) : ∃ d', clearpteu d v = some d' := by
  unfold clearpteu
  cases hwalk : d.walk v with
  | none =>
    rw [Sparse.Dir.get, hwalk] at h
    cases h
  | some x => exact ⟨_, rfl⟩

end ThreadKernel
