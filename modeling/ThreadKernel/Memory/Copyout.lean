import ThreadKernel.Memory.Load

/-! `copyout` to any address.

`exec` takes the length of an argument off the stack pointer before it checks anything, so
that `copyout` may be given any address there is: one of the image, the guard page, the
kernel, or one of the hole in the kernel half between physical memory and the devices. Only
the hole is not caught: it has no page tables, and `uva2ka` does not look. -/
namespace ThreadKernel.Memory

open Bytes

/-- The bytes are in their places, in pages of the user, and nothing else has changed; or
`copyout` returned -1 and has changed pages of the user alone. -/
def Placed (d : Pgdir) (va : Nat) (buf : List Byte) (ram : Ram) : Copied Ram → Prop
  | .ok ram' => (∀ i, i < buf.length → load (uphys d) ram' (va + i) = buf[i]?) ∧
      ∀ l, (∀ i, i < buf.length → uphys d (va + i) ≠ some l) → ram' l = ram l
  | .failed ram' => ∀ l, (∀ a, uphys d a ≠ some l) → ram' l = ram l
  | .wild => False

variable {d : Pgdir} {va a b : Nat} {buf : List Byte} {ram : Ram} {l : Page × Nat}

theorem uphys_withKernel (h : uphys (withKernel d) a = some l) :
    a / PGSIZE < UPAGES ∧ l.2 = a % PGSIZE ∧ ∃ x, d.get (a / PGSIZE) = some x ∧ x.pa = l.1 := by
  obtain ⟨hpa, hoff⟩ := uphys_eq_some_iff.mp h
  rw [uva2ka, withKernel_walk] at hpa
  by_cases huser : a / PGSIZE < UPAGES
  · rw [if_pos huser] at hpa
    refine ⟨huser, hoff, ?_⟩
    cases hwalk : d.walk (a / PGSIZE) with
    | none => simp [hwalk] at hpa
    | some y =>
      cases y with
      | none => simp [hwalk] at hpa
      | some x =>
        refine ⟨x, by rw [Sparse.Dir.get, hwalk]; rfl, ?_⟩
        by_cases hx : x.user = true <;> simp [hwalk, hx] at hpa
        exact hpa
  · rw [if_neg huser] at hpa
    by_cases hkern : kernTable (a / PGSIZE / 1024) = true <;> simp [hkern] at hpa

theorem walk_of_uphys (h : (uphys d a).isSome = true) : (d.walk (a / PGSIZE)).isSome = true := by
  obtain ⟨l, hl⟩ := Option.isSome_iff_exists.mp h
  obtain ⟨hpa, -⟩ := uphys_eq_some_iff.mp hl
  rw [uva2ka] at hpa
  cases hwalk : d.walk (a / PGSIZE) with
  | none => simp [hwalk] at hpa
  | some y => rfl

/-- Where no frame is mapped twice, a user finds no place twice. -/
theorem uphys_inj (hone : ∀ v w x y, d.get v = some x → d.get w = some y → x.pa = y.pa → v = w)
    (ha : uphys (withKernel d) a = some l) (hb : uphys (withKernel d) b = some l) :
    a = b := by
  obtain ⟨-, hoff, x, hx, hpa⟩ := uphys_withKernel ha
  obtain ⟨-, hoff', y, hy, hpa'⟩ := uphys_withKernel hb
  have hpage := hone _ _ x y hx hy (hpa.trans hpa'.symm)
  have hmod := hoff.symm.trans hoff'
  simp only [PGSIZE] at hpage hmod
  omega

/-- How far the bytes from `va` on are found. -/
theorem exists_stop (tr : Nat → Option (Page × Nat)) (n : Nat) :
    ∃ k, k ≤ n ∧ (∀ i, i < k → (tr i).isSome = true) ∧ (k < n → tr k = none) := by
  induction n with
  | zero => exact ⟨0, Nat.le_refl 0, nofun, nofun⟩
  | succ n ih =>
    obtain ⟨k, hk, hfound, hstop⟩ := ih
    by_cases hlt : k < n
    · exact ⟨k, by omega, hfound, fun _ => hstop hlt⟩
    · obtain rfl : k = n := by omega
      cases htr : tr k with
      | none => exact ⟨k, by omega, hfound, fun _ => htr⟩
      | some l =>
        refine ⟨k + 1, Nat.le_refl _, fun i hi => ?_, fun h => absurd h (Nat.lt_irrefl _)⟩
        rcases Nat.lt_succ_iff_lt_or_eq.mp hi with hi | rfl
        · exact hfound i hi
        · rw [htr]
          rfl

/-- `copyout` is safe exactly when the page of the first byte that is not in a page of the user
has a page table. -/
theorem copyout_placed_iff (hone : ∀ v w x y, d.get v = some x → d.get w = some y → x.pa = y.pa → v = w)
    (hva : va < 2 ^ 32) (buf : List Byte) (ram : Ram) :
    Placed (withKernel d) va buf ram (copyout (withKernel d) va buf ram) ↔
      ∀ i, i < buf.length → (∀ j, j < i → (uphys (withKernel d) (va + j)).isSome = true) →
        ((withKernel d).walk ((va + i) / PGSIZE)).isSome = true := by
  obtain ⟨k, hk, hfound, hstop⟩ := exists_stop (fun i => uphys (withKernel d) (va + i)) buf.length
  have hbelow : va + k < 2 ^ 32 := by
    by_contra hover
    obtain ⟨l, hl⟩ := Option.isSome_iff_exists.mp (hfound (2 ^ 32 - 1 - va) (by omega))
    have htop := (uphys_withKernel hl).1
    rw [show va + (2 ^ 32 - 1 - va) = 2 ^ 32 - 1 by omega] at htop
    exact absurd htop (by decide)
  obtain ⟨ram', hs, hc⟩ := copyLoop_stop buf.length va buf ram k hfound hstop hk (by omega)
    (Nat.le_refl _)
  have hother : ∀ l, (∀ i, i < k → uphys (withKernel d) (va + i) ≠ some l) → ram' l = ram l :=
    fun l hl => storeAll_other hs fun i hi => hl i (Nat.lt_of_lt_of_le hi (List.length_take_le _ _))
  rw [copyout, hc]
  by_cases hall : k < buf.length
  · rw [if_pos hall]
    constructor
    · intro h i hi hpre
      rcases Nat.lt_trichotomy i k with hik | rfl | hki
      · exact walk_of_uphys (hfound i hik)
      · by_contra hnot
        rw [if_neg hnot] at h
        exact h
      · have hsome := hpre k hki
        rw [hstop hall] at hsome
        cases hsome
    · intro h
      rw [if_pos (h k hall hfound)]
      exact fun l hl => hother l fun i _ => hl _
  · obtain rfl : k = buf.length := by omega
    rw [if_neg hall]
    rw [List.take_length] at hs
    refine ⟨fun _ i hi _ => walk_of_uphys (hfound i hi), fun _ => ⟨fun i hi => ?_, hother⟩⟩
    refine load_storeAll hs (fun i j hi hj heq => ?_) hi
    obtain ⟨l, hl⟩ := Option.isSome_iff_exists.mp (hfound i hi)
    have := uphys_inj hone hl (heq ▸ hl)
    omega

/-- The image of a program of one page: the page, the guard page and the stack. -/
def image : Pgdir where
  table i := i = 0
  entry v := if v < 3 then some ⟨v, v ≠ 1⟩ else none

theorem image_frames (v : Nat) {x : Pte} (h : image.get v = some x) : x.pa = v := by
  by_cases htable : v / 1024 = 0
  · by_cases hv : v < 3 <;> simp [Sparse.Dir.get, Sparse.Dir.walk, image, htable, hv] at h
    rw [← h]
  · simp [Sparse.Dir.get, Sparse.Dir.walk, image, htable] at h

/-- Two bytes on the stack. -/
theorem copyout_placed_two : Placed (withKernel image) 12286 [97, 0] (fun _ => 0)
    (copyout (withKernel image) 12286 [97, 0] fun _ => 0) :=
  (copyout_placed_iff (fun v w _ _ hx hy h => by rw [← image_frames v hx, h, image_frames w hy])
    (by decide) [97, 0] fun _ => 0).mpr (by decide)

/-- A string that starts where there is no page table. -/
theorem pushArgs_wild {s : List Byte} {sp : Nat}
    (h : d.walk (usub sp (s.length + 1) / 4 * 4 / PGSIZE) = none) : pushArgs d [s] sp [] = .wild := by
  have hcopy : ∀ buf ram, buf ≠ [] → copyout d (usub sp (s.length + 1) / 4 * 4) buf ram = .wild := by
    intro buf ram hbuf
    cases buf with
    | nil => exact absurd rfl hbuf
    | cons b bs => simp [copyout, copyLoop, uva2ka, h]
  rw [pushArgs, if_neg (by decide)]
  simp only [push, hcopy _ _ (List.concat_ne_nil 0 s)]

/-- An argument of 40 MiB takes the stack pointer below 0, into the hole of the kernel half. -/
theorem pushArgs_follows_null : ∃ s : List Byte, s.length = 40 * 2 ^ 20 ∧
    pushArgs (withKernel image) [s] (3 * PGSIZE) [] = .wild := by
  obtain ⟨s, hs⟩ : ∃ s : List Byte, s.length = 40 * 2 ^ 20 :=
    ⟨List.replicate _ 97, List.length_replicate⟩
  exact ⟨s, hs, pushArgs_wild (by rw [hs]; decide)⟩

end ThreadKernel.Memory
