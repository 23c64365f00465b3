import ThreadKernel.Library.Bytes

/-! `memmove`, in the kernel and in the user library.

Memory is a byte for every address, and pointers wrap as the code's do. `string.c` starts
at the top when the source begins below the destination and reaches into it; `ulib.c`
starts at the bottom always, and counts in an `int`. -/
namespace ThreadKernel.Move

open Bytes Function

abbrev Pointer := BitVec 32
abbrev Mem := Pointer → Byte

/-- `while(n-- > 0) *d++ = *s++;` -/
def copyUp : Nat → Pointer → Pointer → Mem → Mem
  | 0, _, _, m => m
  | n + 1, d, s, m => copyUp n (d + 1) (s + 1) (update m d (m s))

/-- `while(n-- > 0) *--d = *--s;` -/
def copyDown : Nat → Pointer → Pointer → Mem → Mem
  | 0, _, _, m => m
  | n + 1, d, s, m => copyDown n (d - 1) (s - 1) (update m (d - 1) (m (s - 1)))

/-- `memmove` of `string.c`. -/
def memmove (dst src n : BitVec 32) (m : Mem) : Mem :=
  if src < dst ∧ dst < src + n then copyDown n.toNat (dst + n) (src + n) m
  else copyUp n.toNat dst src m

/-- `memmove` of `ulib.c`. -/
def userMemmove (dst src n : BitVec 32) (m : Mem) : Mem := copyUp n.toInt.toNat dst src m

/-- `m'` has at `dst` the `n` bytes that `m` has at `src`, and is `m` elsewhere. -/
def Moved (n : Nat) (dst src : Pointer) (m m' : Mem) : Prop :=
  ∀ a, m' a = if (a - dst).toNat < n then m (src + (a - dst)) else m a

variable {n : Nat} {d s : Pointer} {m : Mem}

theorem copyUp_other (hn : n ≤ 2 ^ 32) {a : Pointer} (h : n ≤ (a - d).toNat) :
    copyUp n d s m a = m a := by
  induction n generalizing d s m with
  | zero => rfl
  | succ n ih =>
    rw [copyUp, ih (by omega) (by bv_omega)]
    exact update_of_ne (by bv_omega) _ _

/-- Copying upwards from below, the destination follows the source as it then is. -/
theorem copyUp_follows (hn : n ≤ (s - d).toNat) {i : Nat} (hi : i < n) :
    copyUp n d s m (d + .ofNat 32 i) = copyUp n d s m (s + .ofNat 32 i) := by
  induction n generalizing d s m i with
  | zero => exact absurd hi (Nat.not_lt_zero _)
  | succ n ih =>
    have hdiff : s + 1 - (d + 1) = s - d := by bv_omega
    cases i with
    | zero =>
      rw [BitVec.add_zero, BitVec.add_zero, copyUp, copyUp_other (by omega) (by bv_omega),
        copyUp_other (by omega) (by bv_omega), update_self, update_of_ne (by bv_omega)]
    | succ i =>
      have := ih (m := update m d (m s)) (by rw [hdiff]; omega) (Nat.lt_of_succ_lt_succ hi)
      rwa [show d + 1 + .ofNat 32 i = d + .ofNat 32 (i + 1) by bv_omega,
        show s + 1 + .ofNat 32 i = s + .ofNat 32 (i + 1) by bv_omega] at this

/-- Copying upwards is right when a byte that is overwritten before it is read is
overwritten with itself. -/
theorem copyUp_moved (hn : n ≤ 2 ^ 32)
    (h : ∀ i, (d - s).toNat + i < n → m (d + .ofNat 32 i) = m (s + .ofNat 32 i)) :
    Moved n d s m (copyUp n d s m) := by
  induction n generalizing d s m with
  | zero => exact fun a => (if_neg (Nat.not_lt_zero _)).symm
  | succ n ih =>
    have hdiff : d + 1 - (s + 1) = d - s := by bv_omega
    have hkeeps : (d - s).toNat < n + 1 → update m d (m s) = m := fun hlt => by
      have := h 0 hlt
      rw [BitVec.add_zero, BitVec.add_zero] at this
      rw [← this, update_eq_self]
    intro a
    rw [copyUp, ih (by omega) (fun i hi => ?_) a,
      show s + 1 + (a - (d + 1)) = s + (a - d) by bv_omega]
    · by_cases ha : a = d
      · subst ha
        rw [if_neg (by bv_omega), if_pos (by bv_omega), update_self, BitVec.sub_self, BitVec.add_zero]
      · rw [update_of_ne ha, if_congr (show _ ↔ (a - d).toNat < n + 1 by bv_omega) rfl rfl]
        split
        · by_cases hlt : (d - s).toNat < n + 1
          · rw [hkeeps hlt]
          · exact update_of_ne (by bv_omega) _ _
        · rfl
    · rw [hdiff] at hi
      have := h (i + 1) (by omega)
      rwa [hkeeps (by omega), show d + 1 + .ofNat 32 i = d + .ofNat 32 (i + 1) by bv_omega,
        show s + 1 + .ofNat 32 i = s + .ofNat 32 (i + 1) by bv_omega]

/-- Copying downwards is right when the source does not begin within the destination. -/
theorem copyDown_moved (hn : n ≤ 2 ^ 32) (h : n ≤ (s - d).toNat) :
    Moved n d s m (copyDown n (d + .ofNat 32 n) (s + .ofNat 32 n) m) := by
  induction n generalizing m with
  | zero => exact fun a => (if_neg (Nat.not_lt_zero _)).symm
  | succ n ih =>
    have hlast : ∀ x : Pointer, x + .ofNat 32 (n + 1) - 1 = x + .ofNat 32 n := by bv_omega
    intro a
    rw [copyDown, hlast, hlast, ih (by omega) (by omega) a]
    by_cases ha : a = d + .ofNat 32 n
    · subst ha
      rw [if_neg (by bv_omega), if_pos (by bv_omega), update_self,
        show d + .ofNat 32 n - d = .ofNat 32 n by bv_omega]
    · rw [update_of_ne ha, if_congr (show _ ↔ (a - d).toNat < n + 1 by bv_omega) rfl rfl]
      split
      · exact update_of_ne (by bv_omega) _ _
      · rfl

section

variable {dst src n : BitVec 32} (hdst : dst.toNat + n.toNat ≤ 2 ^ 32)
  (hsrc : src.toNat + n.toNat ≤ 2 ^ 32)
include hdst hsrc

theorem memmove_moved : Moved n.toNat dst src m (memmove dst src n m) := by
  have hn : n.toNat ≤ 2 ^ 32 := by omega
  unfold memmove
  split
  · have := copyDown_moved (m := m) (d := dst) (s := src) hn (by bv_omega)
    rwa [BitVec.ofNat_toNat, BitVec.setWidth_eq] at this
  · refine copyUp_moved hn fun i hi => ?_
    obtain rfl : dst = src := by bv_omega
    rfl

/-- Both copies are right exactly when every byte of the source that the user's loop
overwrites before it gets there is overwritten with itself; a negative count, which copies
nothing, when the bytes were there already. -/
theorem memmove_both_iff :
    (Moved n.toNat dst src m (memmove dst src n m) ∧
      Moved n.toNat dst src m (userMemmove dst src n m)) ↔
      ∀ i, (if n.toInt < 0 then i < n.toNat else src < dst ∧ dst.toNat + i < src.toNat + n.toNat) →
        m (dst + .ofNat 32 i) = m (src + .ofNat 32 i) := by
  have hn : n.toNat ≤ 2 ^ 32 := by omega
  have hat : ∀ {m'}, Moved n.toNat dst src m m' → ∀ i, i < n.toNat →
      m' (dst + .ofNat 32 i) = m (src + .ofNat 32 i) := fun h i hi => by
    rw [h, show dst + .ofNat 32 i - dst = .ofNat 32 i by bv_omega, if_pos (by bv_omega)]
  refine (and_iff_right (memmove_moved hdst hsrc)).trans ?_
  unfold userMemmove
  by_cases hneg : n.toInt < 0
  · rw [Int.toNat_of_nonpos (Int.le_of_lt hneg)]
    simp only [hneg, if_true, copyUp]
    refine ⟨hat, fun h a => ?_⟩
    split
    · rename_i ha
      have := h _ ha
      rwa [BitVec.ofNat_toNat, BitVec.setWidth_eq, show dst + (a - dst) = a by bv_omega] at this
    · rfl
  · have hcount : n.toInt.toNat = n.toNat := by
      rw [BitVec.toInt_eq_toNat_cond] at hneg ⊢
      omega
    simp only [hneg, if_false, hcount]
    refine ⟨fun h i ⟨hlt, hi⟩ => ?_, fun h => copyUp_moved hn fun i hi => ?_⟩
    · -- the byte at `dst + i` is read after it has been written
      have hj : (dst - src).toNat + i < n.toNat := by bv_omega
      have hread := copyUp_follows (m := m) (d := dst) (s := src) (by bv_omega) hj
      rwa [hat h _ hj, show src + .ofNat 32 ((dst - src).toNat + i) = dst + .ofNat 32 i by bv_omega,
        hat h i (by omega)] at hread
    · rcases eq_or_ne dst src with rfl | hne
      · rfl
      · exact h i (by bv_omega)

end

/-- An overlap from above. -/
theorem memmove_both_down : Moved 8 100 104 (BitVec.setWidth 8) (memmove 100 104 8 (BitVec.setWidth 8)) ∧
    Moved 8 100 104 (BitVec.setWidth 8) (userMemmove 100 104 8 (BitVec.setWidth 8)) :=
  (memmove_both_iff (n := 8) (by decide) (by decide)).mpr fun i h => absurd h (by simp)

/-- An overlap from below: the user's copy repeats the first byte. -/
theorem userMemmove_repeats : ∃ (dst src n : BitVec 32) (m : Mem),
    dst.toNat + n.toNat ≤ 2 ^ 32 ∧ src.toNat + n.toNat ≤ 2 ^ 32 ∧
      Moved n.toNat dst src m (memmove dst src n m) ∧
      ¬ Moved n.toNat dst src m (userMemmove dst src n m) :=
  ⟨1, 0, 2, BitVec.setWidth 8, by decide, by decide, memmove_moved (by decide) (by decide),
    fun h => absurd (h 2) (by decide)⟩

end ThreadKernel.Move
