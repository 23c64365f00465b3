import Mathlib

/-! Bytes and words behind an address translation.

A memory is a byte for every physical location; `tr` says which location an address
stands for, if any. An access through it fails where the address stands for none. Words
are four bytes, the low one first. -/
namespace Bytes

open Function

abbrev Byte := BitVec 8

variable {L : Type} [DecidableEq L]

def load (tr : Nat → Option L) (ram : L → Byte) (va : Nat) : Option Byte :=
  (tr va).map ram

/-- A list of bytes from `va` on. -/
def storeAll (tr : Nat → Option L) : Nat → List Byte → (L → Byte) → Option (L → Byte)
  | _, [], ram => some ram
  | va, b :: bs, ram =>
    match tr va with
    | some l => storeAll tr (va + 1) bs (update ram l b)
    | none => none

def ofWord (w : BitVec 32) : List Byte :=
  [w.extractLsb' 0 8, w.extractLsb' 8 8, w.extractLsb' 16 8, w.extractLsb' 24 8]

def toWord (b₀ b₁ b₂ b₃ : Byte) : BitVec 32 := b₃ ++ b₂ ++ b₁ ++ b₀

def loadWord (tr : Nat → Option L) (ram : L → Byte) (va : Nat) : Option (BitVec 32) := do
  let b₀ ← load tr ram va
  let b₁ ← load tr ram (va + 1)
  let b₂ ← load tr ram (va + 2)
  let b₃ ← load tr ram (va + 3)
  return toWord b₀ b₁ b₂ b₃

def storeWord (tr : Nat → Option L) (va : Nat) (w : BitVec 32) (ram : L → Byte) : Option (L → Byte) :=
  storeAll tr va (ofWord w) ram

variable {tr : Nat → Option L} {ram ram' : L → Byte} {va : Nat} {bs bs' : List Byte} {w : BitVec 32}

theorem storeAll_append :
    storeAll tr va (bs ++ bs') ram =
      (storeAll tr va bs ram).bind (storeAll tr (va + bs.length) bs') := by
  induction bs generalizing va ram with
  | nil => rfl
  | cons b bs ih =>
    simp only [List.cons_append, storeAll]
    cases tr va with
    | none => rfl
    | some l =>
      simp only [ih, List.length_cons]
      rw [show va + 1 + bs.length = va + (bs.length + 1) by omega]

theorem exists_storeAll (bs : List Byte) (h : ∀ i, i < bs.length → (tr (va + i)).isSome = true)
    (ram : L → Byte) :
    ∃ ram', storeAll tr va bs ram = some ram' := by
  induction bs generalizing va ram with
  | nil => exact ⟨ram, rfl⟩
  | cons b bs ih =>
    obtain ⟨l, hl⟩ := Option.isSome_iff_exists.mp (h 0 (Nat.succ_pos _))
    simp only [Nat.add_zero] at hl
    simp only [storeAll, hl]
    apply ih
    intro i hi
    have := h (i + 1) (Nat.succ_lt_succ hi)
    rwa [show va + (i + 1) = va + 1 + i by omega] at this

theorem storeAll_other {l : L} (hs : storeAll tr va bs ram = some ram')
    (hl : ∀ i, i < bs.length → tr (va + i) ≠ some l) : ram' l = ram l := by
  induction bs generalizing va ram with
  | nil =>
    cases hs
    rfl
  | cons b bs ih =>
    simp only [storeAll] at hs
    have hne := hl 0 (Nat.succ_pos _)
    cases htr : tr va with
    | none => simp [htr] at hs
    | some l₀ =>
      simp only [htr] at hs
      rw [Nat.add_zero, htr] at hne
      have hrest : ∀ i, i < bs.length → tr (va + 1 + i) ≠ some l := fun i hi => by
        have := hl (i + 1) (Nat.succ_lt_succ hi)
        rwa [show va + (i + 1) = va + 1 + i by omega] at this
      rw [ih hs hrest]
      exact update_of_ne (fun heq => hne (by rw [heq])) _ _

/-- What has been stored is read back, where no two addresses stand for one location. -/
theorem load_storeAll (hs : storeAll tr va bs ram = some ram')
    (hinj : ∀ i j, i < bs.length → j < bs.length → tr (va + i) = tr (va + j) → i = j) {i : Nat}
    (hi : i < bs.length) : load tr ram' (va + i) = bs[i]? := by
  induction bs generalizing va ram i with
  | nil => exact absurd hi (Nat.not_lt_zero _)
  | cons b bs ih =>
    simp only [storeAll] at hs
    cases htr : tr va with
    | none => simp [htr] at hs
    | some l =>
      simp only [htr] at hs
      cases i with
      | zero =>
        -- later stores go elsewhere
        have hother : ∀ j, j < bs.length → tr (va + 1 + j) ≠ some l := fun j hj heq => by
          have hsame : tr (va + (j + 1)) = tr (va + 0) := by
            rw [show va + (j + 1) = va + 1 + j by omega, heq]
            exact htr.symm
          exact absurd (hinj (j + 1) 0 (Nat.succ_lt_succ hj) (Nat.succ_pos _) hsame) (by omega)
        simp [load, htr, storeAll_other hs hother]
      | succ i =>
        have hinj' : ∀ j k, j < bs.length → k < bs.length → tr (va + 1 + j) = tr (va + 1 + k) →
            j = k := fun j k hj hk heq => by
          have := hinj (j + 1) (k + 1) (Nat.succ_lt_succ hj) (Nat.succ_lt_succ hk)
            (by rw [show va + (j + 1) = va + 1 + j by omega, show va + (k + 1) = va + 1 + k by omega]
                exact heq)
          omega
        have := ih hs hinj' (Nat.lt_of_succ_lt_succ hi)
        rw [show va + (i + 1) = va + 1 + i by omega, this]
        rfl

/-! ### Words -/

theorem toWord_ofWord (w : BitVec 32) : toWord (w.extractLsb' 0 8) (w.extractLsb' 8 8)
    (w.extractLsb' 16 8) (w.extractLsb' 24 8) = w := by
  apply BitVec.eq_of_getLsbD_eq
  intro i hi
  simp only [toWord, BitVec.getLsbD_append, BitVec.getLsbD_extractLsb']
  by_cases h₀ : i < 8
  · simp [h₀]
  · by_cases h₁ : i < 16
    · simp [h₀, show i - 8 < 8 by omega, show 8 + (i - 8) = i by omega]
    · by_cases h₂ : i < 24
      · simp [h₀, show ¬ i - 8 < 8 by omega, show i - 8 - 8 < 8 by omega,
          show 16 + (i - 8 - 8) = i by omega]
      · simp [h₀, show ¬ i - 8 < 8 by omega, show ¬ i - 8 - 8 < 8 by omega,
          show i - 8 - 8 - 8 < 8 by omega, show 24 + (i - 8 - 8 - 8) = i by omega]

omit [DecidableEq L] in
theorem loadWord_of_bytes (h : ∀ i, i < 4 → load tr ram (va + i) = (ofWord w)[i]?) :
    loadWord tr ram va = some w := by
  have h₀ : load tr ram va = some (w.extractLsb' 0 8) := h 0 (by decide)
  have h₁ : load tr ram (va + 1) = some (w.extractLsb' 8 8) := h 1 (by decide)
  have h₂ : load tr ram (va + 2) = some (w.extractLsb' 16 8) := h 2 (by decide)
  have h₃ : load tr ram (va + 3) = some (w.extractLsb' 24 8) := h 3 (by decide)
  simp [loadWord, h₀, h₁, h₂, h₃, toWord_ofWord]

end Bytes
