import Mathlib

/-! A window on a stream, in a buffer that is written round and round.

The `i`-th element of the stream goes to place `i % N`. The counters are 32 bits wide and
wrap; as `N` divides `2 ^ 32`, they lead to the right place all the same, and as long as two
of them are less than `2 ^ 32` apart, their difference is the true one. -/
namespace Window

open Function

variable {α : Type} {N : Nat} [NeZero N] {data : Fin N → α} {i j : Nat} {l l' : List α} {b : α}

/-- A counter that has got to `i`. -/
abbrev counter (i : Nat) : UInt32 := UInt32.ofNat i

/-- The place that a counter leads to. -/
def place (N : Nat) [NeZero N] (c : UInt32) : Fin N := Fin.ofNat N c.toNat

theorem place_counter (hN : N ∣ 2 ^ 32) (i : Nat) : place N (counter i) = Fin.ofNat N i := by
  apply Fin.ext
  show (UInt32.ofNat i).toNat % N = i % N
  exact Nat.mod_mod_of_dvd i hN

theorem counter_add (i n : Nat) : counter i + counter n = counter (i + n) :=
  (UInt32.ofNat_add i n).symm

theorem counter_sub (h : j ≤ i) : counter i - counter j = counter (i - j) := by
  have hadd : counter (i - j) + counter j = counter i := by
    rw [counter_add, Nat.sub_add_cancel h]
  rw [← hadd]
  exact UInt32.add_sub_cancel ..

theorem toNat_counter (h : i < 2 ^ 32) : (counter i).toNat = i := by
  exact Nat.mod_eq_of_lt h

theorem counter_inj (h : j ≤ i) (hlt : i - j < 2 ^ 32) : counter i = counter j ↔ i = j := by
  constructor
  · intro heq
    have hsub := counter_sub h
    rw [heq] at hsub
    have hzero := congrArg UInt32.toNat hsub
    rw [toNat_counter hlt] at hzero
    simp only [UInt32.sub_self] at hzero
    have : (0 : UInt32).toNat = 0 := rfl
    omega
  · intro heq
    rw [heq]

/-! ### What is in the buffer -/

/-- From the `i`-th element on, the buffer has `l`. -/
def Holds (data : Fin N → α) (i : Nat) (l : List α) : Prop :=
  ∀ k b, l[k]? = some b → data (Fin.ofNat N (i + k)) = b

theorem holds_nil : Holds data i ([] : List α) := nofun

theorem holds_cons : Holds data i (b :: l) ↔ data (Fin.ofNat N i) = b ∧ Holds data (i + 1) l := by
  constructor
  · intro h
    refine ⟨h 0 b rfl, fun k c hk => ?_⟩
    rw [Nat.add_assoc, Nat.add_comm 1 k]
    exact h (k + 1) c hk
  · intro ⟨hb, hl⟩ k c hk
    cases k with
    | zero =>
      cases hk
      exact hb
    | succ k =>
      rw [Nat.add_comm k 1, ← Nat.add_assoc]
      exact hl k c hk

theorem holds_append : Holds data i (l ++ l') ↔ Holds data i l ∧ Holds data (i + l.length) l' := by
  induction l generalizing i with
  | nil => simp [holds_nil]
  | cons b l ih =>
    rw [List.cons_append, holds_cons, ih, holds_cons, List.length_cons, and_assoc,
      show i + (l.length + 1) = i + 1 + l.length by omega]

theorem ofNat_inj (h : i < j) (hlt : j - i < N) : Fin.ofNat N i ≠ Fin.ofNat N j := by
  intro heq
  have hmod : i % N = j % N := congrArg Fin.val heq
  have hdvd : N ∣ j - i := (Nat.modEq_iff_dvd' (Nat.le_of_lt h)).mp hmod
  have hle := Nat.le_of_dvd (by omega) hdvd
  omega

theorem Holds.push (h : Holds data i l) (hlt : l.length < N) (b : α) :
    Holds (update data (Fin.ofNat N (i + l.length)) b) i (l ++ [b]) := by
  refine holds_append.mpr ⟨fun k c hk => ?_, holds_cons.mpr ⟨update_self .., holds_nil⟩⟩
  have hlen := (List.getElem?_eq_some_iff.mp hk).1
  rw [update_of_ne (ofNat_inj (by omega) (by omega))]
  exact h k c hk

end Window
