import ThreadKernel.Library.Bytes

/-! Arrays that are read and written a piece at a time, and the numbers and bits in them.

An array is a function of the index. A piece of it is a list; a number of `w` bytes is kept
with its lowest byte first. -/
namespace Field

open Bytes Function

variable {β : Type} {a b : Nat → β} {l : List β} {off n i : Nat} {off' w : Nat}

/-! ### Pieces -/

/-- The `n` elements from `off` on. -/
def slice (a : Nat → β) (off n : Nat) : List β := (List.range' off n).map a

/-- The elements from `off` on are those of `l`, as far as it goes. -/
def splice (a : Nat → β) (off : Nat) (l : List β) : Nat → β := fun i =>
  if off ≤ i then (l[i - off]?).getD (a i) else a i

@[simp]
theorem length_slice (a : Nat → β) (off n : Nat) : (slice a off n).length = n := by
  rw [slice, List.length_map, List.length_range']

theorem getElem?_slice (h : i < n) : (slice a off n)[i]? = some (a (off + i)) := by
  rw [slice, List.getElem?_map, List.getElem?_range' h, Option.map_some, Nat.one_mul]

theorem slice_add (a : Nat → β) (off n k : Nat) :
    slice a off (n + k) = slice a off n ++ slice a (off + n) k := by
  rw [slice, ← List.range'_append_1, List.map_append]
  rfl

theorem slice_congr (h : ∀ i, off ≤ i → i < off + n → a i = b i) : slice a off n = slice b off n := by
  refine List.map_congr_left fun i hi => ?_
  obtain ⟨hlo, hhi⟩ := List.mem_range'_1.mp hi
  exact h i hlo hhi

theorem slice_shift (h : ∀ i, i < n → a (off + i) = b (off' + i)) :
    slice a off n = slice b off' n := by
  refine List.ext_getElem? fun i => ?_
  by_cases hi : i < n
  · rw [getElem?_slice hi, getElem?_slice hi, h i hi]
  · rw [List.getElem?_eq_none (by rw [length_slice]; omega),
      List.getElem?_eq_none (by rw [length_slice]; omega)]

theorem splice_of_lt (h : i < off) : splice a off l i = a i := if_neg (Nat.not_le.mpr h)

theorem splice_of_le (h : off + l.length ≤ i) : splice a off l i = a i := by
  unfold splice
  split
  · rw [List.getElem?_eq_none (by omega), Option.getD_none]
  · rfl

theorem splice_other (h : ¬(off ≤ i ∧ i < off + l.length)) : splice a off l i = a i := by
  by_cases hlo : off ≤ i
  · exact splice_of_le (by omega)
  · exact splice_of_lt (by omega)

theorem splice_add (h : i < l.length) : splice a off l (off + i) = l.get ⟨i, h⟩ := by
  rw [splice, if_pos (Nat.le_add_right _ _), Nat.add_sub_cancel_left, List.getElem?_eq_getElem h,
    Option.getD_some]
  rfl

@[simp]
theorem splice_nil (a : Nat → β) (off : Nat) : splice a off [] = a :=
  funext fun _ => splice_other (by simp only [List.length_nil]; omega)

theorem slice_splice (a : Nat → β) (off : Nat) (l : List β) : slice (splice a off l) off l.length = l := by
  refine List.ext_getElem? fun i => ?_
  by_cases hi : i < l.length
  · rw [getElem?_slice hi, splice_add hi, List.getElem?_eq_getElem hi]
    rfl
  · rw [List.getElem?_eq_none (by rw [length_slice]; omega), List.getElem?_eq_none (by omega)]

theorem slice_splice_other (h : off' + n ≤ off ∨ off + l.length ≤ off') :
    slice (splice a off l) off' n = slice a off' n :=
  slice_congr fun _ _ _ => splice_other (by omega)

/-- One piece after the other is both in one. -/
theorem splice_append (a : Nat → β) (off : Nat) (l l' : List β) :
    splice a off (l ++ l') = splice (splice a off l) (off + l.length) l' := by
  funext i
  unfold splice
  by_cases hlo : off ≤ i
  · obtain ⟨k, rfl⟩ := Nat.exists_eq_add_of_le hlo
    rw [if_pos hlo, if_pos hlo, Nat.add_sub_cancel_left]
    by_cases hk : k < l.length
    · rw [if_neg (by omega), List.getElem?_append_left hk]
    · rw [if_pos (by omega), List.getElem?_append_right (by omega),
        List.getElem?_eq_none (Nat.le_of_not_lt hk), Option.getD_none]
      congr 2
      omega
  · rw [if_neg hlo, if_neg hlo, if_neg (by omega)]

/-- The pieces of one length, written one after the other. -/
theorem slice_splice_flatMap {α : Type} {f : α → List β} (hw : ∀ x, (f x).length = w)
    {xs : List α} {x : α} (hx : xs[i]? = some x) (a : Nat → β) (off : Nat) :
    slice (splice a off (xs.flatMap f)) (off + w * i) w = f x := by
  induction xs generalizing i off a with
  | nil => cases hx
  | cons y ys ih =>
    rw [List.flatMap_cons, splice_append, hw]
    cases i with
    | zero =>
      cases hx
      have hfirst := slice_splice a off (f x)
      rw [hw] at hfirst
      rw [Nat.mul_zero, Nat.add_zero, slice_splice_other (.inl (Nat.le_refl _)), hfirst]
    | succ i =>
      have hoff : off + w * (i + 1) = off + w + w * i := by rw [Nat.mul_succ]; omega
      rw [hoff]
      exact ih hx _ _

/-! ### Numbers -/

/-- The lowest `w` bytes of `n`. -/
def toBytes : Nat → Nat → List Byte
  | 0, _ => []
  | w + 1, n => BitVec.ofNat 8 n :: toBytes w (n / 256)

def ofBytes : List Byte → Nat
  | [] => 0
  | b :: bs => b.toNat + 256 * ofBytes bs

@[simp]
theorem length_toBytes (w n : Nat) : (toBytes w n).length = w := by
  induction w generalizing n with
  | zero => rfl
  | succ w ih => rw [toBytes, List.length_cons, ih]

theorem ofBytes_toBytes (h : n < 256 ^ w) : ofBytes (toBytes w n) = n := by
  induction w generalizing n with
  | zero =>
    rw [Nat.pow_zero, Nat.lt_one_iff] at h
    rw [h]
    rfl
  | succ w ih =>
    have hrest : n / 256 < 256 ^ w := Nat.div_lt_of_lt_mul (by rw [Nat.pow_succ] at h; omega)
    rw [toBytes, ofBytes, ih hrest, BitVec.toNat_ofNat]
    omega

/-- The number of `w` bytes at `off`. -/
def num (a : Nat → Byte) (off w : Nat) : Nat := ofBytes (slice a off w)

def setNum (a : Nat → Byte) (off w n : Nat) : Nat → Byte := splice a off (toBytes w n)

variable {c d : Nat → Byte} {w w' off' : Nat}

theorem num_congr (h : ∀ i, off ≤ i → i < off + w → c i = d i) : num c off w = num d off w := by
  rw [num, slice_congr h]
  rfl

theorem num_setNum (h : n < 256 ^ w) : num (setNum c off w n) off w = n := by
  have hpiece := slice_splice c off (toBytes w n)
  rw [length_toBytes] at hpiece
  rw [num, setNum, hpiece, ofBytes_toBytes h]

theorem num_splice_other {l : List Byte} (h : off' + w' ≤ off ∨ off + l.length ≤ off') :
    num (splice c off l) off' w' = num c off' w' := by
  rw [num, slice_splice_other h]
  rfl

theorem num_setNum_other (h : off' + w' ≤ off ∨ off + w ≤ off') :
    num (setNum c off w n) off' w' = num c off' w' :=
  num_splice_other (by rw [length_toBytes]; exact h)

theorem setNum_other (h : ¬(off ≤ i ∧ i < off + w)) : setNum c off w n i = c i :=
  splice_other (by rw [length_toBytes]; exact h)

/-! ### Bits -/

/-- Bit `i`, eight to a byte. -/
def bit (c : Nat → Byte) (i : Nat) : Bool := (c (i / 8)).getLsbD (i % 8)

def setBit (c : Nat → Byte) (i : Nat) (v : Bool) : Nat → Byte :=
  update c (i / 8)
    (if v then c (i / 8) ||| 1#8 <<< (i % 8) else c (i / 8) &&& ~~~(1#8 <<< (i % 8)))

theorem getLsbD_one_shift (k j : Nat) (hk : k < 8) : (1#8 <<< k).getLsbD j = decide (j = k) := by
  by_cases hj : j = k
  · subst hj
    simp [hk]
  · by_cases hlt : j < k
    · simp [hlt, hj]
    · have hne : ¬ j - k = 0 := by omega
      simp [hj, BitVec.getLsbD_one, hne]

theorem bit_setBit (c : Nat → Byte) (i j : Nat) (v : Bool) :
    bit (setBit c i v) j = if j = i then v else bit c j := by
  unfold bit setBit
  by_cases hbyte : j / 8 = i / 8
  · rw [hbyte, update_self]
    have hlt : i % 8 < 8 := Nat.mod_lt _ (by omega)
    have hj : j % 8 < 8 := Nat.mod_lt _ (by omega)
    have hiff : j = i ↔ j % 8 = i % 8 := by omega
    have hmask := getLsbD_one_shift (i % 8) (j % 8) hlt
    cases v with
    | false =>
      rw [if_neg Bool.false_ne_true, BitVec.getLsbD_and, BitVec.getLsbD_not, hmask]
      by_cases h : j % 8 = i % 8
      · simp [hiff, h]
      · simp [hiff, h, hj]
    | true =>
      rw [if_pos rfl, BitVec.getLsbD_or, hmask]
      by_cases h : j % 8 = i % 8
      · simp [hiff, h]
      · simp [hiff, h]
  · have hne : j ≠ i := fun h => hbyte (by rw [h])
    rw [update_of_ne hbyte, if_neg hne]

/-- The test of a bit as `(byte & 1 << k) == 0`. -/
theorem and_shift_eq_zero_iff (c : Nat → Byte) (i : Nat) :
    c (i / 8) &&& 1#8 <<< (i % 8) = 0 ↔ bit c i = false := by
  have hlt : i % 8 < 8 := Nat.mod_lt _ (by omega)
  constructor
  · intro h
    have hbit := congrArg (fun x : Byte => x.getLsbD (i % 8)) h
    simpa [getLsbD_one_shift _ _ hlt, bit] using hbit
  · intro h
    refine BitVec.eq_of_getLsbD_eq fun k hk => ?_
    by_cases hki : k = i % 8
    · subst hki
      simpa [getLsbD_one_shift _ _ hlt, bit] using h
    · simp [getLsbD_one_shift _ _ hlt, hki]

end Field
