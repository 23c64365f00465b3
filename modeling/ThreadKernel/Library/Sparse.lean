import Mathlib

/-! A sparse table in two levels.

The entries are grouped into tables of `n`; a table need not be there, and then none of
its entries is. `get` is what the table holds at an index, whichever level it is missing
at, and the lemmas say what the operations on the two levels do to it. Everything held
below a bound is a list, `held`, that a `put` changes by one member; `drain` empties a
range and collects what was in it. -/
namespace Sparse

open Function

variable {α : Type} {n : Nat}

structure Dir (α : Type) (n : Nat) where
  table : Nat → Bool
  entry : Nat → Option α

namespace Dir

def empty : Dir α n := ⟨fun _ => false, fun _ => none⟩

/-- The entry of `v`, if its table is there. -/
def walk (d : Dir α n) (v : Nat) : Option (Option α) :=
  if d.table (v / n) then some (d.entry v) else none

/-- What is held at `v`. -/
def get (d : Dir α n) (v : Nat) : Option α := (d.walk v).join

/-- The table of `v` added, with no entry in it. -/
def grow (d : Dir α n) (v : Nat) : Dir α n :=
  ⟨update d.table (v / n) true, fun w => if w / n = v / n then none else d.entry w⟩

def put (d : Dir α n) (v : Nat) (x : Option α) : Dir α n :=
  {d with entry := update d.entry v x}

/-- The entries from `v` up to `hi` removed, table by table: a table that is not there is
skipped. `fuel` bounds the number of rounds. -/
def clear : Nat → Nat → Nat → Dir α n → Dir α n
  | 0, _, _, d => d
  | fuel + 1, v, hi, d =>
    if v < hi then
      match d.walk v with
      | some _ => clear fuel (v + 1) hi (d.put v none)
      | none => clear fuel ((v / n + 1) * n) hi d
    else d

section
variable (d : Dir α n) (v w : Nat) (x : Option α)

theorem get_of_table (h : d.table (v / n) = true) : d.get v = d.entry v := by
  simp [get, walk, h]

theorem get_of_not_table (h : d.table (v / n) = false) : d.get v = none := by
  simp [get, walk, h]

@[simp] theorem get_empty : (empty : Dir α n).get v = none := rfl

@[simp] theorem walk_isSome : (d.walk v).isSome = d.table (v / n) := by
  unfold walk
  split <;> simp_all

theorem table_of_get {y : α} (h : d.get v = some y) : d.table (v / n) = true := by
  by_contra hnot
  rw [get_of_not_table d v (by simpa using hnot)] at h
  cases h

theorem grow_table : (d.grow v).table (v / n) = true := by
  simp [grow]

theorem get_grow (h : d.table (v / n) = false) : (d.grow v).get w = d.get w := by
  by_cases hw : w / n = v / n
  · rw [get_of_not_table d w (by rw [hw]; exact h), get_of_table _ _ (by rw [hw]; exact grow_table d v)]
    simp [grow, hw]
  · simp [get, walk, grow, hw]

theorem get_put (h : d.table (v / n) = true) : (d.put v x).get w = if w = v then x else d.get w := by
  by_cases hw : w = v
  · subst hw
    rw [get_of_table (d.put w x) w h]
    simp [put]
  · simp [get, walk, put, hw]

@[simp] theorem put_table : (d.put v x).table = d.table := rfl

theorem walk_put (h : w ≠ v) : (d.put v x).walk w = d.walk w := by
  simp [walk, put, h]

theorem walk_grow : (d.grow v).walk w = if w / n = v / n then some none else d.walk w := by
  unfold walk grow
  by_cases h : w / n = v / n <;> simp [h]

end

theorem clear_table (fuel v hi : Nat) (d : Dir α n) : (clear fuel v hi d).table = d.table := by
  induction fuel generalizing v d with
  | zero => rfl
  | succ fuel ih =>
    unfold clear
    split
    · split
      · rw [ih, put_table]
      · exact ih _ d
    · rfl

/-- With fuel for one round an entry, `clear` removes exactly the entries from `v` up to
`hi`. -/
theorem get_clear (hn : 0 < n) (fuel v hi : Nat) (hfuel : hi ≤ v + fuel) (d : Dir α n) (w : Nat) :
    (clear fuel v hi d).get w = if v ≤ w ∧ w < hi then none else d.get w := by
  induction fuel generalizing v d with
  | zero =>
    rw [clear, if_neg]
    omega
  | succ fuel ih =>
    unfold clear
    split
    · rename_i hv
      have hdiv : v < (v / n + 1) * n := by
        have := Nat.lt_div_mul_add (a := v) hn
        rw [Nat.add_mul, Nat.one_mul]
        exact this
      split
      · rename_i y hwalk
        have htable : d.table (v / n) = true := by rw [← walk_isSome, hwalk]; rfl
        rw [ih (v + 1) (by omega), get_put d v w none htable]
        split_ifs <;> first | rfl | omega
      · rename_i hwalk
        have htable : d.table (v / n) = false := by rw [← walk_isSome, hwalk]; rfl
        rw [ih _ (by omega) d]
        -- the indices skipped have no entry
        by_cases hskip : v ≤ w ∧ w < (v / n + 1) * n
        · have hw : w / n = v / n := by
            refine Nat.le_antisymm (Nat.lt_succ_iff.mp ?_) (Nat.div_le_div_right hskip.1)
            exact Nat.div_lt_of_lt_mul (by rw [Nat.mul_comm]; exact hskip.2)
          rw [get_of_not_table d w (by rw [hw]; exact htable)]
          simp
        · congr 1
          apply propext
          omega
    · rw [if_neg]
      omega

/-! ### Everything that is held -/

/-- Giving a key a value adds the value to the list. -/
theorem perm_filterMap_update {κ : Type} [DecidableEq κ] {ks : List κ} {f : κ → Option α} {k : κ}
    {x : α} (hks : ks.Nodup) (hk : k ∈ ks) (hf : f k = none) :
    (ks.filterMap (update f k (some x))).Perm (x :: ks.filterMap f) := by
  have hkeys := List.perm_cons_erase hk
  have hrest : (ks.erase k).filterMap (update f k (some x)) = (ks.erase k).filterMap f := by
    apply List.filterMap_congr
    intro j hj
    have hne : j ≠ k := by
      intro heq
      rw [heq] at hj
      exact hks.not_mem_erase hj
    rw [update_of_ne hne]
  have hwith : (ks.filterMap (update f k (some x))).Perm (x :: (ks.erase k).filterMap f) := by
    have h := hkeys.filterMap (update f k (some x))
    rwa [List.filterMap_cons, update_self, hrest] at h
  have hwithout : (ks.filterMap f).Perm ((ks.erase k).filterMap f) := by
    have h := hkeys.filterMap f
    rwa [List.filterMap_cons, hf] at h
  exact hwith.trans (hwithout.symm.cons x)

/-- What `d` holds below `hi`. -/
def held (d : Dir α n) (hi : Nat) : List α := (List.range hi).filterMap d.get

section
variable {d : Dir α n} {v hi : Nat} {x : α}

theorem get_put_eq (h : d.table (v / n) = true) (y : Option α) :
    (d.put v y).get = update d.get v y := by
  funext w
  rw [get_put d v w y h, update_apply]

theorem held_grow (h : d.table (v / n) = false) : (d.grow v).held hi = d.held hi := by
  unfold held
  congr 1
  funext w
  exact get_grow d v w h

theorem held_put (h : d.table (v / n) = true) (hv : v < hi) (hget : d.get v = none) :
    ((d.put v (some x)).held hi).Perm (x :: d.held hi) := by
  unfold held
  rw [get_put_eq h]
  exact perm_filterMap_update List.nodup_range (List.mem_range.mpr hv) hget

theorem held_take (hv : v < hi) (hget : d.get v = some x) :
    (d.held hi).Perm (x :: (d.put v none).held hi) := by
  have htable := d.table_of_get v hget
  have hback : d.get = update (d.put v none).get v (some x) := by
    rw [get_put_eq htable, update_idem, ← hget, update_eq_self]
  have hnone : (d.put v none).get v = none := by
    rw [get_put_eq htable, update_self]
  have hperm := perm_filterMap_update (x := x) List.nodup_range (List.mem_range.mpr hv) hnone
  rw [← hback] at hperm
  exact hperm

theorem held_eq_nil (h : ∀ w, w < hi → d.get w = none) : d.held hi = [] := by
  apply List.filterMap_eq_nil_iff.mpr
  intro w hw
  exact h w (List.mem_range.mp hw)

end

/-- `clear`, with what it removed in front of `out`. -/
def drain : Nat → Nat → Nat → Dir α n → List α → Dir α n × List α
  | 0, _, _, d, out => (d, out)
  | fuel + 1, v, hi, d, out =>
    if v < hi then
      match d.walk v with
      | some (some x) => drain fuel (v + 1) hi (d.put v none) (x :: out)
      | some none => drain fuel (v + 1) hi d out
      | none => drain fuel ((v / n + 1) * n) hi d out
    else (d, out)

theorem drain_fst (fuel v hi : Nat) (d : Dir α n) (out : List α) :
    (drain fuel v hi d out).1 = clear fuel v hi d := by
  induction fuel generalizing v d out with
  | zero => rfl
  | succ fuel ih =>
    unfold drain clear
    split
    · cases hwalk : d.walk v with
      | none => exact ih _ d out
      | some y =>
        cases y with
        | some x => exact ih _ _ _
        | none =>
          -- there is nothing to remove
          have hentry : d.entry v = none := by
            unfold walk at hwalk
            split at hwalk
            · exact Option.some.inj hwalk
            · cases hwalk
          have hput : d.put v none = d := by
            unfold put
            rw [← hentry, update_eq_self]
          rw [hput]
          exact ih _ d out
    · rfl

/-- Nothing is lost and nothing is taken twice. -/
theorem drain_perm (fuel v hi bound : Nat) (hbound : hi ≤ bound) (d : Dir α n) (out : List α) :
    ((drain fuel v hi d out).2 ++ (drain fuel v hi d out).1.held bound).Perm (out ++ d.held bound) := by
  induction fuel generalizing v d out with
  | zero => exact List.Perm.refl _
  | succ fuel ih =>
    unfold drain
    split
    · rename_i hv
      cases hwalk : d.walk v with
      | none => exact ih _ d out
      | some y =>
        cases y with
        | none => exact ih _ d out
        | some x =>
          have hget : d.get v = some x := by rw [get, hwalk]; rfl
          have htake := held_take (Nat.lt_of_lt_of_le hv hbound) hget
          have hmove : ((x :: out) ++ (d.put v none).held bound).Perm (out ++ d.held bound) :=
            List.perm_middle.symm.trans (htake.symm.append_left out)
          exact (ih _ _ _).trans hmove
    · exact List.Perm.refl _

/-! ### Tables filled from the start -/

/-- `d` holds the first `m` entries and no others, with no table more than they need; `f` of
entry `v` is `u v`. -/
def Filled {β : Type} (d : Dir α n) (f : α → β) (u : Nat → β) (m : Nat) : Prop :=
  ∀ v, (d.walk v).map (Option.map f) =
    if v / n * n < m then some (if v < m then some (u v) else none) else none

section
variable {β : Type} {d : Dir α n} {f : α → β} {u : Nat → β} {m v : Nat} {x : α}

theorem filled_empty (f : α → β) (u : Nat → β) : Filled (empty : Dir α n) f u 0 := by
  intro v
  rfl

/-- The first entry of a table that is `m`: the table of `v` is the next one. -/
theorem div_mul_eq_iff (hn : 0 < n) : v / n * n = m ↔ m % n = 0 ∧ v / n = m / n := by
  constructor
  · intro h
    rw [← h, Nat.mul_mod_left, Nat.mul_div_cancel _ hn]
    exact ⟨rfl, rfl⟩
  · intro ⟨hmod, hdiv⟩
    rw [hdiv]
    exact Nat.div_mul_cancel (Nat.dvd_of_mod_eq_zero hmod)

theorem Filled.walk_next (h : Filled d f u m) (hn : 0 < n) :
    d.walk m = if m % n = 0 then none else some none := by
  have hm := h m
  rw [if_neg (Nat.lt_irrefl m)] at hm
  have hiff : m / n * n < m ↔ ¬ m % n = 0 := by
    have hle := Nat.div_mul_le_self m n
    have heq := div_mul_eq_iff (v := m) (m := m) hn
    constructor
    · intro hlt hmod
      exact Nat.ne_of_lt hlt (heq.mpr ⟨hmod, rfl⟩)
    · intro hmod
      exact Nat.lt_of_le_of_ne hle fun h => hmod (heq.mp h).1
  by_cases hmod : m % n = 0
  · rw [if_neg (by rw [hiff]; exact not_not_intro hmod)] at hm
    rw [if_pos hmod]
    exact Option.map_eq_none_iff.mp hm
  · rw [if_pos (hiff.mpr hmod)] at hm
    obtain ⟨y, hy, hnone⟩ := Option.map_eq_some_iff.mp hm
    rw [if_neg hmod, hy, Option.map_eq_none_iff.mp hnone]

theorem Filled.put (h : Filled d f u m) (hn : 0 < n) (hmod : m % n ≠ 0) (hx : f x = u m) :
    Filled (d.put m (some x)) f u (m + 1) := by
  intro v
  have htable : v / n * n < m + 1 ↔ v / n * n < m := by
    rw [Nat.lt_succ_iff_lt_or_eq, div_mul_eq_iff hn]
    simp [hmod]
  by_cases hv : v = m
  · subst hv
    have hnext := h.walk_next hn
    rw [if_neg hmod] at hnext
    have hthere : d.table (v / n) = true := by
      rw [← walk_isSome, hnext]
      rfl
    have hwalk : (d.put v (some x)).walk v = some (some x) := by
      simp [walk, Dir.put, hthere]
    have hlt : v / n * n < v + 1 := Nat.lt_succ_of_le (Nat.div_mul_le_self v n)
    rw [hwalk, if_pos hlt, if_pos (Nat.lt_succ_self v), ← hx]
    rfl
  · have hlt : v < m + 1 ↔ v < m := by omega
    rw [d.walk_put m v (some x) hv, h v]
    simp only [htable, hlt]

theorem Filled.grow (h : Filled d f u m) (hn : 0 < n) (hmod : m % n = 0) (hx : f x = u m) :
    Filled ((d.grow m).put m (some x)) f u (m + 1) := by
  intro v
  have htable : v / n * n < m + 1 ↔ v / n * n < m ∨ v / n = m / n := by
    rw [Nat.lt_succ_iff_lt_or_eq, div_mul_eq_iff hn]
    simp [hmod]
  by_cases hv : v = m
  · subst hv
    have hwalk : ((d.grow v).put v (some x)).walk v = some (some x) := by
      simp [walk, Dir.put, d.grow_table v]
    rw [hwalk, if_pos (htable.mpr (.inr rfl)), if_pos (Nat.lt_succ_self v), ← hx]
    rfl
  · have hlt : v < m + 1 ↔ v < m := by omega
    rw [(d.grow m).walk_put m v (some x) hv, walk_grow]
    simp only [htable, hlt]
    by_cases hdiv : v / n = m / n
    · -- the new table starts with `m`
      have hge : ¬ v < m := by
        have hstart : v / n * n = m := (div_mul_eq_iff hn).mpr ⟨hmod, hdiv⟩
        have := Nat.div_mul_le_self v n
        omega
      rw [if_pos hdiv, if_pos (.inr hdiv), if_neg hge]
      rfl
    · rw [if_neg hdiv, h v]
      simp only [hdiv, or_false]

end

end Dir

end Sparse
