import ThreadKernel.Vm.Uvm
import ThreadKernel.Library.Bytes

/-! `copyout`: bytes through a page directory.

The kernel writes to user memory in two ways: straight to a virtual address of the
current directory, which only takes a present page (`phys`), or page by page through
`uva2ka`, which also takes `PTE_U` (`uphys`). The second is a loop of its own; where every
page is there it is the plain store. -/
namespace ThreadKernel

open Bytes

/-- Physical memory: a byte for each frame and offset. -/
abbrev Ram := Page × Nat → Byte

/-- Where the kernel finds address `va`. -/
def phys (d : Pgdir) (va : Nat) : Option (Page × Nat) :=
  (d.get (va / PGSIZE)).map fun x => (x.pa, va % PGSIZE)

/-- Where a user finds it. -/
def uphys (d : Pgdir) (va : Nat) : Option (Page × Nat) :=
  match d.get (va / PGSIZE) with
  | some x => if x.user then some (x.pa, va % PGSIZE) else none
  | none => none

/-- `uva2ka` on page `v`. `none`: there is no page table, and the null pointer that
`walkpgdir` returns is followed. -/
def uva2ka (d : Pgdir) (v : Nat) : Option (Option Page) :=
  match d.walk v with
  | none => none
  | some none => some none
  | some (some x) => some (if x.user then some x.pa else none)

/-- What a copy leaves. -/
inductive Copied (α : Type) where
  | ok (x : α)
  /-- It returned -1. -/
  | failed (x : α)
  /-- A null pointer was followed. -/
  | wild

/-- `memmove` to offset `off` of a frame. -/
def memmove (pa : Page) : Nat → List Byte → Ram → Ram
  | _, [], ram => ram
  | off, b :: bs, ram => memmove pa (off + 1) bs (Function.update ram (pa, off) b)

/-- The loop of `copyout`; there is a byte at least for each round. -/
def copyLoop (d : Pgdir) : Nat → Nat → List Byte → Ram → Copied Ram
  | 0, _, _, ram => .ok ram
  | fuel + 1, va, buf, ram =>
    if buf = [] then .ok ram
    else
      match uva2ka d (va / PGSIZE) with
      | none => .wild
      | some none => .failed ram
      | some (some pa) =>
        let n := min (PGSIZE - va % PGSIZE) buf.length
        copyLoop d fuel ((va / PGSIZE + 1) * PGSIZE % 2 ^ 32) (buf.drop n)
          (memmove pa (va % PGSIZE) (buf.take n) ram)

def copyout (d : Pgdir) (va : Nat) (buf : List Byte) (ram : Ram) : Copied Ram :=
  copyLoop d buf.length va buf ram

/-! ### What it does -/

variable {d : Pgdir} {va : Nat} {pa : Page} {l : Page × Nat}

/-- A user finds an address where `uva2ka` finds its page. -/
theorem uphys_eq_some_iff :
    uphys d va = some l ↔ uva2ka d (va / PGSIZE) = some (some l.1) ∧ l.2 = va % PGSIZE := by
  unfold uphys uva2ka Sparse.Dir.get
  cases d.walk (va / PGSIZE) with
  | none => simp
  | some y =>
    cases y with
    | none => simp
    | some x =>
      by_cases huser : x.user = true
      · simp [huser, Prod.ext_iff, eq_comm]
      · simp [huser]

theorem storeAll_page (bs : List Byte) (ram : Ram) (hpa : uva2ka d (va / PGSIZE) = some (some pa))
    (hlen : va % PGSIZE + bs.length ≤ PGSIZE) :
    storeAll (uphys d) va bs ram = some (memmove pa (va % PGSIZE) bs ram) := by
  induction bs generalizing va ram with
  | nil => rfl
  | cons b bs ih =>
    have hl : uphys d va = some (pa, va % PGSIZE) := uphys_eq_some_iff.mpr ⟨hpa, rfl⟩
    simp only [storeAll, hl, memmove]
    cases bs with
    | nil => rfl
    | cons b' bs' =>
      simp only [List.length_cons, PGSIZE] at hlen
      have hpage : (va + 1) / PGSIZE = va / PGSIZE := by simp only [PGSIZE]; omega
      have hoff : (va + 1) % PGSIZE = va % PGSIZE + 1 := by simp only [PGSIZE]; omega
      rw [ih _ (by rw [hpage]; exact hpa) (by rw [hoff]; simp only [List.length_cons, PGSIZE]; omega),
        hoff]

/-- In a page that `uva2ka` finds, every address is found. -/
theorem uphys_page {va' : Nat} (hpa : uva2ka d (va / PGSIZE) = some (some pa))
    (hpage : va' / PGSIZE = va / PGSIZE) : uphys d va' = some (pa, va' % PGSIZE) :=
  uphys_eq_some_iff.mpr ⟨by rw [hpage]; exact hpa, rfl⟩

/-- Up to the first byte that a user does not find the loop is the plain store; there it
returns -1, or follows a null pointer where there is no page table. -/
theorem copyLoop_stop (fuel va : Nat) (buf : List Byte) (ram : Ram) (k : Nat)
    (hfound : ∀ i, i < k → (uphys d (va + i)).isSome = true)
    (hstop : k < buf.length → uphys d (va + k) = none) (hk : k ≤ buf.length)
    (hva : va + min (k + 1) buf.length ≤ 2 ^ 32) (hfuel : buf.length ≤ fuel) :
    ∃ ram', storeAll (uphys d) va (buf.take k) ram = some ram' ∧ copyLoop d fuel va buf ram =
      if k < buf.length then if (d.walk ((va + k) / PGSIZE)).isSome then .failed ram' else .wild
      else .ok ram' := by
  induction fuel generalizing va buf ram k with
  | zero =>
    obtain rfl : buf = [] := List.length_eq_zero_iff.mp (by omega)
    exact ⟨ram, by rw [List.take_nil]; rfl, rfl⟩
  | succ fuel ih =>
    by_cases hnil : buf = []
    · subst hnil
      exact ⟨ram, by rw [List.take_nil]; rfl, rfl⟩
    have hpos : 0 < buf.length := List.length_pos_iff.mpr hnil
    rw [copyLoop, if_neg hnil]
    by_cases hzero : k = 0
    · subst hzero
      refine ⟨ram, rfl, ?_⟩
      rw [if_pos hpos, Nat.add_zero]
      have hnone := hstop hpos
      rw [Nat.add_zero] at hnone
      cases hka : uva2ka d (va / PGSIZE) with
      | none =>
        rw [uva2ka] at hka
        cases hwalk : d.walk (va / PGSIZE) with
        | none => rfl
        | some y => cases y <;> simp [hwalk] at hka
      | some y =>
        cases y with
        | none =>
          rw [uva2ka] at hka
          cases hwalk : d.walk (va / PGSIZE) with
          | none => simp [hwalk] at hka
          | some y => rfl
        | some pa =>
          rw [uphys_page hka rfl] at hnone
          cases hnone
    obtain ⟨l, hl⟩ := Option.isSome_iff_exists.mp (hfound 0 (by omega))
    obtain ⟨hpa, -⟩ := uphys_eq_some_iff.mp hl
    rw [Nat.add_zero] at hpa
    simp only [hpa]
    -- the first page and the rest
    generalize hn : min (PGSIZE - va % PGSIZE) buf.length = n
    have hoff : va % PGSIZE < PGSIZE := Nat.mod_lt _ (by decide)
    have htake : (buf.take n).length = n := by rw [List.length_take]; omega
    have hpage := storeAll_page (buf.take n) ram hpa (by rw [htake]; omega)
    have hnk : n ≤ k := by
      by_contra hlt
      rw [uphys_page hpa (by simp only [PGSIZE] at hn hoff ⊢; omega)] at hstop
      exact nomatch hstop (by omega)
    have hnext : n < buf.length → (va / PGSIZE + 1) * PGSIZE % 2 ^ 32 = va + n := fun hlt => by
      rw [Nat.mod_eq_of_lt] <;> simp only [PGSIZE] at hn hoff ⊢ <;> omega
    have hstore : ∀ ram', storeAll (uphys d) (va + n) ((buf.drop n).take (k - n))
        (memmove l.1 (va % PGSIZE) (buf.take n) ram) = some ram' →
        storeAll (uphys d) va (buf.take k) ram = some ram' := fun ram' h => by
      rw [← List.take_append_drop n (buf.take k), List.take_take, Nat.min_eq_left hnk, storeAll_append,
        hpage, htake, List.drop_take]
      exact h
    by_cases hrest : n < buf.length
    · rw [hnext hrest]
      obtain ⟨ram', hs, hc⟩ := ih (va + n) (buf.drop n) (memmove l.1 (va % PGSIZE) (buf.take n) ram) (k - n)
        (fun i hi => by
          rw [Nat.add_assoc]
          exact hfound (n + i) (by omega))
        (fun hlt => by
          rw [List.length_drop] at hlt
          rw [show va + n + (k - n) = va + k by omega]
          exact hstop (by omega))
        (by rw [List.length_drop]; omega) (by rw [List.length_drop]; omega)
        (by rw [List.length_drop]; omega)
      refine ⟨ram', hstore ram' hs, ?_⟩
      rw [hc, List.length_drop, show va + n + (k - n) = va + k by omega]
      congr 1
      exact propext (by omega)
    · rw [List.drop_eq_nil_of_le (by omega)] at hstore ⊢
      rw [List.take_nil] at hstore
      refine ⟨_, hstore _ rfl, ?_⟩
      rw [if_neg (by omega)]
      cases fuel <;> rfl

/-- Where every page is present with `PTE_U`, the loop is the plain store. -/
theorem copyLoop_eq (fuel va : Nat) (buf : List Byte) (ram : Ram)
    (hbuf : ∀ i, i < buf.length → (uphys d (va + i)).isSome = true)
    (hva : va + buf.length ≤ 2 ^ 32) (hfuel : buf.length ≤ fuel) :
    ∃ ram', storeAll (uphys d) va buf ram = some ram' ∧ copyLoop d fuel va buf ram = .ok ram' := by
  obtain ⟨ram', hs, hc⟩ := copyLoop_stop fuel va buf ram buf.length hbuf
    (fun h => absurd h (Nat.lt_irrefl _)) (Nat.le_refl _) (by omega) hfuel
  rw [List.take_length] at hs
  rw [if_neg (Nat.lt_irrefl _)] at hc
  exact ⟨ram', hs, hc⟩

/-- Two addresses less than a page apart are never in one place. -/
theorem phys_inj {i j : Nat} (hi : phys d (va + i) = some l)
    (hj : phys d (va + j) = some l) (hi' : i < PGSIZE) (hj' : j < PGSIZE) : i = j := by
  obtain ⟨x, -, hx⟩ := Option.map_eq_some_iff.mp hi
  obtain ⟨y, -, hy⟩ := Option.map_eq_some_iff.mp hj
  have hoff : (va + i) % PGSIZE = (va + j) % PGSIZE := by
    rw [← hy] at hx
    exact (Prod.mk.inj hx).2
  simp only [PGSIZE] at *
  omega

/-- A word can be stored where its pages are present, and is read back. -/
theorem exists_storeWord (h : ∀ i, i < 4 → (phys d (va + i)).isSome = true) (w : Word) (ram : Ram) :
    ∃ ram', storeWord (phys d) va w ram = some ram' ∧ loadWord (phys d) ram' va = some w := by
  obtain ⟨ram', hstore⟩ := exists_storeAll (ofWord w) h ram
  refine ⟨ram', hstore, loadWord_of_bytes fun i hi => load_storeAll hstore ?_ hi⟩
  intro i j hi hj heq
  obtain ⟨l, hl⟩ := Option.isSome_iff_exists.mp (h i hi)
  have hi : i < 4 := hi
  have hj : j < 4 := hj
  exact phys_inj hl (heq ▸ hl) (by simp only [PGSIZE]; omega) (by simp only [PGSIZE]; omega)

theorem Exact.phys_isSome {sz : Nat} (h : Exact d sz) (hva : va < sz) : (phys d va).isSome = true := by
  rw [phys, Option.isSome_map, h]
  simp only [pages, PGSIZE]
  omega

theorem phys_of_uphys (h : uphys d va = some l) : phys d va = some l := by
  unfold uphys at h
  unfold phys
  split at h
  · rename_i x hx
    split at h
    · rw [hx]
      exact h
    · cases h
  · cases h

end ThreadKernel
