import ThreadKernel.Vm.Copy

/-! `vm.c` by addresses: the entries of a directory with their flags, the pages that `kalloc`
hands out and takes back, and what is in them.

Addresses are numbers below `2^32`, and so are the sums of the source. A page is one of those
that `kalloc` has, so `kfree` does not panic over it; `free` is what `kalloc` returns before it
fails. What is in a page table is kept with its entry of the directory. A loop that has not
come to its end after a turn for each page of an address space does not end. -/
namespace ThreadKernel.Paging

open Bytes Function

/-! ### mmu.h -/

def PDX (va : Nat) : Nat := va / 2 ^ 22 % 2 ^ 10

def PTX (va : Nat) : Nat := va / 2 ^ 12 % 2 ^ 10

def PGADDR (d t o : Nat) : Nat := (d * 2 ^ 22 + t * 2 ^ 12 + o) % 2 ^ 32

def PGROUNDUP (sz : Nat) : Nat := (sz + PGSIZE - 1) % 2 ^ 32 / PGSIZE * PGSIZE

def PGROUNDDOWN (a : Nat) : Nat := a / PGSIZE * PGSIZE

/-! ### Memory -/

/-- A present entry: `PTE_ADDR`, `PTE_W` and `PTE_U`. -/
structure Pte where
  pa : Page
  w : Bool
  u : Bool
  deriving DecidableEq, Repr

structure Mem where
  /-- The entries of the directory that are present: the pages of the tables. -/
  pde : Nat → Option Page
  /-- The entries of the table at an index of the directory. -/
  pte : Nat → Nat → Option Pte
  ram : Ram
  free : List Page

inductive Stop where
  /-- `panic("remap")` -/
  | remap
  /-- `panic("clearpteu")` -/
  | clearpteu
  /-- A null pointer was followed. -/
  | wild
  /-- A loop does not end. -/
  | spins
  /-- A store to a page that is not there, or read-only. -/
  | fault
  deriving DecidableEq, Repr

namespace Mem

def memset (m : Mem) (pg : Page) (b : Byte) : Mem :=
  {m with ram := fun l => if l.1 = pg then b else m.ram l}

def kalloc (m : Mem) : Option (Page × Mem) :=
  match m.free with
  | [] => none
  | pg :: free => some (pg, {m with free := free})

def kfree (m : Mem) (pg : Page) : Mem := {m.memset pg 1 with free := pg :: m.free}

/-- The entry that `walkpgdir` points at. -/
def entry (m : Mem) (va : Nat) : Option Pte := m.pte (PDX va) (PTX va)

def setEntry (m : Mem) (va : Nat) (x : Option Pte) : Mem :=
  {m with pte := update m.pte (PDX va) (update (m.pte (PDX va)) (PTX va) x)}

/-- `walkpgdir`; without a result it returns 0. -/
def walkpgdir (m : Mem) (va : Nat) (alloc : Bool) : Option Mem :=
  match m.pde (PDX va) with
  | some _ => some m
  | none =>
    if alloc then
      m.kalloc.map fun x =>
        {x.2.memset x.1 0 with
          pde := update m.pde (PDX va) (some x.1)
          pte := update m.pte (PDX va) fun _ => none}
    else none

end Mem

/-- A turn for each page of an address space, and one to see that the loop is over. -/
abbrev turns : Nat := 2 ^ 20 + 1

/-! ### vm.c -/

namespace Mem

/-- The loop of `mappages`, with whether it got to its end. -/
def mapLoop (last : Nat) (w u : Bool) : Nat → Nat → Page → Mem → Except Stop (Mem × Bool)
  | 0, _, _, _ => .error .spins
  | n + 1, a, pa, m =>
    match m.walkpgdir a true with
    | none => .ok (m, false)
    | some m =>
      if (m.entry a).isSome then .error .remap
      else
        let m := m.setEntry a (some ⟨pa, w, u⟩)
        if a = last then .ok (m, true)
        else mapLoop last w u n ((a + PGSIZE) % 2 ^ 32) (pa + 1) m

def mappages (m : Mem) (va size : Nat) (pa : Page) (w u : Bool) : Except Stop (Mem × Bool) :=
  mapLoop (PGROUNDDOWN ((va + size - 1) % 2 ^ 32)) w u turns (PGROUNDDOWN va) pa m

def deallocLoop (oldsz : Nat) : Nat → Nat → Mem → Except Stop Mem
  | 0, _, _ => .error .spins
  | n + 1, a, m =>
    if a < oldsz then
      match m.walkpgdir a false with
      | none =>
        let a := (PGADDR (PDX a + 1) 0 0 + 2 ^ 32 - PGSIZE) % 2 ^ 32
        deallocLoop oldsz n ((a + PGSIZE) % 2 ^ 32) m
      | some m =>
        match m.entry a with
        | none => deallocLoop oldsz n ((a + PGSIZE) % 2 ^ 32) m
        | some x => deallocLoop oldsz n ((a + PGSIZE) % 2 ^ 32) ((m.kfree x.pa).setEntry a none)
    else .ok m

def deallocuvm (m : Mem) (oldsz newsz : Nat) : Except Stop (Mem × Nat) :=
  if newsz ≥ oldsz then .ok (m, oldsz)
  else do
    let m ← deallocLoop oldsz turns (PGROUNDUP newsz) m
    return (m, newsz)

def allocLoop (oldsz newsz : Nat) : Nat → Nat → Mem → Except Stop (Mem × Nat)
  | 0, _, _ => .error .spins
  | n + 1, a, m =>
    if a < newsz then
      match m.kalloc with
      | none => do
        let (m, _) ← m.deallocuvm newsz oldsz
        return (m, 0)
      | some (mem, m) =>
        match (m.memset mem 0).mappages a PGSIZE mem true true with
        | .error e => .error e
        | .ok (m, true) => allocLoop oldsz newsz n ((a + PGSIZE) % 2 ^ 32) m
        | .ok (m, false) => do
          let (m, _) ← m.deallocuvm newsz oldsz
          return (m.kfree mem, 0)
    else .ok (m, newsz)

/-- `allocuvm`, with the size it returns; 0 is a failure. -/
def allocuvm (m : Mem) (oldsz newsz : Nat) : Except Stop (Mem × Nat) :=
  if newsz ≥ KERNBASE then .ok (m, 0)
  else if newsz < oldsz then .ok (m, oldsz)
  else allocLoop oldsz newsz turns (PGROUNDUP oldsz) m

def clearpteu (m : Mem) (uva : Nat) : Except Stop Mem :=
  match m.walkpgdir uva false with
  | none => .error .clearpteu
  | some m => .ok (m.setEntry uva ((m.entry uva).map fun x => {x with u := false}))

/-- `uva2ka`; `none` is the null pointer. -/
def uva2ka (m : Mem) (uva : Nat) : Except Stop (Option Page) :=
  match m.walkpgdir uva false with
  | none => .error .wild
  | some m =>
    match m.entry uva with
    | none => .ok none
    | some x => .ok (if x.u then some x.pa else none)

/-- The loop of `copyout`; there is a byte at least for each turn. -/
def copyLoop : Nat → Nat → List Byte → Mem → Except Stop (Mem × Bool)
  | _, _, [], m => .ok (m, true)
  | 0, _, _ :: _, _ => .error .spins
  | n + 1, va, buf, m =>
    let va0 := PGROUNDDOWN va
    match m.uva2ka va0 with
    | .error e => .error e
    | .ok none => .ok (m, false)
    | .ok (some pa0) =>
      let k := min (PGSIZE - (va - va0)) buf.length
      copyLoop n ((va0 + PGSIZE) % 2 ^ 32) (buf.drop k)
        {m with ram := memmove pa0 (va - va0) (buf.take k) m.ram}

/-- `copyout`, with whether it returns 0. -/
def copyout (m : Mem) (va : Nat) (buf : List Byte) : Except Stop (Mem × Bool) :=
  copyLoop buf.length va buf m

end Mem

/-! ### What is mapped at a page -/

namespace Mem

/-- The entry of page `v`, if its table is there. -/
def get (m : Mem) (v : Nat) : Option Pte :=
  if (m.pde (v / 1024)).isSome then m.pte (v / 1024) (v % 1024) else none

/-- The frames of the pages from `lo` on, `n` of them. -/
def frames (m : Mem) (lo n : Nat) : List Page :=
  (List.range' lo n).filterMap fun v => (m.get v).map Pte.pa

/-- The page tables of the user half. -/
def tables (m : Mem) : List Page := (List.range (KERNBASE / 2 ^ 22)).filterMap m.pde

end Mem

variable {m m' : Mem} {v w sz : Nat} {x : Option Pte} {a oldsz n newsz lo : Nat}

theorem PDX_page (hv : v < 2 ^ 20) : PDX (v * PGSIZE) = v / 1024 := by
  unfold PDX PGSIZE
  omega

theorem PTX_page (v : Nat) : PTX (v * PGSIZE) = v % 1024 := by
  unfold PTX PGSIZE
  omega

theorem PDX_addr (a : Nat) : PDX a = PDX (a / PGSIZE * PGSIZE) := by
  unfold PDX PGSIZE
  omega

theorem PTX_addr (a : Nat) : PTX a = PTX (a / PGSIZE * PGSIZE) := by
  unfold PTX PGSIZE
  omega

/-- The page after the last of a table is the first of the next. -/
theorem PGADDR_next (hv : v < 2 ^ 19) :
    ((PGADDR (PDX (v * PGSIZE) + 1) 0 0 + 2 ^ 32 - PGSIZE) % 2 ^ 32 + PGSIZE) % 2 ^ 32 =
      (v / 1024 + 1) * 1024 * PGSIZE := by
  rw [PDX_page (by omega)]
  unfold PGADDR PGSIZE
  omega

theorem PGROUNDUP_eq (hsz : sz ≤ KERNBASE) : PGROUNDUP sz = pages sz * PGSIZE := by
  unfold PGROUNDUP pages PGSIZE KERNBASE at *
  omega

theorem page_lt_iff : v * PGSIZE < sz ↔ v < pages sz := by
  unfold pages PGSIZE
  omega

theorem pages_le_user (hsz : sz ≤ KERNBASE) : pages sz ≤ 2 ^ 19 := by
  unfold pages PGSIZE KERNBASE at *
  omega

theorem lt_of_pages_lt (h : pages oldsz < pages newsz) : oldsz < newsz := by
  unfold pages PGSIZE at h
  omega

theorem next_page (hv : v < 2 ^ 19) : (v * PGSIZE + PGSIZE) % 2 ^ 32 = (v + 1) * PGSIZE := by
  unfold PGSIZE
  omega

namespace Mem

theorem entry_page (hv : v < 2 ^ 20) (m : Mem) :
    m.entry (v * PGSIZE) = m.pte (v / 1024) (v % 1024) := by
  rw [entry, PDX_page hv, PTX_page]

theorem entry_addr (a : Nat) (m : Mem) :
    m.entry a = m.entry (a / PGSIZE * PGSIZE) := by
  rw [entry, entry, PDX_addr, PTX_addr]

theorem setEntry_addr (a : Nat) (m : Mem) (x : Option Pte) :
    m.setEntry a x = m.setEntry (a / PGSIZE * PGSIZE) x := by
  rw [setEntry, setEntry, PDX_addr, PTX_addr]

theorem walkpgdir_addr (a : Nat) (m : Mem) (alloc : Bool) :
    m.walkpgdir a alloc = m.walkpgdir (a / PGSIZE * PGSIZE) alloc := by
  rw [walkpgdir, walkpgdir, PDX_addr]

theorem walkpgdir_page (hv : v < 2 ^ 20) (m : Mem) :
    m.walkpgdir (v * PGSIZE) false = if (m.pde (v / 1024)).isSome then some m else none := by
  rw [walkpgdir, PDX_page hv]
  cases m.pde (v / 1024) with
  | none => rfl
  | some pg => rfl

theorem get_of_table (h : (m.pde (v / 1024)).isSome = true) :
    m.get v = m.pte (v / 1024) (v % 1024) :=
  if_pos h

@[simp]
theorem get_kfree (m : Mem) (pg : Page) (v : Nat) : (m.kfree pg).get v = m.get v := rfl

theorem get_setEntry (hv : v < 2 ^ 20) (h : (m.pde (v / 1024)).isSome = true) :
    (m.setEntry (v * PGSIZE) x).get w = if w = v then x else m.get w := by
  rw [setEntry, PDX_page hv, PTX_page]
  by_cases hw : w = v
  · subst hw
    rw [if_pos rfl, get, if_pos h]
    dsimp only
    rw [update_self, update_self]
  · rw [if_neg hw]
    unfold get
    dsimp only
    by_cases hdir : w / 1024 = v / 1024
    · have hne : w % 1024 ≠ v % 1024 := by omega
      rw [hdir, update_self, update_of_ne hne]
    · rw [update_of_ne hdir]

end Mem

/-! ### deallocuvm -/

/-- The pages from `lo` up to `hi` are gone, and their frames are free. What is not free is as
it was. -/
structure Cleared (m m' : Mem) (lo hi : Nat) : Prop where
  get : ∀ w, m'.get w = if lo ≤ w ∧ w < hi then none else m.get w
  pde : m'.pde = m.pde
  free : m'.free.Perm (m.frames lo (hi - lo) ++ m.free)
  ram : ∀ l, l.1 ∉ m'.free → m'.ram l = m.ram l

namespace Mem

theorem frames_succ (m : Mem) (lo n : Nat) :
    m.frames lo (n + 1) = ((m.get lo).map Pte.pa).toList ++ m.frames (lo + 1) n := by
  rw [frames, List.range'_succ, List.filterMap_cons]
  cases (m.get lo).map Pte.pa with
  | none => rfl
  | some pg => rfl

theorem frames_congr (h : ∀ w, lo ≤ w → w < lo + n → m'.get w = m.get w) :
    m'.frames lo n = m.frames lo n := by
  refine List.filterMap_congr fun w hw => ?_
  obtain ⟨hlo, hhi⟩ := List.mem_range'_1.mp hw
  rw [h w hlo hhi]

theorem frames_eq_nil (h : ∀ w, lo ≤ w → w < lo + n → m.get w = none) :
    m.frames lo n = [] := by
  refine List.filterMap_eq_nil_iff.mpr fun w hw => ?_
  obtain ⟨hlo, hhi⟩ := List.mem_range'_1.mp hw
  rw [h w hlo hhi]
  rfl

theorem frames_add (m : Mem) (lo a b : Nat) :
    m.frames lo (a + b) = m.frames lo a ++ m.frames (lo + a) b := by
  rw [frames, ← List.range'_append_1, List.filterMap_append]
  rfl

end Mem

namespace Cleared

variable {lo mid hi : Nat}

theorem nothing (h : hi ≤ lo) (m : Mem) : Cleared m m lo hi where
  get w := by rw [if_neg (by omega)]
  pde := rfl
  free := by
    rw [Nat.sub_eq_zero_of_le h]
    exact List.Perm.refl _
  ram _ _ := rfl

theorem skip (h : Cleared m m' mid hi) (hmid : lo ≤ mid)
    (hnone : ∀ w, lo ≤ w → w < mid → m.get w = none) : Cleared m m' lo hi := by
  have hframes : m.frames lo (hi - lo) = m.frames mid (hi - mid) := by
    by_cases hhi : mid ≤ hi
    · have hsum : hi - lo = (mid - lo) + (hi - mid) := by omega
      rw [hsum, Mem.frames_add, Nat.add_sub_cancel' hmid,
        Mem.frames_eq_nil fun w hlo hw => hnone w hlo (by omega)]
      rfl
    · rw [Nat.sub_eq_zero_of_le (Nat.le_of_not_le hhi),
        Mem.frames_eq_nil fun w hlo hw => hnone w hlo (by omega)]
      rfl
  refine ⟨fun w => ?_, h.pde, by rw [hframes]; exact h.free, h.ram⟩
  rw [h.get w]
  by_cases hw : lo ≤ w ∧ w < mid
  · rw [hnone w hw.1 hw.2, ite_self, ite_self]
  · have hiff : mid ≤ w ∧ w < hi ↔ lo ≤ w ∧ w < hi := by omega
    rw [if_congr hiff rfl rfl]

/-- A page with a frame, and the pages after it. -/
theorem first {x : Pte} (hlo : lo < 2 ^ 20) (hhi : lo < hi) (hx : m.get lo = some x)
    (h : Cleared ((m.kfree x.pa).setEntry (lo * PGSIZE) none) m' (lo + 1) hi) :
    Cleared m m' lo hi := by
  have htable : (m.pde (lo / 1024)).isSome = true := by
    by_contra hnot
    rw [Mem.get, if_neg hnot] at hx
    cases hx
  have hget : ∀ w, ((m.kfree x.pa).setEntry (lo * PGSIZE) none).get w =
      if w = lo then none else m.get w := fun w => by
    rw [Mem.get_setEntry hlo (m := m.kfree x.pa) htable, Mem.get_kfree]
  have hrest : ((m.kfree x.pa).setEntry (lo * PGSIZE) none).frames (lo + 1) (hi - (lo + 1)) =
      m.frames (lo + 1) (hi - (lo + 1)) :=
    Mem.frames_congr fun w hw _ => by rw [hget, if_neg (by omega)]
  have hframes : m.frames lo (hi - lo) = x.pa :: m.frames (lo + 1) (hi - (lo + 1)) := by
    have hsucc : hi - lo = hi - (lo + 1) + 1 := by omega
    rw [hsucc, Mem.frames_succ, hx]
    rfl
  refine ⟨fun w => ?_, h.pde, ?_, fun l hl => ?_⟩
  · rw [h.get, hget]
    by_cases hw : w = lo
    · rw [if_pos hw, ite_self, if_pos (by omega)]
    · have hiff : lo + 1 ≤ w ∧ w < hi ↔ lo ≤ w ∧ w < hi := by omega
      rw [if_neg hw, if_congr hiff rfl rfl]
  · rw [hframes]
    have hfree := h.free
    rw [hrest] at hfree
    exact hfree.trans List.perm_middle
  · have hne : l.1 ≠ x.pa := fun heq =>
      hl (heq ▸ h.free.mem_iff.mpr (List.mem_append_right _ List.mem_cons_self))
    rw [h.ram l hl]
    exact if_neg hne

end Cleared

namespace Mem

/-- The loop of `deallocuvm` ends, and clears what it is to. -/
theorem deallocLoop_spec (hsz : oldsz ≤ KERNBASE) (hn : pages oldsz - v < n) (m : Mem) :
    ∃ m', deallocLoop oldsz n (v * PGSIZE) m = .ok m' ∧ Cleared m m' v (pages oldsz) := by
  have hpages : pages oldsz ≤ 2 ^ 19 := pages_le_user hsz
  induction n generalizing v m with
  | zero => exact absurd hn (Nat.not_lt_zero _)
  | succ n ih =>
    rw [deallocLoop]
    by_cases hlt : v < pages oldsz
    · rw [if_pos (page_lt_iff.mpr hlt), walkpgdir_page (by omega)]
      by_cases htable : (m.pde (v / 1024)).isSome = true
      · rw [if_pos htable]
        dsimp only
        rw [next_page (by omega), entry_page (by omega), ← get_of_table htable]
        cases hx : m.get v with
        | none =>
          obtain ⟨m', hm', hcleared⟩ := ih (v := v + 1) (by omega) m
          refine ⟨m', hm', hcleared.skip (Nat.le_succ v) fun w hlo hw => ?_⟩
          obtain rfl : w = v := by omega
          exact hx
        | some x =>
          obtain ⟨m', hm', hcleared⟩ :=
            ih (v := v + 1) (by omega) ((m.kfree x.pa).setEntry (v * PGSIZE) none)
          exact ⟨m', hm', hcleared.first (by omega) hlt hx⟩
      · -- on to the first page of the next table
        rw [if_neg htable]
        dsimp only
        rw [PGADDR_next (by omega)]
        obtain ⟨m', hm', hcleared⟩ := ih (v := (v / 1024 + 1) * 1024) (by omega) m
        refine ⟨m', hm', hcleared.skip (by omega) fun w hlo hw => ?_⟩
        have hdir : w / 1024 = v / 1024 := by omega
        rw [get, hdir, if_neg htable]
    · rw [if_neg fun h => hlt (page_lt_iff.mp h)]
      exact ⟨m, rfl, Cleared.nothing (Nat.le_of_not_lt hlt) m⟩

theorem deallocuvm_spec (hlt : newsz < oldsz) (hsz : oldsz ≤ KERNBASE) (m : Mem) :
    ∃ m', m.deallocuvm oldsz newsz = .ok (m', newsz) ∧
      Cleared m m' (pages newsz) (pages oldsz) := by
  obtain ⟨m', hm', hcleared⟩ := deallocLoop_spec (v := pages newsz) (n := turns) hsz (by
    have hpages : pages oldsz ≤ 2 ^ 19 := pages_le_user hsz
    unfold turns
    omega) m
  refine ⟨m', ?_, hcleared⟩
  rw [deallocuvm, if_neg (Nat.not_le.mpr hlt), PGROUNDUP_eq (by omega), hm']
  rfl

end Mem

end ThreadKernel.Paging
