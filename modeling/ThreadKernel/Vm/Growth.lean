import ThreadKernel.Vm.Paging

/-! `allocuvm` by addresses: what a growth takes from `kalloc` and where it puts it, page after
page, and how a growth that fails is taken back.

`walkpgdir` takes pages for tables of its own. They stay in the directory when a growth fails,
and `freevm` finds them there; what comes back is the frames. -/
namespace ThreadKernel.Paging

open Bytes Function

variable {m m' m₁ : Mem} {v w lo hi : Nat} {tabs : List Page} {oldsz newsz : Nat}

/-! ### One page -/

/-- Tables were added for pages that `kalloc` handed out, and nothing else. -/
structure Tabled (m m' : Mem) (tabs : List Page) : Prop where
  get : ∀ w, m'.get w = m.get w
  kept : ∀ d pg, m.pde d = some pg → m'.pde d = some pg
  tables : m'.tables.Perm (tabs ++ m.tables)
  free : tabs ++ m'.free = m.free
  ram : ∀ l, m'.ram l = if l.1 ∈ tabs then 0 else m.ram l

namespace Mem

/-- A new entry of the directory is a new table. -/
theorem tables_update {d : Nat} {pg : Page} (hd : d < KERNBASE / 2 ^ 22) (hnone : m.pde d = none)
    (hm' : m'.pde = update m.pde d (some pg)) : m'.tables.Perm (pg :: m.tables) := by
  have hmem : d ∈ List.range (KERNBASE / 2 ^ 22) := List.mem_range.mpr hd
  have hsplit := List.perm_cons_erase hmem
  have hrest : ((List.range (KERNBASE / 2 ^ 22)).erase d).filterMap m'.pde =
      ((List.range (KERNBASE / 2 ^ 22)).erase d).filterMap m.pde := by
    refine List.filterMap_congr fun d' hd' => ?_
    have hne : d' ≠ d := fun h => (List.nodup_range.not_mem_erase) (h ▸ hd')
    rw [hm', update_of_ne hne]
  have hnew := hsplit.filterMap m'.pde
  have hold := hsplit.filterMap m.pde
  rw [List.filterMap_cons, hrest, hm', update_self] at hnew
  rw [List.filterMap_cons, hnone] at hold
  rw [tables, hm']
  exact hnew.trans (hold.symm.cons pg)

theorem walkpgdir_spec (hv : v < 2 ^ 19) (m : Mem) :
    (m.walkpgdir (v * PGSIZE) true = none ∧ m.pde (v / 1024) = none ∧ m.free = []) ∨
      ∃ m' tabs, m.walkpgdir (v * PGSIZE) true = some m' ∧ Tabled m m' tabs ∧
        (m'.pde (v / 1024)).isSome = true := by
  rw [walkpgdir, PDX_page (by omega)]
  cases hdir : m.pde (v / 1024) with
  | some pg =>
    refine .inr ⟨m, [], rfl, ⟨fun _ => rfl, fun _ _ h => h, ?_, rfl, fun _ => ?_⟩, ?_⟩
    · rw [List.nil_append]
    · rw [if_neg List.not_mem_nil]
    · rw [hdir]
      rfl
  | none =>
    rw [if_pos rfl, kalloc]
    cases hfree : m.free with
    | nil => exact .inl ⟨rfl, rfl, rfl⟩
    | cons pg free =>
      refine .inr ⟨_, [pg], rfl, ⟨fun w => ?_, fun d pg' hd => ?_, ?_, ?_, fun l => ?_⟩, ?_⟩
      · by_cases hw : w / 1024 = v / 1024
        · -- nothing is in a new table, and nothing was there without one
          rw [get, get, hw, hdir]
          simp only [update_self]
          rfl
        · simp only [get, update_of_ne hw]
      · have hne : d ≠ v / 1024 := fun h => by
          rw [h, hdir] at hd
          cases hd
        exact (update_of_ne hne _ _).trans hd
      · rw [List.singleton_append]
        refine tables_update ?_ hdir rfl
        unfold KERNBASE
        omega
      · exact hfree.symm
      · simp only [memset, List.mem_singleton]
      · simp only [update_self, Option.isSome_some]

theorem mappages_page (hv : v < 2 ^ 19) (m : Mem) (pa : Page) (w u : Bool) :
    m.mappages (v * PGSIZE) PGSIZE pa w u =
      match m.walkpgdir (v * PGSIZE) true with
      | none => .ok (m, false)
      | some m =>
        if (m.entry (v * PGSIZE)).isSome then .error .remap
        else .ok (m.setEntry (v * PGSIZE) (some ⟨pa, w, u⟩), true) := by
  have hdown : PGROUNDDOWN (v * PGSIZE) = v * PGSIZE := by
    unfold PGROUNDDOWN PGSIZE
    omega
  have hlast : PGROUNDDOWN ((v * PGSIZE + PGSIZE - 1) % 2 ^ 32) = v * PGSIZE := by
    unfold PGROUNDDOWN PGSIZE
    omega
  rw [mappages, hlast, hdown, turns, mapLoop]
  cases m.walkpgdir (v * PGSIZE) true with
  | none => rfl
  | some m' =>
    dsimp only
    rw [if_pos (rfl : v * PGSIZE = v * PGSIZE)]

end Mem

/-! ### A growth -/

/-- The `n` pages from `lo` on have frames that `kalloc` handed out, zeroed, writable and the
user's; no other page changed. `tabs` are the tables that were added. -/
structure Grown (m m' : Mem) (lo n : Nat) (tabs : List Page) : Prop where
  mapped : ∀ w, lo ≤ w → w < lo + n →
    ∃ pa, m'.get w = some ⟨pa, true, true⟩ ∧ ∀ off, m'.ram (pa, off) = 0
  other : ∀ w, ¬(lo ≤ w ∧ w < lo + n) → m'.get w = m.get w
  kept : ∀ d pg, m.pde d = some pg → m'.pde d = some pg
  tables : m'.tables.Perm (tabs ++ m.tables)
  free : (m'.frames lo n ++ tabs ++ m'.free).Perm m.free
  ram : ∀ l, l.1 ∉ m.free → m'.ram l = m.ram l

namespace Grown

variable {n : Nat} {mem : Page} {free tabs' : List Page} {m₂ : Mem}

theorem nothing (m : Mem) (lo : Nat) : Grown m m lo 0 [] where
  mapped w hlo hw := by omega
  other _ _ := rfl
  kept _ _ h := h
  tables := by rw [List.nil_append]
  free := List.Perm.refl _
  ram _ _ := rfl

/-- A turn of the loop: the frame, perhaps a table, and the entry. -/
theorem page (h : Grown m m₁ lo n tabs) (hv : lo + n < 2 ^ 19) (hfree : m₁.free = mem :: free)
    (ht : Tabled (Mem.memset {m₁ with free := free} mem 0) m₂ tabs')
    (hdir : (m₂.pde ((lo + n) / 1024)).isSome = true) :
    Grown m (m₂.setEntry ((lo + n) * PGSIZE) (some ⟨mem, true, true⟩)) lo (n + 1)
      (tabs' ++ tabs) := by
  have hget : ∀ w, (m₂.setEntry ((lo + n) * PGSIZE) (some ⟨mem, true, true⟩)).get w =
      if w = lo + n then some ⟨mem, true, true⟩ else m₁.get w := fun w => by
    rw [Mem.get_setEntry (by omega) hdir, ht.get]
    rfl
  have hram : ∀ l, m₂.ram l = if l.1 ∈ tabs' then 0 else if l.1 = mem then 0 else m₁.ram l := ht.ram
  have htabs : tabs' ++ m₂.free = free := ht.free
  have hframes : (m₂.setEntry ((lo + n) * PGSIZE) (some ⟨mem, true, true⟩)).frames lo (n + 1) =
      m₁.frames lo n ++ [mem] := by
    rw [Mem.frames_add, Mem.frames_congr fun w _ hw => (hget w).trans (if_neg (by omega)),
      Mem.frames_succ, hget, if_pos rfl]
    rfl
  refine ⟨fun w hlo hw => ?_, fun w hw => ?_, fun d pg hd => ?_, ?_, ?_, fun l hl => ?_⟩
  · by_cases hlast : w = lo + n
    · refine ⟨mem, (hget w).trans (if_pos hlast), fun off => (hram (mem, off)).trans ?_⟩
      rw [if_pos rfl, ite_self]
    · obtain ⟨pa, hpa, hzero⟩ := h.mapped w hlo (by omega)
      refine ⟨pa, (hget w).trans ((if_neg hlast).trans hpa), fun off => (hram (pa, off)).trans ?_⟩
      rw [hzero, ite_self, ite_self]
  · rw [hget, if_neg (by omega), h.other w (by omega)]
  · exact ht.kept d pg (h.kept d pg hd)
  · rw [List.append_assoc]
    exact ht.tables.trans (h.tables.append_left tabs')
  · rw [hframes]
    refine List.Perm.trans ?_ h.free
    rw [hfree, ← htabs, List.perm_iff_count]
    intro pg
    simp only [Mem.setEntry, List.count_append, List.count_cons, List.count_nil]
    omega
  · have hpages : ∀ pg ∈ mem :: free, pg ∈ m.free := fun pg hpg =>
      h.free.mem_iff.mp (List.mem_append_right _ (hfree ▸ hpg))
    have htab : l.1 ∉ tabs' := fun hmem =>
      hl (hpages _ (List.mem_cons_of_mem _ (htabs ▸ List.mem_append_left _ hmem)))
    have hmem : l.1 ≠ mem := fun heq => hl (hpages _ (heq ▸ List.mem_cons_self))
    rw [← h.ram l hl]
    exact (hram l).trans ((if_neg htab).trans (if_neg hmem))

/-- Where the pages after a growth are absent, clearing past its end frees its frames, and only
the tables stay. -/
theorem clear (h : Grown m m₁ lo n tabs) (hhi : lo + n ≤ hi)
    (hnone : ∀ w, lo ≤ w → w < hi → m.get w = none) (hclear : Cleared m₁ m₂ lo hi) :
    m₂.free.Perm (m₁.frames lo n ++ m₁.free) ∧ Grown m m₂ lo 0 tabs := by
  have hframes : m₁.frames lo (hi - lo) = m₁.frames lo n := by
    have hsum : hi - lo = n + (hi - (lo + n)) := by omega
    have hrest : m₁.frames (lo + n) (hi - (lo + n)) = [] := Mem.frames_eq_nil fun w hlo hw => by
      rw [h.other w (by omega), hnone w (by omega) (by omega)]
    rw [hsum, Mem.frames_add, hrest, List.append_nil]
  have hfree : m₂.free.Perm (m₁.frames lo n ++ m₁.free) := hframes ▸ hclear.free
  have hall : (tabs ++ m₂.free).Perm m.free := by
    refine ((hfree.append_left tabs).trans ?_).trans h.free
    rw [← List.append_assoc]
    exact List.perm_append_comm.append_right _
  refine ⟨hfree, fun w hlo hw => by omega, fun w _ => ?_, fun d pg hd => ?_, ?_, hall,
    fun l hl => ?_⟩
  · rw [hclear.get]
    by_cases hw : lo ≤ w ∧ w < hi
    · rw [if_pos hw, hnone w hw.1 hw.2]
    · rw [if_neg hw, h.other w (by omega)]
  · rw [hclear.pde]
    exact h.kept d pg hd
  · rw [Mem.tables, hclear.pde]
    exact h.tables
  · rw [hclear.ram l fun hmem => hl (hall.mem_iff.mp (List.mem_append_right _ hmem)), h.ram l hl]

end Grown

theorem Cleared.giveBack {mem : Page} {free : List Page} (hfree : m.free = mem :: free)
    (h : Cleared (Mem.memset {m with free := free} mem 0) m' lo hi) :
    Cleared m (m'.kfree mem) lo hi := by
  refine ⟨h.get, h.pde, ?_, fun l hl => ?_⟩
  · rw [hfree]
    exact (h.free.cons mem).trans List.perm_middle.symm
  · have hl' : l.1 ≠ mem ∧ l.1 ∉ m'.free := by
      exact not_or.mp fun hor => hl (List.mem_cons.mpr hor)
    calc (m'.kfree mem).ram l = m'.ram l := if_neg hl'.1
      _ = m.ram l := (h.ram l hl'.2).trans (if_neg hl'.1)

namespace Mem

/-- The loop of `allocuvm` from a growth of `j` pages on. -/
theorem allocLoop_spec {n j : Nat} (hsz : newsz < KERNBASE)
    (hnone : ∀ w, pages oldsz ≤ w → w < 2 ^ 19 → m.get w = none)
    (hj : pages oldsz + j ≤ pages newsz) (hn : pages newsz - (pages oldsz + j) < n)
    (h : Grown m m₁ (pages oldsz) j tabs) :
    ∃ m' r tabs', allocLoop oldsz newsz n ((pages oldsz + j) * PGSIZE) m₁ = .ok (m', r) ∧
      (r = newsz ∧ Grown m m' (pages oldsz) (pages newsz - pages oldsz) tabs' ∨
        r = 0 ∧ Grown m m' (pages oldsz) 0 tabs') := by
  have hpages : pages newsz ≤ 2 ^ 19 := pages_le_user hsz.le
  induction n generalizing m₁ j tabs with
  | zero => exact absurd hn (Nat.not_lt_zero _)
  | succ n ih =>
    rw [allocLoop]
    by_cases hlt : pages oldsz + j < pages newsz
    · rw [if_pos (page_lt_iff.mpr hlt), kalloc]
      have hold : oldsz < newsz := lt_of_pages_lt (by omega)
      have hclear : ∀ m₂, Cleared m₁ m₂ (pages oldsz) (pages newsz) →
          Grown m m₂ (pages oldsz) 0 tabs := fun m₂ hm₂ =>
        (h.clear hj (fun w hlo hw => hnone w hlo (by omega)) hm₂).2
      cases hfree : m₁.free with
      | nil =>
        obtain ⟨m₂, hm₂, hcleared⟩ := deallocuvm_spec hold hsz.le m₁
        refine ⟨m₂, 0, tabs, ?_, .inr ⟨rfl, hclear m₂ hcleared⟩⟩
        rw [hm₂]
        rfl
      | cons mem free =>
        dsimp only
        rw [mappages_page (by omega)]
        generalize hm₀ : memset {m₁ with free := free} mem 0 = m₀
        obtain ⟨hwalk, -, -⟩ | ⟨m₂, tabs', hwalk, htabled, hdir⟩ :=
          walkpgdir_spec (v := pages oldsz + j) (by omega) m₀
        · obtain ⟨m₂, hm₂, hcleared⟩ := deallocuvm_spec hold hsz.le m₀
          rw [← hm₀] at hcleared
          refine ⟨m₂.kfree mem, 0, tabs, ?_, .inr ⟨rfl, hclear _ (hcleared.giveBack hfree)⟩⟩
          rw [hwalk]
          dsimp only
          rw [hm₂]
          rfl
        · have habsent : m₂.entry ((pages oldsz + j) * PGSIZE) = none := by
            rw [entry_page (by omega), ← get_of_table hdir, htabled.get, ← hm₀]
            exact (h.other _ (by omega)).trans (hnone _ (by omega) (by omega))
          have hgrown := h.page (by omega) hfree (hm₀ ▸ htabled) hdir
          obtain ⟨m', r, tabs'', hrest, hout⟩ := ih (by omega) (by omega) hgrown
          refine ⟨m', r, tabs'', ?_, hout⟩
          rw [hwalk]
          dsimp only
          rw [habsent, if_neg (by simp)]
          rw [next_page (by omega)]
          exact hrest
    · rw [if_neg fun hlt' => hlt (page_lt_iff.mp hlt')]
      refine ⟨m₁, newsz, tabs, rfl, .inl ⟨rfl, ?_⟩⟩
      have hdone : pages newsz - pages oldsz = j := by omega
      rw [hdone]
      exact h

theorem allocuvm_spec (hle : oldsz ≤ newsz)
    (hnone : ∀ w, pages oldsz ≤ w → w < 2 ^ 19 → m.get w = none) :
    ∃ m' r tabs, m.allocuvm oldsz newsz = .ok (m', r) ∧
      (r = newsz ∧ newsz < KERNBASE ∧
          Grown m m' (pages oldsz) (pages newsz - pages oldsz) tabs ∨
        r = 0 ∧ Grown m m' (pages oldsz) 0 tabs) := by
  by_cases hsz : newsz < KERNBASE
  · have hmono : pages oldsz ≤ pages newsz := pages_mono hle
    have hpages : pages newsz ≤ 2 ^ 19 := pages_le_user hsz.le
    have hn : pages newsz - (pages oldsz + 0) < turns := by
      unfold turns
      omega
    obtain ⟨m', r, tabs, hloop, hout⟩ :=
      allocLoop_spec hsz hnone (by omega) hn (Grown.nothing m (pages oldsz))
    refine ⟨m', r, tabs, ?_, hout.imp_left fun h => ⟨h.1, hsz, h.2⟩⟩
    rw [allocuvm, if_neg (Nat.not_le.mpr hsz), if_neg (Nat.not_lt.mpr hle),
      PGROUNDUP_eq (by omega)]
    exact hloop
  · exact ⟨m, 0, [], by rw [allocuvm, if_pos (Nat.le_of_not_lt hsz)],
      .inr ⟨rfl, Grown.nothing m _⟩⟩

theorem deallocuvm_returns (hsz : oldsz ≤ KERNBASE) (newsz : Nat) (m : Mem) :
    ∃ m', m.deallocuvm oldsz newsz = .ok (m', min oldsz newsz) ∧
      Cleared m m' (pages newsz) (pages oldsz) := by
  by_cases hlt : newsz < oldsz
  · obtain ⟨m', hm', hcleared⟩ := deallocuvm_spec hlt hsz m
    exact ⟨m', by rw [hm', Nat.min_eq_right hlt.le], hcleared⟩
  · have hle := Nat.le_of_not_lt hlt
    exact ⟨m, by rw [deallocuvm, if_pos hle, Nat.min_eq_left hle],
      Cleared.nothing (pages_mono hle) m⟩

end Mem

/-- Where the user has no page from `oldsz` on, `allocuvm` either grows the address space or
leaves it as it was, with the tables it added; `deallocuvm` takes a growth back, and returns
from every directory. A size below the old one is no growth. -/
theorem allocuvm_grows_or_restores (m : Mem) (oldsz newsz : Nat)
    (hnone : ∀ v, PGROUNDUP oldsz ≤ v * PGSIZE → v * PGSIZE < KERNBASE → m.get v = none) :
    (oldsz ≤ newsz → ∃ m' r tabs, m.allocuvm oldsz newsz = .ok (m', r) ∧
      (r = newsz ∧ Grown m m' (pages oldsz) (pages newsz - pages oldsz) tabs ∧
          (∃ m'', m'.deallocuvm newsz oldsz = .ok (m'', oldsz) ∧
            m''.free.Perm (m'.frames (pages oldsz) (pages newsz - pages oldsz) ++ m'.free) ∧
            Grown m m'' (pages oldsz) 0 tabs) ∨
        r = 0 ∧ Grown m m' (pages oldsz) 0 tabs)) ∧
    (newsz < oldsz → m.allocuvm oldsz newsz = .ok (m, if KERNBASE ≤ newsz then 0 else oldsz)) ∧
    ∀ (d : Mem) (old new : Nat), old ≤ KERNBASE →
      ∃ d', d.deallocuvm old new = .ok (d', min old new) ∧ Cleared d d' (pages new) (pages old) := by
  refine ⟨fun hle => ?_, fun hlt => ?_, fun d old new hold => Mem.deallocuvm_returns hold new d⟩
  · by_cases hsz : newsz < KERNBASE
    · have habsent : ∀ w, pages oldsz ≤ w → w < 2 ^ 19 → m.get w = none := fun w hlo hw =>
        hnone w (by rw [PGROUNDUP_eq (by omega)]; exact Nat.mul_le_mul_right _ hlo) (by
          unfold PGSIZE KERNBASE
          omega)
      obtain ⟨m', r, tabs, hm', hgrown | hfailed⟩ := Mem.allocuvm_spec hle habsent
      · obtain ⟨hr, -, hgrown⟩ := hgrown
        obtain ⟨m'', hm'', hcleared⟩ := Mem.deallocuvm_returns hsz.le oldsz m'
        rw [Nat.min_eq_right hle] at hm''
        have hmono : pages oldsz ≤ pages newsz := pages_mono hle
        have hpages : pages newsz ≤ 2 ^ 19 := pages_le_user hsz.le
        obtain ⟨hfree, hback⟩ :=
          hgrown.clear (by omega) (fun w hlo hw => habsent w hlo (by omega)) hcleared
        exact ⟨m', r, tabs, hm', .inl ⟨hr, hgrown, m'', hm'', hfree, hback⟩⟩
      · exact ⟨m', r, tabs, hm', .inr hfailed⟩
    · exact ⟨m, 0, [], by rw [Mem.allocuvm, if_pos (Nat.le_of_not_lt hsz)],
        .inr ⟨rfl, Grown.nothing m _⟩⟩
  · rw [Mem.allocuvm]
    by_cases hsz : KERNBASE ≤ newsz
    · rw [if_pos hsz, if_pos hsz]
    · rw [if_neg hsz, if_neg hsz, if_pos hlt]

/-- Nothing is mapped, and two pages are free. -/
def twoPages : Mem := ⟨fun _ => none, fun _ _ => none, fun _ => 0, [7, 8]⟩

theorem allocuvm_grows_or_restores_two :
    (∀ v, twoPages.get v = none) ∧
    ∃ m' r tabs, twoPages.allocuvm 0 PGSIZE = .ok (m', r) ∧
      (r = PGSIZE ∧ Grown twoPages m' (pages 0) (pages PGSIZE - pages 0) tabs ∧
          (∃ m'', m'.deallocuvm PGSIZE 0 = .ok (m'', 0) ∧
            m''.free.Perm (m'.frames (pages 0) (pages PGSIZE - pages 0) ++ m'.free) ∧
            Grown twoPages m'' (pages 0) 0 tabs) ∨
        r = 0 ∧ Grown twoPages m' (pages 0) 0 tabs) :=
  ⟨fun _ => rfl, (allocuvm_grows_or_restores twoPages 0 PGSIZE fun _ _ _ => rfl).1 (Nat.zero_le _)⟩

/-- A smaller size is answered with the old one. Two pages do for one page and its table: the
second growth fails, and the table is not given back. -/
theorem allocuvm_neither :
    (twoPages.allocuvm (2 * PGSIZE) PGSIZE).map Prod.snd = .ok (2 * PGSIZE) ∧
      (twoPages.allocuvm 0 (2 * PGSIZE)).map (fun x => (x.2, x.1.free)) = .ok (0, [7]) ∧
      twoPages.free = [7, 8] := by
  refine ⟨?_, ?_, ?_⟩
  · rfl
  · decide +kernel
  · rfl

end ThreadKernel.Paging
