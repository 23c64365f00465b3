import ThreadKernel.Vm.Growth

/-! `growproc` and the stack of `thread_create`, by addresses.

Both start from the size of the process, which need not be a multiple of the page size, and
ask `allocuvm` for what is above it. `growproc` reads 0 as a failure of `allocuvm` and of
`deallocuvm`, though the latter also returns it as a size. -/
namespace ThreadKernel.Paging

open Bytes Function

variable {m m' : Mem} {sz newsz v : Nat} {tabs : List Page} {x : Pte} {n : Nat}

/-- A process of size `sz` has the pages below it, and no page of memory is in two places. -/
structure Sound (m : Mem) (sz : Nat) : Prop where
  below : sz < KERNBASE
  exact : ∀ v, v < 2 ^ 19 → ((m.get v).isSome = true ↔ v < pages sz)
  once : (m.frames 0 (pages sz) ++ m.tables ++ m.free).Nodup

/-- The page is there as it was, with what is in it. -/
def Same (m m' : Mem) (v : Nat) : Prop :=
  m'.get v = m.get v ∧ ∀ x, m.get v = some x → ∀ off, m'.ram (x.pa, off) = m.ram (x.pa, off)

theorem Same.refl (m : Mem) (v : Nat) : Same m m v := ⟨rfl, fun _ _ _ => rfl⟩

namespace Sound

theorem absent (h : Sound m sz) (hlo : pages sz ≤ v) (hhi : v < 2 ^ 19) : m.get v = none := by
  have hnot : ¬ (m.get v).isSome = true := fun hsome => by
    have := (h.exact v hhi).mp hsome
    omega
  exact Option.not_isSome_iff_eq_none.mp hnot

theorem mem_frames {lo : Nat} (hx : m.get v = some x) (hlo : lo ≤ v) (hhi : v < lo + n) :
    x.pa ∈ m.frames lo n := by
  refine List.mem_filterMap.mpr ⟨v, List.mem_range'_1.mpr ⟨hlo, hhi⟩, ?_⟩
  rw [hx]
  rfl

section
variable (h : Sound m sz)
include h

theorem not_free (hv : v < pages sz) (hx : m.get v = some x) :
    x.pa ∉ m.free := fun hfree =>
  (List.disjoint_of_nodup_append h.once)
    (List.mem_append_left _ (mem_frames hx (Nat.zero_le v) (by omega))) hfree

theorem same (hgrown : Grown m m' (pages sz) n tabs) (hv : v < pages sz) : Same m m' v :=
  ⟨hgrown.other v (by omega), fun _ hx _ => hgrown.ram _ (h.not_free hv hx)⟩

theorem grown (hle : pages sz ≤ pages newsz) (hnew : newsz < KERNBASE)
    (hgrown : Grown m m' (pages sz) (pages newsz - pages sz) tabs) : Sound m' newsz := by
  refine ⟨hnew, fun v hv => ?_, ?_⟩
  · by_cases hlo : pages sz ≤ v
    · by_cases hhi : v < pages newsz
      · obtain ⟨pa, hpa, -⟩ := hgrown.mapped v hlo (by omega)
        rw [hpa]
        exact ⟨fun _ => hhi, fun _ => rfl⟩
      · rw [hgrown.other v (by omega), h.absent hlo hv]
        simp [hhi]
    · rw [hgrown.other v (by omega), h.exact v hv]
      omega
  · have hframes : m'.frames 0 (pages newsz) =
        m.frames 0 (pages sz) ++ m'.frames (pages sz) (pages newsz - pages sz) := by
      have hsum : pages newsz = pages sz + (pages newsz - pages sz) := by omega
      rw [hsum, Mem.frames_add, Nat.zero_add, Nat.add_sub_cancel_left,
        Mem.frames_congr fun w _ hw => hgrown.other w (by omega)]
    refine (List.Perm.nodup_iff ?_).mpr h.once
    rw [hframes, List.perm_iff_count]
    intro pg
    have htables := hgrown.tables.count_eq pg
    have hfree := hgrown.free.count_eq pg
    simp only [List.count_append] at htables hfree ⊢
    omega

theorem failed (hgrown : Grown m m' (pages sz) 0 tabs) : Sound m' sz := by
  rw [← Nat.sub_self (pages sz)] at hgrown
  exact h.grown (Nat.le_refl _) h.below hgrown

theorem cleared (hle : newsz ≤ sz) (hclear : Cleared m m' (pages newsz) (pages sz)) :
    Sound m' newsz ∧ ∀ v, v < pages newsz → Same m m' v := by
  have hpages : pages newsz ≤ pages sz := pages_mono hle
  have hkeep : ∀ v, v < pages newsz → m'.get v = m.get v := fun v hv => by
    rw [hclear.get, if_neg (by omega)]
  have hframes : m.frames 0 (pages sz) =
      m'.frames 0 (pages newsz) ++ m.frames (pages newsz) (pages sz - pages newsz) := by
    have hsum : pages sz = pages newsz + (pages sz - pages newsz) := by omega
    rw [hsum, Mem.frames_add, Nat.zero_add, Nat.add_sub_cancel_left,
      Mem.frames_congr fun w _ hw => hkeep w (by omega)]
  have honce : (m'.frames 0 (pages newsz) ++ m'.tables ++ m'.free).Nodup := by
    refine (List.Perm.nodup_iff ?_).mpr h.once
    rw [hframes, Mem.tables, hclear.pde, ← Mem.tables, List.perm_iff_count]
    intro pg
    have hfree := hclear.free.count_eq pg
    simp only [List.count_append] at hfree ⊢
    omega
  have hsound : Sound m' newsz := by
    refine ⟨Nat.lt_of_le_of_lt hle h.below, fun v hv => ?_, honce⟩
    rw [hclear.get]
    by_cases hrange : pages newsz ≤ v ∧ v < pages sz
    · rw [if_pos hrange]
      simp [hrange.1]
    · rw [if_neg hrange, h.exact v hv]
      omega
  refine ⟨hsound, fun v hv => ⟨hkeep v hv, fun x hx off => hclear.ram _ ?_⟩⟩
  exact hsound.not_free hv ((hkeep v hv).trans hx)

end

end Sound

/-! ### growproc -/

/-- `growproc(n)`: the memory and the size it leaves, and whether it returns 0. -/
def growproc (m : Mem) (sz : Nat) (n : Word) : Except Stop (Mem × Nat × Bool) :=
  if 0 < n.toInt then do
    let (m, r) ← m.allocuvm sz ((sz + n.toNat) % 2 ^ 32)
    if r = 0 then return (m, sz, false) else return (m, r, true)
  else if n.toInt < 0 then do
    let (m, r) ← m.deallocuvm sz ((sz + n.toNat) % 2 ^ 32)
    if r = 0 then return (m, sz, false) else return (m, r, true)
  else return (m, sz, true)

/-- `m'` has the pages of size `newsz`: those `m` had too as they were, the others zeroed. -/
structure Resized (m m' : Mem) (sz newsz : Nat) : Prop where
  sound : Sound m' newsz
  common : ∀ v, v < pages sz → v < pages newsz → Same m m' v
  new : ∀ v, pages sz ≤ v → v < pages newsz →
    ∃ pa, m'.get v = some ⟨pa, true, true⟩ ∧ ∀ off, m'.ram (pa, off) = 0

/-- `m'` has the pages of `m` as they were; the pages that are no longer free are tables. -/
structure Restored (m m' : Mem) (sz : Nat) : Prop where
  sound : Sound m' sz
  same : ∀ v, m'.get v = m.get v ∧ (v < pages sz → Same m m' v)
  free : ∃ tabs, m'.tables.Perm (tabs ++ m.tables) ∧ (tabs ++ m'.free).Perm m.free

theorem growproc_grow (h : Sound m sz) {n : Word} (hn : 0 < n.toInt) :
    ∃ m' sz' ok, growproc m sz n = .ok (m', sz', ok) ∧
      if ok then (sz' : Int) = sz + n.toInt ∧ Resized m m' sz sz'
      else sz' = sz ∧ Restored m m' sz := by
  have hbelow : sz < 2 ^ 31 := h.below
  have hsum : (sz + n.toNat) % 2 ^ 32 = sz + n.toNat ∧ n.toInt = n.toNat := by
    have hcond := BitVec.toInt_eq_toNat_cond n
    split at hcond <;> omega
  have hle : sz ≤ sz + n.toNat := Nat.le_add_right _ _
  have hmono := pages_mono hle
  obtain ⟨m', r, tabs, hm', hout⟩ := Mem.allocuvm_spec hle fun w hlo hhi => h.absent hlo hhi
  have hcall : growproc m sz n =
      if r = 0 then .ok (m', sz, false) else .ok (m', r, true) := by
    rw [growproc, if_pos hn, hsum.1, hm']
    rfl
  obtain ⟨hr, hnew, hgrown⟩ | ⟨hr, hgrown⟩ := hout
  · refine ⟨m', r, true, by rw [hcall, if_neg (by omega)], ?_⟩
    rw [if_pos rfl, hr]
    refine ⟨by omega, h.grown hmono hnew hgrown, fun v hv _ => h.same hgrown hv, fun v hlo hhi => ?_⟩
    exact hgrown.mapped v hlo (by omega)
  · refine ⟨m', sz, false, by rw [hcall, if_pos hr], ?_⟩
    exact ⟨rfl, h.failed hgrown, fun v => ⟨hgrown.other v (by omega), h.same hgrown⟩,
      tabs, hgrown.tables, hgrown.free⟩

theorem growproc_shrink (h : Sound m sz) {n : Word} (hn : n.toInt < 0) (hlt : -n.toInt < sz) :
    ∃ m' sz', growproc m sz n = .ok (m', sz', true) ∧
      (sz' : Int) = sz + n.toInt ∧ Resized m m' sz sz' := by
  have hbelow : sz < 2 ^ 31 := h.below
  generalize hnew : (sz + n.toNat) % 2 ^ 32 = newsz
  have hsum : (newsz : Int) = sz + n.toInt := by
    have hcond := BitVec.toInt_eq_toNat_cond n
    split at hcond <;> omega
  obtain ⟨m', hm', hclear⟩ := Mem.deallocuvm_spec (by omega : newsz < sz) h.below.le m
  obtain ⟨hsound, hsame⟩ := h.cleared (by omega) hclear
  refine ⟨m', newsz, ?_, hsum, hsound, fun v _ hv => hsame v hv, fun v hlo hhi => ?_⟩
  · rw [growproc, if_neg (by omega), if_pos hn, hnew, hm']
    exact if_neg (by omega)
  · have hmono : pages newsz ≤ pages sz := pages_mono (by omega)
    omega

theorem growproc_empty (m : Mem) {n : Word} (hn : n.toInt < 0) :
    growproc m 0 n = .ok (m, 0, false) := by
  rw [growproc, if_neg (by omega), if_pos hn]
  rfl

/-- `growproc(n)`, for a growth or a shrink that leaves something, either does what it is to do
or leaves the process as it was. Tables that a failed growth added stay. -/
theorem growproc_resizes_or_restores (h : Sound m sz) (n : Word)
    (hn : n.toInt < 0 → sz = 0 ∨ -n.toInt < sz) :
    ∃ m' sz' ok, growproc m sz n = .ok (m', sz', ok) ∧
      if ok then (sz' : Int) = sz + n.toInt ∧ Resized m m' sz sz'
      else sz' = sz ∧ Restored m m' sz := by
  rcases lt_trichotomy n.toInt 0 with hneg | hzero | hpos
  · rcases hn hneg with rfl | hlt
    · refine ⟨m, 0, false, growproc_empty m hneg, ?_⟩
      exact ⟨rfl, h, fun v => ⟨rfl, fun _ => Same.refl m v⟩, [], by rw [List.nil_append],
        List.Perm.refl _⟩
    · obtain ⟨m', sz', hm', hresized⟩ := growproc_shrink h hneg hlt
      exact ⟨m', sz', true, hm', hresized⟩
  · refine ⟨m, sz, true, ?_, ?_⟩
    · rw [growproc, if_neg (by omega), if_neg (by omega)]
      rfl
    · exact ⟨by omega, h, fun v _ _ => Same.refl m v, fun v hlo hhi => by omega⟩
  · exact growproc_grow h hpos

theorem twoPages_sound : Sound twoPages 0 where
  below := by decide
  exact v _ := ⟨nofun, fun h => absurd h (Nat.not_lt_zero v)⟩
  once := by
    have htables : twoPages.tables = [] := List.filterMap_eq_nil_iff.mpr fun _ _ => rfl
    rw [htables]
    decide

theorem growproc_resizes_or_restores_two : ∃ m' sz' ok, growproc twoPages 0 4096 = .ok (m', sz', ok) ∧
    if ok then (sz' : Int) = 4096 ∧ Resized twoPages m' 0 sz'
    else sz' = 0 ∧ Restored twoPages m' 0 :=
  growproc_resizes_or_restores twoPages_sound 4096 (by decide)

/-- Two pages do for one page and its table; the growth by two fails, and the table stays. -/
theorem growproc_keeps_table : Sound twoPages 0 ∧
    (growproc twoPages 0 8192).map (fun x => (x.2, x.1.free)) = .ok ((0, false), [7]) ∧
    twoPages.free = [7, 8] := by
  refine ⟨twoPages_sound, ?_, rfl⟩
  decide +kernel

/-! ### The stack of a thread -/

/-- A store of the kernel to user memory, byte by byte. -/
def Mem.store : Nat → List Byte → Mem → Except Stop Mem
  | _, [], m => .ok m
  | va, b :: bs, m =>
    match m.get (va / PGSIZE) with
    | some ⟨pa, true, _⟩ =>
      store (va + 1) bs {m with ram := update m.ram (pa, va % PGSIZE) b}
    | _ => .error .fault

/-- The stack that `thread_create` makes, what it pushes, and `*thread = id`: the memory it
leaves and the new size; without one it returns -1. -/
def threadStack (m : Mem) (sz : Nat) (arg : Word) (thread : Nat) (id : Word) :
    Except Stop (Mem × Option Nat) := do
  let (m, r) ← m.allocuvm sz ((sz + 2 * PGSIZE) % 2 ^ 32)
  if r = 0 then return (m, none)
  else
    let m ← m.clearpteu ((r + 2 ^ 32 - 2 * PGSIZE) % 2 ^ 32)
    let (m, ok) ← m.copyout ((r + 2 ^ 32 - 8) % 2 ^ 32) (ofWord 0xffffffff ++ ofWord arg)
    if ok then
      let m ← m.store thread (ofWord id)
      return (m, some r)
    else return (m, none)

/-- The page without `PTE_U` and the pages of the words are new, the one is right below the
others, and the pages that were there are as they were, but for the four bytes of `*thread`. -/
structure OwnStack (m m' : Mem) (r thread : Nat) : Prop where
  guard : m.get ((r - 2 * PGSIZE) / PGSIZE) = none ∧
    ∃ x, m'.get ((r - 2 * PGSIZE) / PGSIZE) = some x ∧ x.u = false
  words : ∀ i, i < 8 → m.get ((r - 8 + i) / PGSIZE) = none ∧
    ∃ x, m'.get ((r - 8 + i) / PGSIZE) = some x ∧ x.u = true
  below : ∀ i, i < 8 → (r - 8 + i) / PGSIZE = (r - 2 * PGSIZE) / PGSIZE + 1
  same : ∀ v, v < 2 ^ 19 → (m.get v).isSome = true → m'.get v = m.get v ∧
    ∀ x, m.get v = some x → ∀ off, off < PGSIZE →
      ¬ (thread ≤ v * PGSIZE + off ∧ v * PGSIZE + off < thread + 4) →
      m'.ram (x.pa, off) = m.ram (x.pa, off)

namespace Mem

variable {a : Nat}

theorem clearpteu_spec (ha : a < 2 ^ 32) (hx : m.get (a / PGSIZE) = some x) :
    ∃ m', m.clearpteu a = .ok m' ∧ m'.ram = m.ram ∧
      ∀ w, m'.get w = if w = a / PGSIZE then some {x with u := false} else m.get w := by
  have hpage : a / PGSIZE < 2 ^ 20 := by
    unfold PGSIZE
    omega
  have htable : (m.pde (a / PGSIZE / 1024)).isSome = true := by
    by_contra hnot
    rw [get, if_neg hnot] at hx
    cases hx
  rw [clearpteu, walkpgdir_addr, walkpgdir_page hpage, if_pos htable]
  dsimp only
  rw [entry_addr, setEntry_addr, entry_page hpage, ← get_of_table htable, hx]
  exact ⟨_, rfl, rfl, fun w => get_setEntry hpage htable⟩

theorem uva2ka_eq (hv : v < 2 ^ 20) (m : Mem) {pa : Page}
    (h : m.uva2ka (v * PGSIZE) = .ok (some pa)) : ∃ x, m.get v = some x ∧ x.pa = pa := by
  rw [uva2ka, walkpgdir_page hv] at h
  by_cases htable : (m.pde (v / 1024)).isSome = true
  · rw [if_pos htable] at h
    dsimp only at h
    rw [entry_page hv, ← get_of_table htable] at h
    cases hx : m.get v with
    | none =>
      rw [hx] at h
      cases h
    | some x =>
      rw [hx] at h
      dsimp only at h
      split at h
      · cases h
        exact ⟨x, rfl, rfl⟩
      · cases h
  · rw [if_neg htable] at h
    cases h

end Mem

theorem memmove_other (pa : Page) (off : Nat) (bs : List Byte) (ram : Ram) {l : Page × Nat}
    (hl : l.1 ≠ pa) : memmove pa off bs ram l = ram l := by
  induction bs generalizing off ram with
  | nil => rfl
  | cons b bs ih =>
    rw [memmove, ih]
    exact update_of_ne (fun h => hl (by rw [h])) _ _

theorem Mem.copyLoop_other {va : Nat} {buf : List Byte} {ok : Bool}
    (h : copyLoop n va buf m = .ok (m', ok)) (hva : va + buf.length ≤ 2 ^ 32) :
    (∀ w, m'.get w = m.get w) ∧
      ∀ l, (∀ v x, va / PGSIZE ≤ v → v * PGSIZE < va + buf.length → m.get v = some x →
        x.pa ≠ l.1) → m'.ram l = m.ram l := by
  induction n generalizing va buf m with
  | zero =>
    cases buf with
    | nil =>
      cases h
      exact ⟨fun _ => rfl, fun _ _ => rfl⟩
    | cons b buf => cases h
  | succ n ih =>
    cases buf with
    | nil =>
      cases h
      exact ⟨fun _ => rfl, fun _ _ => rfl⟩
    | cons b buf =>
      simp only [copyLoop] at h
      have hlen : 0 < (b :: buf).length := Nat.succ_pos _
      generalize b :: buf = bs at h hva hlen
      have hpage : va / PGSIZE < 2 ^ 20 := by
        unfold PGSIZE
        omega
      have hdown : PGROUNDDOWN va = va / PGSIZE * PGSIZE := rfl
      cases hka : m.uva2ka (PGROUNDDOWN va) with
      | error e =>
        rw [hka] at h
        cases h
      | ok r =>
        rw [hka] at h
        cases r with
        | none =>
          cases h
          exact ⟨fun _ => rfl, fun _ _ => rfl⟩
        | some pa0 =>
          obtain ⟨x, hx, hpa⟩ := uva2ka_eq hpage m hka
          have hfirst : va / PGSIZE * PGSIZE < va + bs.length := by
            unfold PGSIZE
            omega
          generalize hk : min (PGSIZE - (va - PGROUNDDOWN va)) bs.length = k at h
          by_cases hend : bs.length ≤ k
          · -- the last page
            rw [List.drop_eq_nil_of_le hend] at h
            cases n <;> cases h <;>
              exact ⟨fun _ => rfl, fun l hl => memmove_other _ _ _ _ fun heq =>
                hl _ x (Nat.le_refl _) hfirst hx (hpa.trans heq.symm)⟩
          · have hnext : (PGROUNDDOWN va + PGSIZE) % 2 ^ 32 = (va / PGSIZE + 1) * PGSIZE ∧
                (va / PGSIZE + 1) * PGSIZE + (bs.drop k).length = va + bs.length := by
              rw [List.length_drop]
              unfold PGSIZE at *
              omega
            rw [hnext.1] at h
            obtain ⟨hget, hram⟩ := ih h (by omega)
            refine ⟨hget, fun l hl => ?_⟩
            rw [hram l fun v y hv hlt hy => hl v y ?_ (hnext.2 ▸ hlt) hy]
            · exact memmove_other _ _ _ _ fun heq =>
                hl _ x (Nat.le_refl _) hfirst hx (hpa.trans heq.symm)
            · unfold PGSIZE at *
              omega

/-- A store changes the bytes it is for. -/
theorem Mem.store_other {va : Nat} {bs : List Byte} (h : m.store va bs = .ok m') :
    (∀ w, m'.get w = m.get w) ∧
      ∀ l, (∀ i x, i < bs.length → m.get ((va + i) / PGSIZE) = some x →
        (x.pa, (va + i) % PGSIZE) ≠ l) → m'.ram l = m.ram l := by
  induction bs generalizing va m with
  | nil =>
    cases h
    exact ⟨fun _ => rfl, fun _ _ => rfl⟩
  | cons b bs ih =>
    unfold Mem.store at h
    split at h
    · rename_i pa u hx
      obtain ⟨hget, hram⟩ := ih h
      refine ⟨hget, fun l hl => ?_⟩
      have hrest : ∀ i y, i < bs.length → m.get ((va + 1 + i) / PGSIZE) = some y →
          (y.pa, (va + 1 + i) % PGSIZE) ≠ l := by
        intro i y hi hy
        rw [Nat.add_right_comm, Nat.add_assoc] at hy ⊢
        exact hl (i + 1) y (Nat.succ_lt_succ hi) hy
      rw [hram l hrest]
      exact update_of_ne (Ne.symm (hl 0 _ (Nat.succ_pos _) hx)) _ _
    · cases h

theorem Sound.one_frame {w : Nat} {y : Pte} (h : Sound m sz) (hv : v < pages sz) (hw : w < pages sz)
    (hx : m.get v = some x) (hy : m.get w = some y) (heq : x.pa = y.pa) : v = w := by
  have hne : ∀ {v w x y}, v < w → w < pages sz → m.get v = some x → m.get w = some y → x.pa ≠ y.pa := by
    intro v w x y hlt hw hx hy heq
    have hnodup := (List.nodup_append.mp (List.nodup_append.mp h.once).1).1
    rw [show pages sz = w + (pages sz - w) by omega, Mem.frames_add] at hnodup
    refine List.disjoint_of_nodup_append hnodup (mem_frames hx (Nat.zero_le _) (by omega)) ?_
    rw [heq]
    exact mem_frames hy (by omega) (by omega)
  rcases Nat.lt_trichotomy v w with hlt | rfl | hlt
  · exact absurd heq (hne hlt hw hx hy)
  · rfl
  · exact absurd heq.symm (hne hlt hv hy hx)

theorem Sound.room (h : Sound m sz) : (sz + 2 * PGSIZE) % 2 ^ 32 = sz + 2 * PGSIZE := by
  have hbelow := h.below
  unfold KERNBASE at hbelow
  unfold PGSIZE
  omega

theorem pages_stack (sz : Nat) : pages (sz + 2 * PGSIZE) = pages sz + 2 := by
  unfold pages PGSIZE
  omega

theorem threadStack_inv (h : Sound m sz) {arg id : Word} {r thread : Nat}
    (hstack : threadStack m sz arg thread id = .ok (m', some r)) :
    r = sz + 2 * PGSIZE ∧ r < KERNBASE ∧ ∃ m₁ m₂ m₃ tabs, Grown m m₁ (pages sz) 2 tabs ∧
      m₁.clearpteu sz = .ok m₂ ∧
      m₂.copyout (r - 8) (ofWord 0xffffffff ++ ofWord arg) = .ok (m₃, true) ∧
      m₃.store thread (ofWord id) = .ok m' := by
  obtain ⟨m₁, r₁, tabs, halloc, hout⟩ := Mem.allocuvm_spec
    (Nat.le_add_right sz (2 * PGSIZE)) fun w hlo hhi => h.absent hlo hhi
  rw [threadStack, h.room, halloc] at hstack
  obtain ⟨hr, hnew, hgrown⟩ | ⟨hr, -⟩ := hout
  · subst hr
    have hpos : ¬ sz + 2 * PGSIZE = 0 := by
      unfold PGSIZE
      omega
    have hguard : (sz + 2 * PGSIZE + 2 ^ 32 - 2 * PGSIZE) % 2 ^ 32 = sz := by
      have hbelow := h.below
      unfold KERNBASE at hbelow
      omega
    have hsp : (sz + 2 * PGSIZE + 2 ^ 32 - 8) % 2 ^ 32 = sz + 2 * PGSIZE - 8 := by
      unfold KERNBASE at hnew
      unfold PGSIZE at *
      omega
    simp only [bind, Except.bind, if_neg hpos, hguard, hsp] at hstack
    rw [pages_stack, Nat.add_sub_cancel_left] at hgrown
    cases hclear : m₁.clearpteu sz with
    | error e =>
      rw [hclear] at hstack
      cases hstack
    | ok m₂ =>
      rw [hclear] at hstack
      dsimp only at hstack
      cases hcopy : m₂.copyout (sz + 2 * PGSIZE - 8) (ofWord 0xffffffff ++ ofWord arg) with
      | error e =>
        rw [hcopy] at hstack
        cases hstack
      | ok x =>
        obtain ⟨m₃, ok⟩ := x
        rw [hcopy] at hstack
        cases ok with
        | false => cases hstack
        | true =>
          dsimp only at hstack
          cases hstore : m₃.store thread (ofWord id) with
          | error e =>
            rw [hstore] at hstack
            cases hstack
          | ok m₄ =>
            rw [hstore] at hstack
            cases hstack
            exact ⟨rfl, hnew, m₁, m₂, m₃, tabs, hgrown, hclear, hcopy, hstore⟩
  · subst hr
    cases hstack

/-- `thread_create` has a stack of its own exactly when the size of the process is a multiple
of the page size: `allocuvm` rounds the old size up, `clearpteu` the new one down. `argptr` has
let `thread` pass. -/
theorem threadStack_own_iff (h : Sound m sz) {arg id : Word} {r thread : Nat}
    (hthread : thread + 4 ≤ sz) (hstack : threadStack m sz arg thread id = .ok (m', some r)) :
    OwnStack m m' r thread ↔ sz % PGSIZE = 0 := by
  obtain ⟨rfl, hr, m₁, m₂, m₃, tabs, hgrown, hclear, hcopy, hstore⟩ := threadStack_inv h hstack
  have hr' : sz + 2 * PGSIZE < 2 ^ 31 := hr
  constructor
  · intro hown
    by_contra hpart
    -- the last page of the process is there, and it is the one that loses `PTE_U`
    have hlast : sz / PGSIZE < pages sz := by
      unfold pages PGSIZE at *
      omega
    have hsome := (h.exact (sz / PGSIZE) (by unfold PGSIZE; omega)).mpr hlast
    have hguard := hown.guard.1
    rw [Nat.add_sub_cancel] at hguard
    rw [hguard] at hsome
    cases hsome
  · intro halign
    have hguard : sz / PGSIZE = pages sz := by
      unfold pages PGSIZE at *
      omega
    have hword : ∀ i, i < 8 → (sz + 2 * PGSIZE - 8 + i) / PGSIZE = pages sz + 1 := fun i hi => by
      unfold pages PGSIZE at *
      omega
    have hpages : pages sz + 2 ≤ 2 ^ 19 := by
      unfold pages PGSIZE at *
      omega
    obtain ⟨pa, hpa, -⟩ := hgrown.mapped (pages sz) (Nat.le_refl _) (by omega)
    obtain ⟨pa', hpa', -⟩ := hgrown.mapped (pages sz + 1) (by omega) (by omega)
    obtain ⟨m₄, hm₄, hram₂, hget₂⟩ :=
      Mem.clearpteu_spec (a := sz) (by omega) (by rw [hguard]; exact hpa)
    rw [hclear] at hm₄
    cases hm₄
    rw [hguard] at hget₂
    obtain ⟨hget₃, hram₃⟩ := Mem.copyLoop_other hcopy (by
      change sz + 2 * PGSIZE - 8 + 8 ≤ 2 ^ 32
      omega)
    obtain ⟨hget, hram⟩ := Mem.store_other hstore
    have hold : ∀ w, w < pages sz → m₃.get w = m.get w := fun w hw => by
      rw [hget₃, hget₂, if_neg (by omega), hgrown.other w (by omega)]
    refine ⟨?_, fun i hi => ?_, fun i hi => ?_, fun v hv hsome => ⟨?_, fun x hx off hoff hout => ?_⟩⟩
    · rw [Nat.add_sub_cancel, hguard, hget, hget₃, hget₂, if_pos rfl]
      exact ⟨h.absent (Nat.le_refl _) (by omega), _, rfl, rfl⟩
    · rw [hword i hi, hget, hget₃, hget₂, if_neg (by omega), hpa']
      exact ⟨h.absent (by omega) (by omega), _, rfl, rfl⟩
    · rw [hword i hi, Nat.add_sub_cancel, hguard]
    · rw [hget, hold v ((h.exact v hv).mp hsome)]
    · have hlow := (h.exact v hv).mp hsome
      have hused := h.not_free hlow hx
      have hid : (ofWord id).length = 4 := rfl
      rw [hram, hram₃, hram₂, hgrown.ram _ hused]
      rotate_left
      · -- the id is somewhere else in the process
        intro i y hi hy heq
        have hlow' : (thread + i) / PGSIZE < pages sz := by
          unfold pages PGSIZE at *
          omega
        rw [hold _ hlow'] at hy
        obtain ⟨hpa, rfl⟩ := Prod.mk.inj heq
        obtain rfl := h.one_frame hlow' hlow hy hx hpa
        have hdiv := Nat.div_add_mod' (thread + i) PGSIZE
        omega
      -- the words are in a frame that was free
      intro w y hlo hhi hy heq
      have hw : w = pages sz + 1 := by
        change w * PGSIZE < sz + 2 * PGSIZE - 8 + 8 at hhi
        unfold pages PGSIZE at *
        omega
      rw [hw, hget₂, if_neg (by omega), hpa'] at hy
      cases hy
      have hframe : pa' ∈ m₁.frames (pages sz) 2 := Sound.mem_frames hpa' (by omega) (by omega)
      have hfree : pa' ∈ m.free :=
        hgrown.free.mem_iff.mp (List.mem_append_left _ (List.mem_append_left _ hframe))
      have hpa : pa' = x.pa := heq
      exact hused (hpa ▸ hfree)

/-- Two pages of a process, their table, and three pages that are free. -/
def smallProcess : Mem where
  pde d := if d = 0 then some 4 else none
  pte _ t := if t = 0 then some ⟨5, true, true⟩ else if t = 1 then some ⟨6, true, true⟩ else none
  ram _ := 0
  free := [7, 8, 9]

theorem smallProcess_sound (hlo : PGSIZE < sz) (hhi : sz ≤ 2 * PGSIZE) : Sound smallProcess sz := by
  have hpages : pages sz = 2 := by
    unfold pages PGSIZE at *
    omega
  refine ⟨by unfold PGSIZE KERNBASE at *; omega, fun v hv => ?_, ?_⟩
  · rw [hpages]
    unfold Mem.get smallProcess
    grind
  · rw [hpages]
    decide +kernel

theorem threadStack_own_iff_aligned :
    ∃ m', threadStack smallProcess 8192 3 100 1 = .ok (m', some 16384) ∧
      (OwnStack smallProcess m' 16384 100 ↔ 8192 % PGSIZE = 0) := by
  have hsome : (threadStack smallProcess 8192 3 100 1).map Prod.snd = .ok (some 16384) := by
    decide +kernel
  cases hstack : threadStack smallProcess 8192 3 100 1 with
  | error e =>
    rw [hstack] at hsome
    cases hsome
  | ok x =>
    obtain ⟨m', r⟩ := x
    rw [hstack] at hsome
    cases hsome
    exact ⟨m', rfl, threadStack_own_iff (smallProcess_sound (by decide) (by decide)) (by decide) hstack⟩

/-- After `sbrk(1)` the page that loses `PTE_U` is the last of the process. -/
theorem threadStack_takes_old_page : Sound smallProcess 4097 ∧
    (threadStack smallProcess 4097 3 100 1).map (fun x => (x.2, x.1.get 1)) =
      .ok (some 12289, some ⟨6, true, false⟩) ∧
    smallProcess.get 1 = some ⟨6, true, true⟩ := by
  refine ⟨smallProcess_sound (by decide) (by decide), ?_, rfl⟩
  decide +kernel

end ThreadKernel.Paging
