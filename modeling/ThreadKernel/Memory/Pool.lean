import ThreadKernel.Vm.Paging
import ThreadKernel.Vm.Space

/-! The pages a directory is made of, and the free list.

`vm.c` once more, with the pages its functions take from `kalloc` and give back to
`kfree`: the directory itself, its page tables and the frames it maps. `free` is
`kmem.freelist`; `kalloc` takes its head and fails when it is empty, `kfree` pushes.

What the functions do to the user half is what `Uvm` says. What is new is that no page is
lost: the pages a directory owns and the pages on the list are the same before and after,
and `freevm` puts everything back. -/
namespace ThreadKernel

open Function

abbrev PHYSTOP : Nat := 0xE000000
abbrev DEVSPACE : Nat := 0xFE000000

/-- What one page table maps. -/
abbrev TABLESIZE : Nat := 1024 * PGSIZE

/-- The page tables of the user half of a directory. -/
abbrev UTABLES : Nat := KERNBASE / TABLESIZE

abbrev UPAGES : Nat := KERNBASE / PGSIZE

/-- The page tables that `kmap` takes: from `KERNBASE` for all of physical memory, and from
`DEVSPACE` to the top. -/
abbrev KTABLES : Nat := PHYSTOP / TABLESIZE + (2 ^ 32 - DEVSPACE) / TABLESIZE

/-- A page directory with the pages it is made of: its own, the page tables of its kernel
half, and `tab i` for each table `i` of the user half that is there. -/
structure PhysDir where
  root : Page
  kern : List Page
  dir : Pgdir
  tab : Nat → Page

namespace PhysDir

/-- The page of table `i`. -/
def table (d : PhysDir) (i : Nat) : Option Page :=
  if d.dir.table i then some (d.tab i) else none

def tables (d : PhysDir) : List Page := (List.range UTABLES).filterMap d.table

def frames (d : PhysDir) : List Page := (d.dir.held UPAGES).map Pte.pa

/-- Everything that `freevm` gives back. -/
def owned (d : PhysDir) : List Page := d.root :: (d.kern ++ d.tables ++ d.frames)

inductive Took where
  | ok (d : PhysDir) (free : List Page)
  | noMemory
  | remap

/-- `mappages` for one page. -/
def mapPage (d : PhysDir) (v : Nat) (x : Pte) (free : List Page) : Took :=
  match d.dir.walk v with
  | some (some _) => .remap
  | some none => .ok {d with dir := d.dir.put v (some x)} free
  | none =>
    match free with
    | [] => .noMemory
    | pgtab :: rest =>
      .ok
        {d with
          dir := (d.dir.grow v).put v (some x)
          tab := update d.tab (v / 1024) pgtab}
        rest

inductive Grew where
  | ok (d : PhysDir) (free : List Page)
  /-- The list is empty; `mem` is the frame that could not be mapped. -/
  | noMemory (d : PhysDir) (mem : Option Page)
  | remap

/-- The loop of `allocuvm`: `n` pages from page `v` on. -/
def growPages : Nat → Nat → PhysDir → List Page → Grew
  | 0, _, d, free => .ok d free
  | _ + 1, _, d, [] => .noMemory d none
  | n + 1, v, d, mem :: free =>
    match d.mapPage v ⟨mem, true⟩ free with
    | .ok d' free' => growPages n (v + 1) d' free'
    | .noMemory => .noMemory d (some mem)
    | .remap => .remap

def deallocuvm (d : PhysDir) (oldsz newsz : Nat) (free : List Page) : PhysDir × Nat × List Page :=
  if oldsz ≤ newsz then (d, oldsz, free)
  else
    let x := Sparse.Dir.drain (pages oldsz - pages newsz) (pages newsz) (pages oldsz) d.dir []
    ({d with dir := x.1}, newsz, x.2.map Pte.pa ++ free)

/-- `allocuvm`, with the size it returns; 0 is a failure. `none` is the `remap` panic. -/
def allocuvm (d : PhysDir) (oldsz newsz : Nat) (free : List Page) :
    Option (PhysDir × Nat × List Page) :=
  if KERNBASE ≤ newsz then some (d, 0, free)
  else if newsz < oldsz then some (d, oldsz, free)
  else
    match growPages (pages newsz - pages oldsz) (pages oldsz) d free with
    | .ok d' free' => some (d', newsz, free')
    | .noMemory d' mem =>
      let x := d'.deallocuvm newsz oldsz []
      some (x.1, 0, mem.toList ++ x.2.2)
    | .remap => none

/-- `freevm`: the frames, the tables in the order of their entries, the directory. -/
def freevm (d : PhysDir) (free : List Page) : List Page :=
  let x := d.deallocuvm KERNBASE 0 free
  d.root :: ((d.tables ++ d.kern).reverse ++ x.2.2)

/-- The loops of `setupkvm`: `n` page tables are still to come. -/
def kvmLoop : Nat → PhysDir → List Page → Option PhysDir × List Page
  | 0, d, free => (some d, free)
  | _ + 1, d, [] => (none, d.freevm [])
  | n + 1, d, pgtab :: free => kvmLoop n {d with kern := d.kern ++ [pgtab]} free

/-- `setupkvm`, with the list it leaves. -/
def setupkvm : List Page → Option PhysDir × List Page
  | [] => (none, [])
  | root :: free => kvmLoop KTABLES ⟨root, [], .empty, fun _ => 0⟩ free

inductive CopyResult where
  | ok (d : PhysDir) (free : List Page)
  | noMemory (free : List Page)
  | panicked (w : Vm.Panic)

/-- The loop of `copyuvm`: `n` pages from page `v` on. -/
def copyPages (src : Pgdir) : Nat → Nat → PhysDir → List Page → CopyResult
  | 0, _, d, free => .ok d free
  | n + 1, v, d, free =>
    match src.walk v with
    | none => .panicked .copyPte
    | some none => .panicked .copyPage
    | some (some x) =>
      match free with
      | [] => .noMemory (d.freevm [])
      | mem :: free =>
        match d.mapPage v ⟨mem, x.user⟩ free with
        | .ok d' free' => copyPages src n (v + 1) d' free'
        | .noMemory => .noMemory (d.freevm [mem])
        | .remap => .panicked .remap

def copyuvm (src : Pgdir) (sz : Nat) (free : List Page) : CopyResult :=
  match setupkvm free with
  | (none, free') => .noMemory free'
  | (some d, free') => copyPages src (pages sz) 0 d free'

/-! ### The user half is that of `Uvm` -/

variable {d d' : PhysDir} {v n sz oldsz newsz : Nat} {x : Pte} {free free' : List Page}

theorem mapPage_dir (d : PhysDir) (v : Nat) (x : Pte) (free : List Page) :
    mappages d.dir v x free =
      match d.mapPage v x free with
      | .ok d' free' => .ok d'.dir free'
      | .noMemory => .noMemory
      | .remap => .remap := by
  unfold mappages mapPage
  cases d.dir.walk v with
  | none => cases free <;> rfl
  | some y => cases y <;> rfl

theorem growPages_dir (n v : Nat) (d : PhysDir) (free : List Page) :
    allocPages n v d.dir free =
      match growPages n v d free with
      | .ok d' _ => .ok d'.dir
      | .noMemory d' _ => .noMemory d'.dir
      | .remap => .remap := by
  induction n generalizing v d free with
  | zero => rfl
  | succ n ih =>
    cases free with
    | nil => rfl
    | cons mem free =>
      rw [allocPages, growPages, mapPage_dir]
      cases d.mapPage v ⟨mem, true⟩ free with
      | ok d' free' => exact ih (v + 1) d' free'
      | noMemory => rfl
      | remap => rfl

theorem deallocuvm_dir (d : PhysDir) (oldsz newsz : Nat) (free : List Page) :
    ThreadKernel.deallocuvm d.dir oldsz newsz =
      ((d.deallocuvm oldsz newsz free).1.dir, (d.deallocuvm oldsz newsz free).2.1) := by
  unfold ThreadKernel.deallocuvm deallocuvm
  split
  · rfl
  · simp only [Sparse.Dir.drain_fst]

theorem allocuvm_dir (d : PhysDir) (oldsz newsz : Nat) (free : List Page) :
    ThreadKernel.allocuvm d.dir oldsz newsz free =
      (d.allocuvm oldsz newsz free).map fun x => (x.1.dir, x.2.1) := by
  unfold ThreadKernel.allocuvm allocuvm
  split
  · rfl
  · split
    · rfl
    · rw [growPages_dir]
      cases growPages (pages newsz - pages oldsz) (pages oldsz) d free with
      | ok d' free' => rfl
      | noMemory d' mem =>
        simp only [Option.map_some, deallocuvm_dir d' newsz oldsz []]
      | remap => rfl

/-! ### No page is lost -/

theorem count_owned (d : PhysDir) (a : Page) : d.owned.count a =
    [d.root].count a + d.kern.count a + d.tables.count a + d.frames.count a := by
  rw [owned, List.count_cons, List.count_append, List.count_append, List.count_singleton]
  omega

theorem tables_put (y : Option Pte) : ({d with dir := d.dir.put v y} : PhysDir).tables = d.tables := rfl

theorem tables_grow (pgtab : Page) (hv : v < UPAGES) (htable : d.dir.table (v / 1024) = false)
    (y : Option Pte) :
    (({d with
        dir := (d.dir.grow v).put v y, tab := update d.tab (v / 1024) pgtab} :
        PhysDir).tables).Perm (pgtab :: d.tables) := by
  have hnew : ({d with
      dir := (d.dir.grow v).put v y, tab := update d.tab (v / 1024) pgtab} : PhysDir).table =
      update d.table (v / 1024) (some pgtab) := by
    funext i
    by_cases hi : i = v / 1024
    · rw [hi, update_self]
      simp [table, Sparse.Dir.grow]
    · rw [update_of_ne hi]
      simp [table, Sparse.Dir.grow, hi]
  have hold : d.table (v / 1024) = none := by
    rw [table, htable]
    rfl
  have hbound : v / 1024 ∈ List.range UTABLES := by
    rw [List.mem_range]
    simp only [UPAGES, UTABLES, KERNBASE, PGSIZE, TABLESIZE] at hv ⊢
    omega
  rw [tables, hnew]
  exact Sparse.Dir.perm_filterMap_update List.nodup_range hbound hold

/-- A page mapped for the first time is owned from then on, with its table. -/
theorem mapPage_perm (hv : v < UPAGES) (h : d.mapPage v x free = .ok d' free') :
    (d'.owned ++ free').Perm (x.pa :: (d.owned ++ free)) := by
  apply List.perm_iff_count.mpr
  intro a
  unfold mapPage at h
  cases hwalk : d.dir.walk v with
  | some y =>
    rw [hwalk] at h
    cases y with
    | some y => cases h
    | none =>
      cases h
      have htable : d.dir.table (v / 1024) = true := by
        rw [← Sparse.Dir.walk_isSome, hwalk]
        rfl
      have hget : d.dir.get v = none := by
        rw [Sparse.Dir.get, hwalk]
        rfl
      have hframes := ((Sparse.Dir.held_put (x := x) htable hv hget).map Pte.pa).count_eq a
      simp only [List.count_append, List.count_cons, count_owned, tables_put]
      simp only [List.map_cons, List.count_cons] at hframes
      simp only [frames]
      omega
  | none =>
    rw [hwalk] at h
    cases free with
    | nil => cases h
    | cons pgtab rest =>
      cases h
      have htable : d.dir.table (v / 1024) = false := by
        rw [← Sparse.Dir.walk_isSome, hwalk]
        rfl
      have hget : (d.dir.grow v).get v = none := by
        rw [Sparse.Dir.get_grow _ _ _ htable, Sparse.Dir.get_of_not_table _ _ htable]
      have hframes := ((Sparse.Dir.held_put (x := x) (d.dir.grow_table v) hv hget).map Pte.pa).count_eq a
      have htables := (tables_grow (d := d) pgtab hv htable (some x)).count_eq a
      simp only [List.count_append, List.count_cons, count_owned]
      simp only [Sparse.Dir.held_grow htable, List.map_cons, List.count_cons] at hframes
      simp only [List.count_cons] at htables
      simp only [frames]
      omega

theorem mapPage_noMemory (h : d.mapPage v x free = .noMemory) : free = [] := by
  unfold mapPage at h
  split at h
  · cases h
  · cases h
  · split at h
    · rfl
    · cases h

/-- The loop of `allocuvm`, whether it gets to its end or not. -/
theorem growPages_perm (n v : Nat) (d : PhysDir) (free : List Page) (hv : v + n ≤ UPAGES) :
    (∀ d' free', growPages n v d free = .ok d' free' →
      (d'.owned ++ free').Perm (d.owned ++ free)) ∧
    ∀ d' mem, growPages n v d free = .noMemory d' mem →
      (d'.owned ++ mem.toList).Perm (d.owned ++ free) := by
  induction n generalizing v d free with
  | zero =>
    constructor
    · intro d' free' h
      cases h
      exact List.Perm.refl _
    · intro d' mem h
      cases h
  | succ n ih =>
    cases free with
    | nil =>
      constructor
      · intro d' free' h
        cases h
      · intro d' mem h
        cases h
        exact List.Perm.refl _
    | cons mem free =>
      rw [growPages]
      cases hmap : d.mapPage v ⟨mem, true⟩ free with
      | remap => exact ⟨nofun, nofun⟩
      | noMemory =>
        constructor
        · intro d' free' h
          cases h
        · intro d' mem' h
          cases h
          rw [mapPage_noMemory hmap]
          exact List.Perm.refl _
      | ok d₁ free₁ =>
        have hstep : (d₁.owned ++ free₁).Perm (d.owned ++ mem :: free) :=
          (mapPage_perm (by omega) hmap).trans List.perm_middle.symm
        obtain ⟨hok, hfail⟩ := ih (v + 1) d₁ free₁ (by omega)
        exact ⟨fun d' free' h => (hok d' free' h).trans hstep, fun d' m h => (hfail d' m h).trans hstep⟩

theorem pages_le (h : sz ≤ KERNBASE) : pages sz ≤ UPAGES := by
  have := pages_mono h
  exact this

theorem deallocuvm_keeps (d : PhysDir) (oldsz newsz : Nat) (free : List Page) :
    (d.deallocuvm oldsz newsz free).1.root = d.root ∧
      (d.deallocuvm oldsz newsz free).1.kern = d.kern ∧
      (d.deallocuvm oldsz newsz free).1.tables = d.tables := by
  unfold deallocuvm
  split
  · exact ⟨rfl, rfl, rfl⟩
  · refine ⟨rfl, rfl, ?_⟩
    simp only [tables]
    congr 1
    funext i
    simp only [table, Sparse.Dir.drain_fst, Sparse.Dir.clear_table]

theorem deallocuvm_frames (d : PhysDir) (newsz : Nat) (free : List Page) (h : oldsz ≤ KERNBASE) :
    ((d.deallocuvm oldsz newsz free).2.2 ++ (d.deallocuvm oldsz newsz free).1.frames).Perm
      (d.frames ++ free) := by
  unfold deallocuvm
  split
  · exact List.perm_append_comm
  · have hdrain := (Sparse.Dir.drain_perm (pages oldsz - pages newsz) (pages newsz) (pages oldsz) UPAGES
      (pages_le h) d.dir []).map Pte.pa
    rw [List.map_append, List.nil_append] at hdrain
    apply List.perm_iff_count.mpr
    intro a
    have hcount := hdrain.count_eq a
    simp only [frames, List.count_append] at hcount ⊢
    omega

theorem deallocuvm_perm (d : PhysDir) (newsz : Nat) (free : List Page) (h : oldsz ≤ KERNBASE) :
    ((d.deallocuvm oldsz newsz free).1.owned ++ (d.deallocuvm oldsz newsz free).2.2).Perm
      (d.owned ++ free) := by
  obtain ⟨hroot, hkern, htables⟩ := deallocuvm_keeps d oldsz newsz free
  apply List.perm_iff_count.mpr
  intro a
  have hframes := (deallocuvm_frames d newsz free h).count_eq a
  simp only [List.count_append, count_owned, hroot, hkern, htables] at hframes ⊢
  omega

theorem allocuvm_perm {r : Nat} (h : d.allocuvm oldsz newsz free = some (d', r, free')) :
    (d'.owned ++ free').Perm (d.owned ++ free) := by
  unfold allocuvm at h
  split at h
  · cases h
    exact List.Perm.refl _
  · rename_i hkern
    split at h
    · cases h
      exact List.Perm.refl _
    · have hmono := pages_mono (Nat.le_of_not_lt (by assumption : ¬ newsz < oldsz))
      have hbound := pages_le (Nat.le_of_lt (Nat.lt_of_not_le hkern))
      obtain ⟨hok, hfail⟩ := growPages_perm (pages newsz - pages oldsz) (pages oldsz) d free (by omega)
      split at h
      · rename_i hgrow
        cases h
        exact hok _ _ hgrow
      · rename_i d₁ mem hgrow
        cases h
        have hback := deallocuvm_perm d₁ oldsz [] (Nat.le_of_lt (Nat.lt_of_not_le hkern))
        apply List.Perm.trans _ (hfail _ _ hgrow)
        apply List.perm_iff_count.mpr
        intro a
        have hcount := hback.count_eq a
        simp only [List.count_append, List.count_nil] at hcount ⊢
        omega
      · cases h

theorem freevm_perm (d : PhysDir) (free : List Page) : (d.freevm free).Perm (d.owned ++ free) := by
  have hempty : (d.deallocuvm KERNBASE 0 free).1.frames = [] := by
    have hdir : (ThreadKernel.deallocuvm d.dir KERNBASE 0).1 = (d.deallocuvm KERNBASE 0 free).1.dir :=
      congrArg Prod.fst (deallocuvm_dir d KERNBASE 0 free)
    rw [frames, ← hdir, Sparse.Dir.held_eq_nil, List.map_nil]
    intro w hw
    rw [get_deallocuvm (by decide), if_pos]
    exact ⟨Nat.zero_le w, hw⟩
  have hframes := deallocuvm_frames d 0 free (Nat.le_refl KERNBASE)
  rw [hempty, List.append_nil] at hframes
  apply List.perm_iff_count.mpr
  intro a
  have hcount := hframes.count_eq a
  simp only [freevm, List.count_cons, List.count_append, List.count_reverse, count_owned, hcount,
    List.count_nil]
  omega

/-- `setupkvm` takes its pages off the list, or leaves the list as it was. -/
theorem kvmLoop_perm (n : Nat) (d : PhysDir) (free : List Page) :
    (((kvmLoop n d free).1.elim [] owned) ++ (kvmLoop n d free).2).Perm (d.owned ++ free) := by
  induction n generalizing d free with
  | zero => exact List.Perm.refl _
  | succ n ih =>
    cases free with
    | nil => exact freevm_perm d []
    | cons pgtab free =>
      apply (ih _ free).trans
      apply List.perm_iff_count.mpr
      intro a
      have htables : ({d with kern := d.kern ++ [pgtab]} : PhysDir).tables = d.tables := rfl
      have hframes : ({d with kern := d.kern ++ [pgtab]} : PhysDir).frames = d.frames := rfl
      simp only [List.count_append, List.count_cons, count_owned, htables, hframes, List.count_nil]
      omega

theorem owned_new (root : Page) : (⟨root, [], .empty, fun _ => 0⟩ : PhysDir).owned = [root] := by
  have htables : (⟨root, [], .empty, fun _ => 0⟩ : PhysDir).tables = [] := by
    apply List.filterMap_eq_nil_iff.mpr
    intro i _
    rfl
  have hframes : (⟨root, [], .empty, fun _ => 0⟩ : PhysDir).frames = [] := by
    rw [frames, Sparse.Dir.held_eq_nil, List.map_nil]
    intro w _
    rfl
  rw [owned, htables, hframes]
  rfl

theorem setupkvm_perm (free : List Page) :
    (((setupkvm free).1.elim [] owned) ++ (setupkvm free).2).Perm free := by
  cases free with
  | nil => exact List.Perm.refl _
  | cons root free =>
    have h := kvmLoop_perm KTABLES ⟨root, [], .empty, fun _ => 0⟩ free
    rw [owned_new] at h
    exact h

/-! ### From `setupkvm` to `freevm` -/

/-- `clearpteu`; `none` is its panic. No entry of the kernel half has `PTE_U`. -/
def clearpteu (d : PhysDir) (uva : Nat) : Option PhysDir :=
  if uva < KERNBASE then
    (ThreadKernel.clearpteu d.dir (uva / PGSIZE)).map fun dir => {d with dir := dir}
  else if uva < KERNBASE + PHYSTOP ∨ DEVSPACE ≤ uva then some d
  else none

inductive Call where
  | allocuvm (oldsz newsz : Nat)
  | deallocuvm (oldsz newsz : Nat)
  | clearpteu (uva : Nat)

/-- `deallocuvm` starts no higher than where the user half ends. -/
def Call.InUser : Call → Prop
  | .deallocuvm oldsz _ => oldsz ≤ KERNBASE
  | .allocuvm _ _ | .clearpteu _ => True

/-- One call, and the list it leaves; `none` is a panic. -/
def call (d : PhysDir) (free : List Page) : Call → Option (PhysDir × List Page)
  | .allocuvm oldsz newsz => (d.allocuvm oldsz newsz free).map fun x => (x.1, x.2.2)
  | .deallocuvm oldsz newsz =>
    let x := d.deallocuvm oldsz newsz free
    some (x.1, x.2.2)
  | .clearpteu uva => (d.clearpteu uva).map fun d' => (d', free)

def calls : List Call → PhysDir → List Page → Option (PhysDir × List Page)
  | [], d, free => some (d, free)
  | c :: cs, d, free => (d.call free c).bind fun x => calls cs x.1 x.2

theorem clearpteu_owned {uva : Nat} (h : d.clearpteu uva = some d') : d'.owned = d.owned := by
  unfold clearpteu at h
  split at h
  · obtain ⟨dir, hdir, rfl⟩ := Option.map_eq_some_iff.mp h
    have htable : dir.table = d.dir.table := by
      unfold ThreadKernel.clearpteu at hdir
      split at hdir
      · cases hdir
      · cases hdir
        rfl
    have hframes : ({d with dir := dir} : PhysDir).frames = d.frames := by
      simp only [frames, Sparse.Dir.held, List.map_filterMap]
      congr 1
      funext w
      rw [get_clearpteu hdir]
      split
      · rename_i hw
        rw [hw, Option.map_map]
        rfl
      · rfl
    have htables : ({d with dir := dir} : PhysDir).table = d.table := by
      funext i
      simp only [table, htable]
    rw [owned, owned, hframes, tables, tables, htables]
  · split at h
    · cases h
      rfl
    · cases h

theorem call_perm {c : Call} (hc : c.InUser) (h : d.call free c = some (d', free')) :
    (d'.owned ++ free').Perm (d.owned ++ free) := by
  cases c with
  | allocuvm oldsz newsz =>
    obtain ⟨⟨d₁, r, free₁⟩, halloc, heq⟩ := Option.map_eq_some_iff.mp h
    cases heq
    exact allocuvm_perm halloc
  | deallocuvm oldsz newsz =>
    cases h
    exact deallocuvm_perm d newsz free hc
  | clearpteu uva =>
    obtain ⟨d₁, hclear, heq⟩ := Option.map_eq_some_iff.mp h
    cases heq
    rw [clearpteu_owned hclear]

theorem calls_perm (cs : List Call) (hcs : ∀ c ∈ cs, c.InUser)
    (h : calls cs d free = some (d', free')) : (d'.owned ++ free').Perm (d.owned ++ free) := by
  induction cs generalizing d free with
  | nil =>
    cases h
    exact List.Perm.refl _
  | cons c cs ih =>
    obtain ⟨⟨d₁, free₁⟩, hc, hrest⟩ := Option.bind_eq_some_iff.mp h
    exact (ih (fun c hc => hcs c (List.mem_cons_of_mem _ hc)) hrest).trans
      (call_perm (hcs c List.mem_cons_self) hc)

/-- A directory built by `setupkvm` and any calls after it: the pages it is made of were on
the list when it was built and are not any more, none of them twice, and `freevm` puts back
these and no others, so that the list is what it was. The same if `setupkvm` fails. -/
theorem freevm_restores (free : List Page) (hfree : free.Nodup) :
    (∀ free₁, setupkvm free = (none, free₁) → free₁.Perm free) ∧
    ∀ d free₁, setupkvm free = (some d, free₁) → ∀ cs, (∀ c ∈ cs, c.InUser) → ∀ d' free₂,
      calls cs d free₁ = some (d', free₂) →
      (d'.owned ++ free₂).Nodup ∧ (d'.freevm free₂).Perm (d'.owned ++ free₂) ∧
        (d'.freevm free₂).Perm free := by
  have hsetup := setupkvm_perm free
  constructor
  · intro free₁ h
    rwa [h] at hsetup
  · intro d free₁ h cs hcs d' free₂ hcalls
    rw [h] at hsetup
    have hall := (calls_perm cs hcs hcalls).trans hsetup
    exact ⟨hall.nodup_iff.mpr hfree, freevm_perm d' free₂, (freevm_perm d' free₂).trans hall⟩

/-- Two pages and a guard, one of them given back, and a third that cannot be had. -/
theorem freevm_restores_two : ∃ d free₁ d' free₂, setupkvm (List.range 69) = (some d, free₁) ∧
    calls [.allocuvm 0 8192, .clearpteu 0, .deallocuvm 8192 4096, .allocuvm 4096 16384] d free₁ =
      some (d', free₂) ∧ (d'.freevm free₂).Perm (List.range 69) := by
  have hrun : ((setupkvm (List.range 69)).1.bind fun d =>
      calls [.allocuvm 0 8192, .clearpteu 0, .deallocuvm 8192 4096, .allocuvm 4096 16384] d
        (setupkvm (List.range 69)).2).isSome = true := by decide +kernel
  obtain ⟨⟨d', free₂⟩, h⟩ := Option.isSome_iff_exists.mp hrun
  obtain ⟨d, hd, hcalls⟩ := Option.bind_eq_some_iff.mp h
  have hsetup : setupkvm (List.range 69) = (some d, (setupkvm (List.range 69)).2) := Prod.ext hd rfl
  refine ⟨d, _, d', free₂, hsetup, hcalls, ?_⟩
  exact ((freevm_restores _ List.nodup_range).2 d _ hsetup _ (by simp [Call.InUser, KERNBASE]) d'
    free₂ hcalls).2.2

/-- A directory as `setupkvm` leaves it where it maps physical memory, and a list with the
page at 4 MB. -/
def kernelMap : Paging.Mem where
  pde i := if 512 ≤ i then some i else none
  pte i j := some ⟨(i - 512) * 1024 + j, true, false⟩
  ram _ := 0
  free := [1024]

/-- `deallocuvm` of that page's address in the kernel half puts it on the list once more. -/
theorem deallocuvm_frees_kernel :
    (∀ v < PHYSTOP / PGSIZE, ∃ w, kernelMap.get (UPAGES + v) = some ⟨v, w, false⟩) ∧
    kernelMap.free = [1024] ∧
    (kernelMap.deallocuvm (KERNBASE + 1025 * PGSIZE) (KERNBASE + 1024 * PGSIZE)).map
      (fun x => x.1.free) = .ok [1024, 1024] := by
  refine ⟨fun v _ => ⟨true, ?_⟩, rfl, by decide +kernel⟩
  have hv : (UPAGES + v) / 1024 = 512 + v / 1024 := by
    show (524288 + v) / 1024 = _
    omega
  have hj : (UPAGES + v) % 1024 = v % 1024 := by
    show (524288 + v) % 1024 = _
    omega
  simp only [Paging.Mem.get, kernelMap, hv, hj, if_pos (Nat.le_add_right 512 _), Option.isSome_some,
    if_true, Nat.add_sub_cancel_left, Nat.div_add_mod']

end PhysDir

end ThreadKernel
