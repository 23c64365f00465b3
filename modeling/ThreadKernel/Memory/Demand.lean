import ThreadKernel.Memory.Pool

/-! How many pages `allocuvm`, `setupkvm` and `copyuvm` take.

A directory that has only ever grown from page 0 on is filled: what the next page takes
depends on its number alone, a frame and for every 1024th a table. So the loops run out of
memory exactly when a number is larger than the length of the free list. -/
namespace ThreadKernel.PhysDir

variable {d d' : PhysDir} {v n sz : Nat} {x : Pte} {free free' : List Page}

/-- The pages it takes to map the pages from `lo` up to `hi` into a directory that is filled
up to `lo`: a frame for each, and a table for every 1024. -/
def needs (lo hi : Nat) : Nat := (hi - lo) + ((hi + 1023) / 1024 - (lo + 1023) / 1024)

/-- The first page from `v` on that is not present, within the next `n`. -/
def present (src : Pgdir) : Nat → Nat → Nat
  | 0, v => v
  | n + 1, v => if (src.get v).isSome then present src n (v + 1) else v

theorem le_present (src : Pgdir) (n v : Nat) : v ≤ present src n v := by
  induction n generalizing v with
  | zero => exact Nat.le_refl v
  | succ n ih =>
    unfold present
    split
    · exact Nat.le_of_succ_le (ih (v + 1))
    · exact Nat.le_refl v

section
variable {u : Nat → Bool} {m : Nat}

/-- The pages that page `m` takes: its frame, and a table if it is the first in one. -/
def cost (m : Nat) : Nat := if m % 1024 = 0 then 2 else 1

theorem needs_succ (lo hi : Nat) (h : lo < hi) : needs lo hi = cost lo + needs (lo + 1) hi := by
  unfold needs cost
  split <;> omega

theorem mapPage_filled (h : d.dir.Filled Pte.user u m) (hx : x.user = u m) (free : List Page) :
    (cost m ≤ free.length + 1 ∧ ∃ d' free', d.mapPage m x free = .ok d' free' ∧
      d'.dir.Filled Pte.user u (m + 1) ∧ cost m + free'.length = free.length + 1) ∨
    (free.length + 1 < cost m ∧ d.mapPage m x free = .noMemory) := by
  have hwalk := h.walk_next (by decide)
  unfold mapPage cost
  by_cases hmod : m % 1024 = 0
  · rw [if_pos hmod] at hwalk
    rw [hwalk, if_pos hmod]
    cases free with
    | nil => exact .inr ⟨by decide, rfl⟩
    | cons pgtab rest =>
      have hlen : (pgtab :: rest).length + 1 = 2 + rest.length := by
        rw [List.length_cons]
        omega
      exact .inl ⟨by omega, _, rest, rfl, h.grow (by decide) hmod hx, hlen.symm⟩
  · rw [if_neg hmod] at hwalk
    rw [hwalk, if_neg hmod]
    exact .inl ⟨by omega, _, free, rfl, h.put (by decide) hmod hx, by omega⟩

theorem growPages_filled (hu : ∀ w, m ≤ w → u w = true) (h : d.dir.Filled Pte.user u m)
    (free : List Page) :
    (needs m (m + n) ≤ free.length ∧ ∃ d' free', growPages n m d free = .ok d' free' ∧
      d'.dir.Filled Pte.user u (m + n) ∧ needs m (m + n) + free'.length = free.length) ∨
    (free.length < needs m (m + n) ∧ ∃ d' mem, growPages n m d free = .noMemory d' mem) := by
  induction n generalizing m d free with
  | zero => exact .inl ⟨by simp [needs], d, free, rfl, h, by simp [needs]⟩
  | succ n ih =>
    have hneeds := needs_succ m (m + (n + 1)) (by omega)
    have hcost : 0 < cost m := by
      unfold cost
      split <;> omega
    cases free with
    | nil => exact .inr ⟨by rw [hneeds, List.length_nil]; omega, d, none, rfl⟩
    | cons mem free =>
      rw [growPages, List.length_cons, hneeds]
      rcases mapPage_filled (x := ⟨mem, true⟩) h (hu m (Nat.le_refl m)).symm free with
        ⟨hle, d₁, free₁, hmap, hfilled, hlen⟩ | ⟨hlt, hmap⟩
      · rw [hmap]
        have hrest := ih (fun w hw => hu w (by omega)) hfilled free₁
        rw [show m + 1 + n = m + (n + 1) by omega] at hrest
        rcases hrest with ⟨hle', d', free', hgrow, hfilled', hlen'⟩ | ⟨hlt', hgrow⟩
        · exact .inl ⟨by omega, d', free', hgrow, hfilled', by omega⟩
        · exact .inr ⟨by omega, hgrow⟩
      · rw [hmap]
        exact .inr ⟨by omega, d, some mem, rfl⟩

/-- The loop of `copyuvm` on a filled directory: it runs out of memory exactly when it needs
more than there is for the pages up to the first that is missing in the source, and panics
if it gets there. -/
theorem copyPages_filled (src : Pgdir) (n : Nat) (hu : ∀ w y, src.get w = some y → u w = y.user)
    (h : d.dir.Filled Pte.user u m) (free : List Page) :
    match copyPages src n m d free with
    | .ok _ _ => needs m (present src n m) ≤ free.length ∧ present src n m = m + n
    | .noMemory _ => free.length < needs m (present src n m)
    | .panicked _ => needs m (present src n m) ≤ free.length ∧ present src n m < m + n := by
  induction n generalizing m d free with
  | zero => simp [copyPages, present, needs]
  | succ n ih =>
    unfold copyPages present
    cases hwalk : src.walk m with
    | none =>
      have hget : src.get m = none := by rw [Sparse.Dir.get, hwalk]; rfl
      simp [hget, needs]
    | some y =>
      cases y with
      | none =>
        have hget : src.get m = none := by rw [Sparse.Dir.get, hwalk]; rfl
        simp [hget, needs]
      | some y =>
        have hget : src.get m = some y := by rw [Sparse.Dir.get, hwalk]; rfl
        have hle := le_present src n (m + 1)
        have hneeds := needs_succ m (present src n (m + 1)) (by omega)
        have hcost : 0 < cost m := by
          unfold cost
          split <;> omega
        simp only [hget, Option.isSome_some, if_true]
        cases free with
        | nil =>
          simp only [List.length_nil]
          omega
        | cons mem free =>
          simp only [List.length_cons]
          rcases mapPage_filled (x := ⟨mem, y.user⟩) h (hu m y hget).symm free with
            ⟨hle, d₁, free₁, hmap, hfilled, hlen⟩ | ⟨hlt, hmap⟩
          · have hrest := ih hfilled free₁
            simp only [hmap]
            cases hcopy : copyPages src n (m + 1) d₁ free₁ with
            | ok d' free' | noMemory free' | panicked w =>
              simp only [hcopy] at hrest ⊢
              omega
          · simp only [hmap]
            omega

end

theorem kvmLoop_spec (n : Nat) (d : PhysDir) (free : List Page) :
    (n ≤ free.length ∧ ∃ d' free', kvmLoop n d free = (some d', free') ∧ d'.dir = d.dir ∧
      n + free'.length = free.length) ∨
    (free.length < n ∧ ∃ free', kvmLoop n d free = (none, free')) := by
  induction n generalizing d free with
  | zero => exact .inl ⟨Nat.zero_le _, d, free, rfl, rfl, Nat.zero_add _⟩
  | succ n ih =>
    cases free with
    | nil => exact .inr ⟨Nat.succ_pos n, _, rfl⟩
    | cons pgtab free =>
      rw [kvmLoop, List.length_cons]
      rcases ih {d with kern := d.kern ++ [pgtab]} free with ⟨hle, d', free', heq, hdir, hlen⟩ | ⟨hlt, hnone⟩
      · exact .inl ⟨by omega, d', free', heq, hdir, by omega⟩
      · exact .inr ⟨by omega, hnone⟩

/-- `setupkvm` takes a page for the directory and one for each table of `kmap`, or fails. -/
theorem setupkvm_spec (free : List Page) :
    (KTABLES + 1 ≤ free.length ∧ ∃ d free', setupkvm free = (some d, free') ∧ d.dir = .empty ∧
      KTABLES + 1 + free'.length = free.length) ∨
    (free.length < KTABLES + 1 ∧ ∃ free', setupkvm free = (none, free')) := by
  cases free with
  | nil => exact .inr ⟨by decide, _, rfl⟩
  | cons root free =>
    rw [setupkvm, List.length_cons]
    rcases kvmLoop_spec KTABLES ⟨root, [], .empty, fun _ => 0⟩ free with
      ⟨hle, d, free', heq, hdir, hlen⟩ | ⟨hlt, hnone⟩
    · exact .inl ⟨by omega, d, free', heq, hdir, by omega⟩
    · exact .inr ⟨by omega, hnone⟩

theorem copyuvm_spec (src : Pgdir) (sz : Nat) (free : List Page) :
    match copyuvm src sz free with
    | .ok _ _ => KTABLES + 1 + needs 0 (present src (pages sz) 0) ≤ free.length ∧
        present src (pages sz) 0 = pages sz
    | .noMemory _ => free.length < KTABLES + 1 + needs 0 (present src (pages sz) 0)
    | .panicked _ => KTABLES + 1 + needs 0 (present src (pages sz) 0) ≤ free.length ∧
        present src (pages sz) 0 < pages sz := by
  unfold copyuvm
  rcases setupkvm_spec free with ⟨hle, d, free₁, heq, hdir, hlen⟩ | ⟨hlt, free₁, heq⟩
  · have hfilled : d.dir.Filled Pte.user (fun w => (src.get w).elim true Pte.user) 0 := by
      rw [hdir]
      exact Sparse.Dir.filled_empty _ _
    have hcopy := copyPages_filled src (pages sz) (fun w y hy => by rw [hy]; rfl) hfilled free₁
    rw [heq]
    cases hres : copyPages src (pages sz) 0 d free₁ with
    | ok d' free' | noMemory free' | panicked w =>
      simp only [hres] at hcopy ⊢
      omega
  · rw [heq]
    omega

end ThreadKernel.PhysDir
