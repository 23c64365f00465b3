import ThreadKernel.Memory.Image

/-! The build of an image, step by step against `plan`.

As long as nothing but `allocuvm` has changed the user half of the new directory it holds
the pages below the size and no others, so every later step depends on the size alone. The
build therefore ends as `plan` says, or in `bad` for lack of memory; and it loses no page.

Loading is safe exactly when every page that `loaduvm` writes to is below the size. The sum
`vaddr + memsz` is not checked for overflow, and a file for which it wraps can have its
bytes written over the kernel. -/
namespace ThreadKernel.Memory

open Bytes PhysDir

variable {d d' : PhysDir} {f : Content} {m n v off sz : Nat} {u : Nat → Bool}
  {free free' : List Page}
  {a b : Pgdir} {c : Nat}

/-! ### Directories of the same shape -/

/-- Present in the same places, for the same accesses. -/
def SameShape (a b : Pgdir) : Prop :=
  ∀ v, (a.walk v).map (Option.map Pte.user) = (b.walk v).map (Option.map Pte.user)

theorem flat_filled (m : Nat) (u : Nat → Bool) : (flat m u).Filled Pte.user u m := by
  intro v
  unfold Sparse.Dir.walk flat
  by_cases htable : v / 1024 * 1024 < m
  · by_cases hv : v < m
    · simp [htable, hv]
    · simp [htable, hv]
  · simp [htable]

theorem withKernel_walk (user : Pgdir) (v : Nat) : (withKernel user).walk v =
    if v < UPAGES then user.walk v
    else if kernTable (v / 1024) then some (some ⟨0, false⟩) else none := by
  have hiff : v / 1024 < UTABLES ↔ v < UPAGES := by
    simp only [UPAGES, UTABLES, KERNBASE, PGSIZE, TABLESIZE]
    omega
  unfold Sparse.Dir.walk withKernel
  by_cases hv : v < UPAGES
  · simp only [hiff, hv, if_true]
  · simp only [hiff, hv, if_false]

theorem SameShape.withKernel (h : SameShape a b) :
    SameShape (withKernel a) (withKernel b) := by
  intro v
  rw [withKernel_walk, withKernel_walk]
  split
  · exact h v
  · rfl

/-- Two directories filled up to the same page have the same shape. -/
theorem SameShape.of_filled (ha : a.Filled Pte.user u m) (hb : b.Filled Pte.user u m) :
    SameShape a b := by
  intro v
  rw [ha v, hb v]

/-! ### Loading -/

theorem loaduvm_shape (h : SameShape a b) (f : Content) (n v off sz : Nat) :
    (loaduvm a f n v off sz).verdict = (loaduvm b f n v off sz).verdict := by
  induction n generalizing v off sz with
  | zero => rfl
  | succ n ih =>
    have hv := h (v % 2 ^ 20)
    have hrest := ih (v + 1) (off + PGSIZE) (sz - PGSIZE)
    unfold loaduvm
    cases ha : a.walk (v % 2 ^ 20) with
    | none =>
      rw [ha] at hv
      rw [Option.map_eq_none_iff.mp hv.symm]
    | some x =>
      rw [ha] at hv
      obtain ⟨y, hb, hxy⟩ := Option.map_eq_some_iff.mp hv.symm
      rw [hb]
      dsimp only
      split
      · rfl
      · cases x with
        | none => rw [Option.map_eq_none_iff.mp hxy]
        | some x =>
          obtain ⟨⟨pb, ub⟩, rfl, huser⟩ := Option.map_eq_some_iff.mp hxy
          obtain ⟨pa, ua⟩ := x
          obtain rfl : ub = ua := huser
          cases ub with
          | false => rfl
          | true =>
            dsimp only
            split
            · revert hrest
              cases loaduvm a f n (v + 1) (off + PGSIZE) (sz - PGSIZE) <;>
                cases loaduvm b f n (v + 1) (off + PGSIZE) (sz - PGSIZE) <;>
                simp [Loaded.verdict]
            · rfl

/-- How many bytes of a page of a segment `loaduvm` copies. -/
def loads (f : Content) (off sz : Nat) : Nat := copied f (off % 2 ^ 32) (min sz PGSIZE)

/-- The bytes of one page of a segment can be read. -/
def readable1 (f : Content) (off sz : Nat) : Bool :=
  loads f off sz ≠ 0 ∧ loads f off sz = min sz PGSIZE

/-- All the bytes of a segment of `n` pages can be read. -/
def readable (f : Content) : Nat → Nat → Nat → Bool
  | 0, _, _ => true
  | n + 1, off, sz => readable1 f off sz && readable f n (off + PGSIZE) (sz - PGSIZE)

/-- Page `v` has a page table, in a directory of `m` pages. -/
def Tabled (m v : Nat) : Prop :=
  if v < UPAGES then v / 1024 * 1024 < m else kernTable (v / 1024) = true

/-- The pages from `v` on that `loaduvm` writes to are below `m`. It stops at the first page
for which the file has not all the bytes; if it has none, the page need only have a table. -/
def Inside (f : Content) (m : Nat) : Nat → Nat → Nat → Nat → Prop
  | 0, _, _, _ => True
  | n + 1, v, off, sz =>
    if loads f off sz = 0 then Tabled m v
    else v < m ∧ (readable1 f off sz = true → Inside f m n (v + 1) (off + PGSIZE) (sz - PGSIZE))

theorem withKernel_tabled (h : a.Filled Pte.user (fun _ => true) m) (v : Nat) :
    ((withKernel a).walk v).isSome = true ↔ Tabled m v := by
  have hv := congrArg Option.isSome (h v)
  rw [Option.isSome_map] at hv
  rw [withKernel_walk, Tabled]
  split
  · rw [hv]
    split <;> simp [*]
  · split <;> simp [*]

/-- A page that is not one of the image is not there, or the kernel's. -/
theorem withKernel_outside (h : a.Filled Pte.user (fun _ => true) m) (hlt : ¬ v < m)
    {x : Pte} (hx : (withKernel a).walk v = some (some x)) : x.user = false := by
  rw [withKernel_walk] at hx
  split at hx
  · have hwalk := h v
    rw [hx, if_neg hlt] at hwalk
    split at hwalk <;> cases hwalk
  · split at hx
    · cases hx
      rfl
    · cases hx

/-- In a directory filled up to `m`, `loaduvm` writes to the pages below `m`, and is lost as
soon as it writes to another. -/
theorem loaduvm_filled (h : a.Filled Pte.user (fun _ => true) m) (hm : m ≤ UPAGES)
    (f : Content) (n v off sz : Nat) (hv : v < 2 ^ 20) :
    match loaduvm (withKernel a) f n v off sz with
    | .ok ws => Inside f m n v off sz ∧ readable f n off sz = true ∧
        ∀ w ∈ ws, w.page < m ∧ a.get w.page = some ⟨w.frame, true⟩
    | .short => Inside f m n v off sz ∧ readable f n off sz = false
    | .stray => ¬ Inside f m n v off sz
    | .panicked => ¬ Inside f m n v off sz := by
  induction n generalizing v off sz with
  | zero => exact ⟨trivial, rfl, fun w hw => by cases hw⟩
  | succ n ih =>
    have hmod : v % 2 ^ 20 = v := Nat.mod_eq_of_lt hv
    have hbound : UPAGES = 2 ^ 19 := rfl
    have htabled := withKernel_tabled h v
    unfold loaduvm readable Inside
    rw [hmod]
    cases hwalk : (withKernel a).walk v with
    | none =>
      rw [hwalk] at htabled
      have hnot : ¬ Tabled m v := fun htable => Bool.false_ne_true (htabled.mpr htable)
      have hlt : ¬ v < m := by
        intro hlt
        apply hnot
        rw [Tabled, if_pos (by omega)]
        omega
      dsimp only
      split <;> simp [hnot, hlt]
    | some pte =>
      rw [hwalk] at htabled
      have hread : copied f (off % 2 ^ 32) (min sz PGSIZE) = loads f off sz := rfl
      dsimp only
      rw [hread]
      by_cases hzero : loads f off sz = 0
      · rw [if_pos hzero, if_pos hzero]
        exact ⟨htabled.mp rfl, by simp [readable1, hzero]⟩
      rw [if_neg hzero, if_neg hzero]
      by_cases hlt : v < m
      · -- a page of the image
        have hfill := h v
        have htable : v / 1024 * 1024 < m := by omega
        rw [if_pos htable, if_pos hlt] at hfill
        rw [withKernel_walk, if_pos (by omega)] at hwalk
        rw [hwalk] at hfill
        obtain ⟨⟨pa, user⟩, rfl, huser⟩ := Option.map_eq_some_iff.mp (Option.some.inj hfill)
        obtain rfl : user = true := huser
        have hget : a.get v = some ⟨pa, true⟩ := by
          rw [Sparse.Dir.get, hwalk]
          rfl
        dsimp only
        by_cases hall : loads f off sz = min sz PGSIZE
        · have hone : readable1 f off sz = true := by
            rw [readable1, decide_eq_true_iff]
            exact ⟨hzero, hall⟩
          have hrest := ih (v + 1) (off + PGSIZE) (sz - PGSIZE) (by omega)
          rw [if_pos hall]
          simp only [hone, hlt, true_and, Bool.true_and, forall_const]
          cases hload : loaduvm (withKernel a) f n (v + 1) (off + PGSIZE) (sz - PGSIZE) with
          | ok ws =>
            rw [hload] at hrest
            refine ⟨hrest.1, hrest.2.1, fun w hw => ?_⟩
            rcases List.mem_cons.mp hw with rfl | hw
            · exact ⟨hlt, hget⟩
            · exact hrest.2.2 w hw
          | short | stray | panicked =>
            rw [hload] at hrest
            exact hrest
        · rw [if_neg hall]
          have hone : readable1 f off sz = false := by simp [readable1, hall]
          simp [hone, hlt]
      · -- a hole, or the kernel
        have hlost : ¬ (v < m ∧ (readable1 f off sz = true →
            Inside f m n (v + 1) (off + PGSIZE) (sz - PGSIZE))) := fun hin => hlt hin.1
        cases pte with
        | none => exact hlost
        | some x =>
          obtain ⟨pa, user⟩ := x
          obtain rfl : user = false := withKernel_outside h hlt hwalk
          exact hlost

/-! ### Growing -/

theorem allocuvm_filled (h : d.dir.Filled Pte.user u (pages sz)) (hu : ∀ w, pages sz ≤ w → u w = true)
    (newsz : Nat) (free : List Page) :
    ∃ d' r free', d.allocuvm sz newsz free = some (d', r, free') ∧
      ((r = 0 ∧ (KERNBASE ≤ newsz ∨ max sz newsz = 0 ∨
          (newsz < KERNBASE ∧ free.length < needs (pages sz) (pages newsz)))) ∨
        (r = max sz newsz ∧ r ≠ 0 ∧ newsz < KERNBASE ∧ d'.dir.Filled Pte.user u (pages r) ∧
          needs (pages sz) (pages r) + free'.length = free.length)) := by
  unfold PhysDir.allocuvm
  by_cases hkern : KERNBASE ≤ newsz
  · rw [if_pos hkern]
    exact ⟨d, 0, free, rfl, .inl ⟨rfl, .inl hkern⟩⟩
  · rw [if_neg hkern]
    by_cases hlt : newsz < sz
    · rw [if_pos hlt]
      have hneeds : needs (pages sz) (pages sz) = 0 := by simp [needs]
      exact ⟨d, sz, free, rfl, .inr ⟨by omega, by omega, by omega, h, by omega⟩⟩
    · rw [if_neg hlt]
      have hmono := pages_mono (Nat.le_of_not_lt hlt)
      have hsum : pages sz + (pages newsz - pages sz) = pages newsz := by omega
      have hgrow := growPages_filled (n := pages newsz - pages sz) hu h free
      rw [hsum] at hgrow
      rcases hgrow with ⟨hle, d', free', heq, hfilled, hlen⟩ | ⟨hless, d', mem, heq⟩
      · rw [heq]
        refine ⟨d', newsz, free', rfl, ?_⟩
        by_cases hzero : newsz = 0
        · exact .inl ⟨hzero, .inr (.inl (by omega))⟩
        · exact .inr ⟨by omega, hzero, by omega, hfilled, hlen⟩
      · rw [heq]
        exact ⟨_, 0, _, rfl, .inl ⟨rfl, .inr (.inr ⟨by omega, hless⟩)⟩⟩

theorem needs_add {a b : Nat} (hab : a ≤ b) (hbc : b ≤ c) : needs a b + needs b c = needs a c := by
  unfold needs
  omega

theorem needs_mono {a b : Nat} (h : b ≤ c) : needs a b ≤ needs a c := by
  unfold needs
  omega

/-- What has been written is in pages of the image. -/
def WrittenIn (ws : List Write) (a : Pgdir) (m : Nat) : Prop :=
  ∀ w ∈ ws, w.page < m ∧ a.get w.page = some ⟨w.frame, true⟩

theorem exact_of_filled (h : a.Filled Pte.user u (pages sz)) : Exact a sz := by
  intro v
  have hv := congrArg (fun o => o.join.isSome) (h v)
  have hget : (a.get v).isSome = ((a.walk v).map (Option.map Pte.user)).join.isSome := by
    rw [Sparse.Dir.get]
    cases a.walk v with
    | none => rfl
    | some y => cases y <;> rfl
  rw [hget, hv]
  by_cases hlt : v < pages sz
  · have htable : v / 1024 * 1024 < pages sz := by omega
    simp [htable, hlt]
  · by_cases htable : v / 1024 * 1024 < pages sz <;> simp [htable, hlt]

theorem WrittenIn.grow {ws : List Write} {newsz r : Nat} (hw : WrittenIn ws d.dir (pages sz))
    (h : d.dir.Filled Pte.user u (pages sz)) (halloc : d.allocuvm sz newsz free = some (d', r, free'))
    (hr : r ≠ 0) (hle : sz ≤ r) : WrittenIn ws d'.dir (pages r) := by
  obtain ⟨d₁, r₁, heq, hcases⟩ := (exact_of_filled h).allocuvm newsz free
  rw [PhysDir.allocuvm_dir, halloc] at heq
  cases heq
  have hmono := pages_mono hle
  rcases hcases with ⟨hzero, -⟩ | ⟨-, -, -, hold, -⟩
  · exact absurd hzero hr
  · intro w hmem
    obtain ⟨hpage, hget⟩ := hw w hmem
    exact ⟨by omega, by rw [hold _ hpage, hget]⟩

/-! ### The loop -/

/-- The loop ends as planned, or in `bad` for lack of memory. -/
theorem loadLoop_spec (f : Content) (hs : List (Option Proghdr)) (ws : List Write)
    (h : d.dir.Filled Pte.user (fun _ => true) (pages sz)) (hsz : sz < KERNBASE)
    (hw : WrittenIn ws d.dir (pages sz)) (free : List Page) :
    match loadLoop f hs sz ws d free with
    | .next (sz', ws') d' free' => planLoad f hs sz = .next sz' ∧ sz ≤ sz' ∧ sz' < KERNBASE ∧
        d'.dir.Filled Pte.user (fun _ => true) (pages sz') ∧ WrittenIn ws' d'.dir (pages sz') ∧
        needs (pages sz) (pages sz') + free'.length = free.length
    | .bad _ _ => planLoad f hs sz = .bad ∨ free.length < needs (pages sz) UPAGES
    | .stray => planLoad f hs sz = .stray
    | .panicked => planLoad f hs sz = .panicked := by
  induction hs generalizing sz ws d free with
  | nil => exact ⟨rfl, Nat.le_refl sz, hsz, h, hw, by simp [needs]⟩
  | cons x hs ih =>
    cases x with
    | none => exact .inl rfl
    | some ph =>
      unfold loadLoop planLoad
      by_cases htype : ph.type ≠ ELF_PROG_LOAD
      · rw [if_pos htype, if_pos htype]
        exact ih ws h hsz hw free
      rw [if_neg htype, if_neg htype]
      by_cases hmem : ph.memsz < ph.filesz
      · rw [if_pos hmem, if_pos hmem]
        exact .inl rfl
      rw [if_neg hmem, if_neg hmem]
      generalize (ph.vaddr + ph.memsz).toNat = newsz
      obtain ⟨d', r, free', halloc, hcases⟩ := allocuvm_filled h (fun _ _ => rfl) newsz free
      rw [halloc]
      dsimp only
      rcases hcases with ⟨rfl, hfail⟩ | ⟨hr, hne, hkern, hfilled, hlen⟩
      · rw [if_pos rfl]
        rcases hfail with hkern | hzero | ⟨hkern, hless⟩
        · exact .inl (if_pos (.inl hkern))
        · exact .inl (if_pos (.inr (.inl hzero)))
        · have hbound := PhysDir.pages_le (Nat.le_of_lt hkern)
          exact .inr (Nat.lt_of_lt_of_le hless (needs_mono hbound))
      · rw [if_neg hne]
        by_cases halign : ph.vaddr.toNat % PGSIZE ≠ 0
        · rw [if_pos halign]
          exact .inl (if_pos (.inr (.inr halign)))
        rw [if_neg halign, if_neg (by omega)]
        have hrbound : r < KERNBASE := by omega
        have hle : sz ≤ r := by omega
        have hrpages := PhysDir.pages_le (Nat.le_of_lt hrbound)
        have hmono := pages_mono hle
        have hshape : SameShape d'.dir (flat (pages (max sz newsz)) fun _ => true) := by
          rw [← hr]
          exact .of_filled hfilled (flat_filled _ _)
        have hverdict : (loadSegment d'.dir f ph).verdict =
            (loadSegment (flat (pages (max sz newsz)) fun _ => true) f ph).verdict :=
          loaduvm_shape hshape.withKernel f _ _ _ _
        have hload := loaduvm_filled hfilled hrpages f (pages ph.filesz.toNat) (ph.vaddr.toNat / PGSIZE)
          ph.off.toNat ph.filesz.toNat (by have := ph.vaddr.isLt; simp only [PGSIZE]; omega)
        have hgrown := hw.grow h halloc hne hle
        rw [← hverdict]
        cases hseg : loadSegment d'.dir f ph with
        | stray => rfl
        | panicked => rfl
        | short => exact .inl rfl
        | ok ws' =>
          have hseg' : loaduvm (withKernel d'.dir) f (pages ph.filesz.toNat) (ph.vaddr.toNat / PGSIZE)
              ph.off.toNat ph.filesz.toNat = .ok ws' := hseg
          rw [hseg'] at hload
          have hboth : WrittenIn (ws ++ ws') d'.dir (pages r) := by
            intro w hmem
            rcases List.mem_append.mp hmem with hmem | hmem
            · exact hgrown w hmem
            · exact hload.2.2 w hmem
          have hrest := ih (ws ++ ws') hfilled hrbound hboth free'
          rw [← hr]
          have hadd := needs_add hmono hrpages
          cases hgo : loadLoop f hs r (ws ++ ws') d' free' with
          | next x d₂ free₂ =>
            simp only [hgo] at hrest ⊢
            obtain ⟨hplan, hle₂, hsz₂, hfilled₂, hw₂, hlen₂⟩ := hrest
            have hadd₂ := needs_add hmono (pages_mono hle₂)
            exact ⟨hplan, by omega, hsz₂, hfilled₂, hw₂, by omega⟩
          | bad d₂ free₂ =>
            simp only [hgo] at hrest ⊢
            rcases hrest with hplan | hless
            · exact .inl hplan
            · exact .inr (by omega)
          | stray | panicked =>
            simp only [hgo] at hrest ⊢
            exact hrest

/-- Whatever came out of the loading, the directory and the free list together hold exactly the
pages of `held`. -/
inductive Built.Conserves {α : Type} (held : List Page) : Built α → Prop
  | next (x : α) {d : PhysDir} {free : List Page} :
      (d.owned ++ free).Perm held → Conserves held (.next x d free)
  | bad {d : PhysDir} {free : List Page} : (d.owned ++ free).Perm held → Conserves held (.bad d free)
  | stray : Conserves held .stray
  | panicked : Conserves held .panicked

theorem Built.Conserves.trans {α : Type} {held held' : List Page} {b : Built α}
    (h : b.Conserves held) (hperm : held.Perm held') : b.Conserves held' := by
  cases h with
  | next x h => exact .next x (h.trans hperm)
  | bad h => exact .bad (h.trans hperm)
  | stray => exact .stray
  | panicked => exact .panicked

theorem loadLoop_conserves (f : Content) (hs : List (Option Proghdr)) (sz : Nat)
    (ws : List Write) (d : PhysDir) (free : List Page) :
    (loadLoop f hs sz ws d free).Conserves (d.owned ++ free) := by
  induction hs generalizing sz ws d free with
  | nil => exact .next _ (List.Perm.refl _)
  | cons x hs ih =>
    cases x with
    | none => exact .bad (List.Perm.refl _)
    | some ph =>
      unfold loadLoop
      split
      · exact ih sz ws d free
      · split
        · exact .bad (List.Perm.refl _)
        · cases halloc : d.allocuvm sz (ph.vaddr + ph.memsz).toNat free with
          | none => exact .panicked
          | some x =>
            obtain ⟨d', r, free'⟩ := x
            have hperm := PhysDir.allocuvm_perm halloc
            dsimp only
            split
            · exact .bad hperm
            · split
              · exact .bad hperm
              · cases loadSegment d'.dir f ph with
                | stray => exact .stray
                | panicked => exact .panicked
                | short => exact .bad hperm
                | ok ws' => exact (ih r (ws ++ ws') d' free').trans hperm

/-! ### Which files are loaded safely

`exec` does not check that `vaddr + memsz` stays a 32-bit number. After an overflow
`allocuvm` is asked for less than the segment, and `loaduvm` writes where nothing was
allocated, unless an earlier segment reached that far. -/

/-- Each segment that the loop gets to lies in the pages allocated so far, as far as
`loaduvm` comes with it. -/
def Sane (f : Content) : List (Option Proghdr) → Nat → Prop
  | [], _ => True
  | none :: _, _ => True
  | some ph :: rest, sz =>
    if ph.type ≠ ELF_PROG_LOAD then Sane f rest sz
    else
      let newsz := (ph.vaddr + ph.memsz).toNat
      let n := pages ph.filesz.toNat
      ph.memsz < ph.filesz ∨ KERNBASE ≤ newsz ∨ max sz newsz = 0 ∨ ph.vaddr.toNat % PGSIZE ≠ 0 ∨
        Inside f (pages (max sz newsz)) n (ph.vaddr.toNat / PGSIZE) ph.off.toNat ph.filesz.toNat ∧
        (readable f n ph.off.toNat ph.filesz.toNat = true → Sane f rest (max sz newsz))

/-- Neither a stray write nor a panic. -/
def Verdict.Safe {α : Type} (v : Verdict α) : Prop := v ≠ .stray ∧ v ≠ .panicked

theorem Verdict.safe_bad {α : Type} : (Verdict.bad : Verdict α).Safe :=
  ⟨nofun, nofun⟩

theorem page_lt (v : Word) : v.toNat / PGSIZE < 2 ^ 20 :=
  Nat.div_lt_of_lt_mul v.isLt

theorem loadSegment_flat (f : Content) (ph : Proghdr) (hsz : sz ≤ KERNBASE) :
    let n := pages ph.filesz.toNat
    let v := (loadSegment (flat (pages sz) fun _ => true) f ph).verdict
    (v.Safe ↔ Inside f (pages sz) n (ph.vaddr.toNat / PGSIZE) ph.off.toNat ph.filesz.toNat) ∧
      (v = .next () → readable f n ph.off.toNat ph.filesz.toNat = true) ∧
      (v = .bad → readable f n ph.off.toNat ph.filesz.toNat = false) := by
  intro n v
  have hload := loaduvm_filled (flat_filled (pages sz) fun _ => true) (PhysDir.pages_le hsz) f n
    (ph.vaddr.toNat / PGSIZE) ph.off.toNat ph.filesz.toNat (page_lt ph.vaddr)
  have hv : v = (loaduvm (withKernel (flat (pages sz) fun _ => true)) f n
    (ph.vaddr.toNat / PGSIZE) ph.off.toNat ph.filesz.toNat).verdict := rfl
  rw [hv]
  cases hr : loaduvm (withKernel (flat (pages sz) fun _ => true)) f n
      (ph.vaddr.toNat / PGSIZE) ph.off.toNat ph.filesz.toNat <;>
    simp only [hr] at hload <;> simp [Loaded.verdict, Verdict.Safe, hload]

theorem planLoad_safe_iff (f : Content) (hs : List (Option Proghdr)) (hsz : sz < KERNBASE) :
    (planLoad f hs sz).Safe ↔ Sane f hs sz := by
  induction hs generalizing sz with
  | nil => simp [planLoad, Sane, Verdict.Safe]
  | cons x hs ih =>
    cases x with
    | none => simp [planLoad, Sane, Verdict.Safe]
    | some ph =>
      unfold planLoad Sane
      by_cases htype : ph.type ≠ ELF_PROG_LOAD
      · rw [if_pos htype, if_pos htype]
        exact ih hsz
      rw [if_neg htype, if_neg htype]
      by_cases hmem : ph.memsz < ph.filesz
      · rw [if_pos hmem]
        exact iff_of_true Verdict.safe_bad (.inl hmem)
      rw [if_neg hmem]
      generalize (ph.vaddr + ph.memsz).toNat = newsz
      by_cases hbad : KERNBASE ≤ newsz ∨ max sz newsz = 0 ∨ ph.vaddr.toNat % PGSIZE ≠ 0
      · rw [if_pos hbad]
        exact iff_of_true Verdict.safe_bad (by tauto)
      rw [if_neg hbad]
      have hmax : max sz newsz < KERNBASE := by omega
      obtain ⟨hsafe, hnext, hshort⟩ := loadSegment_flat f ph (Nat.le_of_lt hmax)
      have hrest := ih hmax
      have hor : ∀ p : Prop, (ph.memsz < ph.filesz ∨ KERNBASE ≤ newsz ∨ max sz newsz = 0 ∨
          ph.vaddr.toNat % PGSIZE ≠ 0 ∨ p) ↔ p := by
        intro p
        tauto
      rw [hor, ← hsafe]
      cases hv : (loadSegment (flat (pages (max sz newsz)) fun _ => true) f ph).verdict with
      | next x =>
        rw [hnext hv]
        have htrue : (Verdict.next x).Safe := ⟨nofun, nofun⟩
        simp only [hrest, htrue, true_and, forall_const]
      | bad =>
        rw [hshort hv]
        simp [Verdict.Safe]
      | stray => simp [Verdict.Safe]
      | panicked => simp [Verdict.Safe]

/-- With whatever memory there is: the loop ends in `bad`, or it has written to nothing but
frames that `allocuvm` put into the new directory, at addresses below the size it returns (and
so below the final one, which is a page boundary above it). -/
def LoadsSafely (f : Content) (elf : Elfhdr) : Prop :=
  ∀ free d free₁, setupkvm free = (some d, free₁) →
    match loadLoop f (proghdrs f elf) 0 [] d free₁ with
    | .bad _ _ => True
    | .next (sz, ws) d' _ => sz < KERNBASE ∧
        ∀ w ∈ ws, w.page < pages sz ∧ d'.dir.get w.page = some ⟨w.frame, true⟩
    | .stray => False
    | .panicked => False

theorem setupkvm_filled (u : Nat → Bool)
    (h : setupkvm free = (some d, free')) : d.dir.Filled Pte.user u (pages 0) := by
  have hdir : d.dir = .empty := by
    rcases setupkvm_spec free with ⟨_, d₂, free₂, heq, hdir, _⟩ | ⟨_, free₂, heq⟩
    · rw [h] at heq
      cases heq
      exact hdir
    · rw [h] at heq
      cases heq
  rw [hdir]
  exact Sparse.Dir.filled_empty _ _

theorem load_safe_iff_sane (f : Content) (elf : Elfhdr) :
    LoadsSafely f elf ↔ Sane f (proghdrs f elf) 0 := by
  rw [← planLoad_safe_iff f (proghdrs f elf) (by decide)]
  constructor
  · -- with memory for every page of the user half, the plan is what happens
    intro hall
    let free := List.range (KTABLES + 1 + needs 0 UPAGES)
    have hlen : free.length = KTABLES + 1 + needs 0 UPAGES := List.length_range
    obtain ⟨_, d, free₁, heq, _, hleft⟩ | ⟨hless, _⟩ := setupkvm_spec free
    · have hspec := loadLoop_spec f (proghdrs f elf) [] (setupkvm_filled _ heq) (by decide)
        (fun _ hmem => nomatch hmem) free₁
      have hrun := hall free d free₁ heq
      cases hgo : loadLoop f (proghdrs f elf) 0 [] d free₁ with
      | next x d' free' =>
        simp only [hgo] at hspec
        rw [hspec.1]
        exact ⟨nofun, nofun⟩
      | bad d' free' =>
        simp only [hgo] at hspec
        have hpages : pages 0 = 0 := rfl
        rcases hspec with hplan | hless
        · rw [hplan]
          exact Verdict.safe_bad
        · rw [hpages] at hless
          omega
      | stray =>
        simp only [hgo] at hrun
      | panicked =>
        simp only [hgo] at hrun
    · omega
  · intro hsafe free d free₁ heq
    have hspec := loadLoop_spec f (proghdrs f elf) [] (setupkvm_filled _ heq) (by decide)
      (fun _ hmem => nomatch hmem) free₁
    cases hgo : loadLoop f (proghdrs f elf) 0 [] d free₁ with
    | next x d' free' =>
      simp only [hgo] at hspec
      exact ⟨hspec.2.2.1, hspec.2.2.2.2.1⟩
    | bad d' free' => trivial
    | stray =>
      simp only [hgo] at hspec
      exact hsafe.1 hspec
    | panicked =>
      simp only [hgo] at hspec
      exact hsafe.2 hspec

/-- An executable of one segment, four bytes at `KERNBASE`, with a `memsz` that takes the sum
around to 4096. -/
def overflowing : Content :=
  [0x7f, 0x45, 0x4c, 0x46] ++ List.replicate 24 0 ++ [52, 0, 0, 0] ++ List.replicate 12 0 ++ [1, 0] ++
  List.replicate 6 0 ++ [1, 0, 0, 0] ++ [0, 0, 0, 0] ++ [0, 0, 0, 0x80] ++ [0, 0, 0, 0] ++
  [4, 0, 0, 0] ++ [0, 0x10, 0, 0x80] ++ List.replicate 8 0

/-- Its four bytes are written through the kernel's mapping of physical page 0. -/
theorem overflowing_strays : ∃ elf, elfhdr overflowing = some elf ∧ ¬ LoadsSafely overflowing elf := by
  refine ⟨⟨0, 52, 1⟩, rfl, fun hsafe => ?_⟩
  have hrun : (setupkvm (List.range 70)).1.elim False fun d => loadLoop overflowing
      (proghdrs overflowing ⟨0, 52, 1⟩) 0 [] d (setupkvm (List.range 70)).2 = .stray := rfl
  cases hsetup : setupkvm (List.range 70) with
  | mk found free =>
    rw [hsetup] at hrun
    cases found with
    | none => exact hrun
    | some d =>
      have hall := hsafe (List.range 70) d free hsetup
      rw [show loadLoop overflowing (proghdrs overflowing ⟨0, 52, 1⟩) 0 [] d free = .stray from hrun] at hall
      exact hall

end ThreadKernel.Memory
