import ThreadKernel.Fs.Runs

/-! Who waits for whose inode lock.

`ilock` is asked for with a lock in hand only down the tree, from a directory to what it
has. `iput` is not: `create` puts the directory while it has the new inode locked,
`unlink` of a directory that is not empty puts the directory before its parent, and
`dirlink` puts what it finds under the name, which for `.` is the directory itself. A run in
which nobody with a lock in hand waits for a thread that waits so has no cycle of waits:
along a path of waits, every directory is younger than the one before. -/
namespace ThreadKernel.Fs

open Refcount Interleave Lts

variable {h : List (Move Slot Call)} {s : Pool Op Op.Ans Panic State Slot} {img : Image}
  {t q : Slot} {γ : Slot → Ghost} {strict : Prop}

/-! ### The rule -/

instance (s : State) (q : Slot) : Decidable (Upward s q) :=
  decidable_of_iff ((s.wants q).any (fun v => decide (v.2 = .iput ∧
    ∃ i, s.lock i = some q ∧ (s.inode i).names v.1 = 0)) = true) (by
    simp only [Option.any_eq_true, decide_eq_true_eq, Upward]
    constructor
    · intro ⟨v, hv, hsite, i, hi, hnames⟩
      refine ⟨i, v.1, hi, ?_, hnames⟩
      rw [hv, ← hsite]
    · intro ⟨i, j, hi, hj, hnames⟩
      exact ⟨(j, .iput), hj, rfl, i, hi, hnames⟩)

instance (s : State) : Decidable (Quiet s) :=
  -- few threads wait, so this is asked first
  decidable_of_iff
    (∀ t, ∀ v ∈ s.wants t, (∃ i, s.lock i = some t) → ∀ q ∈ s.lock v.1, ¬ Upward s q) (by
    constructor
    · intro hall t q i j site hi hj hq
      exact hall t _ hj ⟨i, hi⟩ q hq
    · intro hquiet t v hv ⟨i, hi⟩ q hq
      exact hquiet hi hv hq)

/-- As `keepsUp`; further, no lock is asked for if then a thread with a lock in hand waits
for one that waits upward. -/
def keepsQuiet (s : State) (t : Slot) : Op → Prop
  | .request site i => Quiet (s.request t site i)
  | o => keepsUp s t o

instance (s : State) (t : Slot) (o : Op) : Decidable (keepsQuiet s t o) := by
  apply @Op.casesOn _ o <;> intros <;> dsimp only [keepsQuiet] <;> infer_instance

def lockRule : Rule Op State Slot Call := ⟨keepsQuiet, fun _ _ _ => True⟩

instance (s : State) (t : Slot) (o : Op) : Decidable (lockRule.op s t o) :=
  inferInstanceAs (Decidable (keepsQuiet s t o))

instance (s : State) (t : Slot) (c : Call) : Decidable (lockRule.call s t c) :=
  inferInstanceAs (Decidable True)

theorem lockRule_lawful : Lawful False True lockRule where
  cwd := fun hrule howner hq hown => hrule _ howner _ hq hown
  sole := fun hrule hnlink href hd hdir => hrule hnlink href _ hd hdir
  spare := nofun
  attached := nofun
  quiet := fun _ hrule => hrule

/-! ### Waiting -/

/-- `t` is in `acquiresleep` for a lock that `q` has. -/
def Waits (s : State) (t q : Slot) : Prop := ∃ i site, s.wants t = some (i, site) ∧ s.lock i = some q

/-- When the inode was allocated that `t` waits for. -/
def wantedBorn (s : State) (t : Slot) : Nat := (s.wants t).elim 0 fun v => s.born v.1

theorem wantedBorn_eq {s : State} {i : Inum} {site : Site} (h : s.wants t = some (i, site)) :
    wantedBorn s t = s.born i := by
  rw [wantedBorn, h]
  rfl

theorem Waits.unique {s : State} {r : Slot} (hq : Waits s t q) (hr : Waits s t r) : r = q := by
  obtain ⟨i, site, hi, hlock⟩ := hq
  obtain ⟨j, site', hj, hlock'⟩ := hr
  rw [hi] at hj
  cases hj
  rw [hlock] at hlock'
  exact (Option.some.inj hlock').symm

section Climb

variable {s : State} {γ : Slot → Ghost} {strict : Prop} {t q r u : Slot} {i j k : Inum}
  {site site' : Site} (hI : Inv strict True γ s)
include hI

/-- A thread that somebody with a lock in hand waits for waits downward itself. -/
theorem Inv.downward (hi : s.lock i = some t) (hj : s.wants t = some (j, site))
    (hq : s.lock j = some q) (hk : s.wants q = some (k, site')) :
    (s.inode j).type = some .dir ∧ ((s.inode k).type = some .dir → s.born j < s.born k) := by
  cases site' with
  | ilock =>
    have hstage : (γ q).stage = .asks k .ilock := by
      have hw := (hI.each q).wants
      rw [hk] at hw
      cases hs : (γ q).stage <;> rw [hs] at hw <;> cases hw
      rfl
    exact ((hI.each q).asks hstage).2 rfl j (hI.key_of_asked hq hk)
  | iput =>
    have hdown : (s.inode j).names k ≠ 0 := fun hzero =>
      hI.quiet trivial hi hj hq ⟨j, k, hq, hk, hzero⟩
    obtain ⟨e, he, hname⟩ := List.countP_pos_iff.mp (Nat.pos_of_ne_zero hdown)
    obtain ⟨rfl, hplain⟩ := of_decide_eq_true hname
    exact ⟨hI.tree.dir_of_entry he, fun hdir => (hI.tree.child he hplain hdir).2⟩

theorem Inv.climb (hi : s.lock i = some t) (hq : Waits s t q) (hr : Waits s q r) (hu : Waits s r u) :
    wantedBorn s t < wantedBorn s q := by
  obtain ⟨j, site, hj, hjq⟩ := hq
  obtain ⟨k, site', hk, hkr⟩ := hr
  obtain ⟨w, site'', hw, -⟩ := hu
  rw [wantedBorn_eq hj, wantedBorn_eq hk]
  exact (hI.downward hi hj hjq hk).2 (hI.downward hjq hk hkr hw).1

end Climb

/-! ### Cycles -/

open Relation

/-- A cycle goes on from each of its threads. -/
theorem Waits.cycle {s : State} (ht : TransGen (Waits s) t t) (hq : Waits s t q) :
    TransGen (Waits s) q q := by
  obtain ⟨r, hr, hback⟩ := TransGen.head'_iff.mp ht
  rw [hq.unique hr] at hback
  exact TransGen.tail' hback hq

/-- Along a cycle of waits, what is waited for gets younger. -/
theorem Inv.cycle_climbs {s : State}
    (hI : Inv strict True γ s) (ht : TransGen (Waits s) t t) (hq : Waits s t q) :
    wantedBorn s t < wantedBorn s q := by
  obtain ⟨p, -, i, site, -, hi⟩ := TransGen.tail'_iff.mp ht
  obtain ⟨r, hr, -⟩ := TransGen.head'_iff.mp (Waits.cycle ht hq)
  obtain ⟨u, hu, -⟩ := TransGen.head'_iff.mp (Waits.cycle (Waits.cycle ht hq) hr)
  exact hI.climb hi hq hr hu

theorem Inv.acyclic {s : State} (hI : Inv strict True γ s) (t : Slot) : ¬ TransGen (Waits s) t t := by
  intro ht
  have hpath : ∀ q, TransGen (Waits s) t q →
      TransGen (Waits s) q q ∧ wantedBorn s t < wantedBorn s q := by
    intro q hq
    induction hq with
    | single hq => exact ⟨Waits.cycle ht hq, hI.cycle_climbs ht hq⟩
    | tail _ hr ih => exact ⟨Waits.cycle ih.1 hr, ih.2.trans (hI.cycle_climbs ih.1 hr)⟩
  exact lt_irrefl _ (hpath t ht).2

/-- No threads wait for each other in a circle, and none for itself. -/
theorem no_deadlock (hr : Run (Guarded system.Step lockRule.Keeps) (.start img.boot) h s) (t : Slot) :
    ¬ TransGen (Waits s.shared) t t := by
  obtain ⟨γ, hI, -⟩ := Run.inv lockRule_lawful hr
  exact hI.acyclic t

/-- `unlink` of `/a` has the root locked and waits for `/a`, which `chdir` has. -/
theorem no_deadlock_unlink : ∃ h s,
    Run (Guarded system.Step lockRule.Keeps) (.start bare.boot) h s ∧ s.shared.lock 1 = some 0 ∧
    Waits s.shared 0 1 ∧ ¬ TransGen (Waits s.shared) 0 0 := by
  have hrun := system.exists_of_moves lockRule bare.boot
    (Move.calls 0 (Call.mkdir dirPath) 39 ++ Move.calls 0 (Call.fork 1 1) 3 ++
      Move.calls 1 (Call.chdir dirPath) 15 ++ Move.calls 0 (Call.unlink dirPath) 12)
    (P := fun s => s.shared.lock 1 = some 0 ∧ s.shared.wants 0 = some (2, .ilock) ∧
      s.shared.lock 2 = some 1) (by decide +kernel)
  obtain ⟨h, s, hr, hroot, hwants, hlock⟩ := hrun
  exact ⟨h, s, hr, hroot, ⟨2, .ilock, hwants, hlock⟩, no_deadlock hr 0⟩

/-- `link` to `.` waits for the directory that it has locked. -/
theorem link_dot_deadlock : ∃ h s, Run system.Step (.start (Image.boot ⟨[1], by decide⟩)) h s ∧
    Waits s.shared 0 0 := by
  have hrun := system.reaches_of_moves (Image.boot ⟨[1], by decide⟩)
    (Move.calls 0 (Call.link dirPath ⟨false, [.dot]⟩) 32)
    (P := fun s => s.shared.wants 0 = some (1, .iput) ∧ s.shared.lock 1 = some 0) (by decide +kernel)
  obtain ⟨h, s, hr, hwants, hlock⟩ := hrun
  exact ⟨h, s, hr, 1, .iput, hwants, hlock⟩

end ThreadKernel.Fs
