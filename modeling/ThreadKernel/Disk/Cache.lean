import ThreadKernel.Library.Ring
import ThreadKernel.Library.Run

/-! `bio.c`: the buffer cache.

A task that calls `bread` holds a reference to a buffer from the section of `bget` under
`bcache.lock` to the section of `brelse` under it, and in between the sleep lock of the
buffer. With the lock it may change the data, and give them to `log_write` or `bwrite`
before it lets the buffer go. Each of these is a step, and a task may hold any number of
references; `commit` is made of the same steps. `iderw` is one step.

Whatever is done in whatever order, `bread` returns what was last given to `log_write` or
`bwrite`: the cache is a flat map from block numbers to contents (`Flat`). -/
namespace ThreadKernel.Cache

open Lts Ring Function

abbrev NBUF : Nat := 30
abbrev ROOTDEV : Nat := 1
abbrev Task := Nat
abbrev BufId := Fin NBUF

structure Buf (α : Type) where
  dev : Nat
  blockno : Nat
  /-- `B_VALID` -/
  valid : Bool
  /-- `B_DIRTY` -/
  dirty : Bool
  refcnt : Nat
  /-- The sleep lock, with who has it. -/
  lock : Option Task
  data : α

/-- How far a task is with a buffer. -/
inductive Stage where
  /-- In `bget`, before `acquiresleep`. -/
  | waiting
  /-- In `bread`, with the lock. -/
  | locked
  | held
  /-- The data are changed and not given to `log_write` or `bwrite` yet. -/
  | changed
  /-- In `brelse`, past `releasesleep`. -/
  | released
  deriving DecidableEq

def Stage.owns : Stage → Bool
  | .locked | .held | .changed => true
  | _ => false

/-- A reference to a buffer, got by a `bread` of `block`. -/
structure Ref where
  task : Task
  buf : BufId
  block : Nat
  stage : Stage
  deriving DecidableEq

structure State (α : Type) where
  buf : BufId → Buf α
  ring : Links BufId
  disk : Nat → α
  refs : List Ref

inductive Act (α : Type) where
  /-- `bget(ROOTDEV, b)` up to `acquiresleep`. -/
  | bget (b : Nat)
  | acquiresleep (r : Ref)
  /-- The rest of `bread`. -/
  | bread (r : Ref)
  | modify (r : Ref) (x : α)
  | logWrite (r : Ref)
  | bwrite (r : Ref)
  /-- The `releasesleep` of `brelse`. -/
  | releasesleep (r : Ref)
  /-- The rest of `brelse`. -/
  | brelse (r : Ref)

/-- What a step means for the contents of the blocks. -/
inductive Event (α : Type) where
  | quiet
  | read (b : Nat) (x : α)
  | logged (b : Nat) (x : α)
  | wrote (b : Nat) (x : α)
  deriving DecidableEq

variable {α : Type}

/-! ### The cache -/

namespace State

def setBuf (s : State α) (i : BufId) (x : Buf α) : State α := {s with buf := update s.buf i x}

def move (s : State α) (r : Ref) (stage : Stage) : State α :=
  {s with refs := {r with stage := stage} :: s.refs.erase r}

/-- The first loop of `bget`. -/
def cached (s : State α) (b : Nat) : Option BufId :=
  Links.find s.ring.next (fun i => (s.buf i).dev = ROOTDEV ∧ (s.buf i).blockno = b) (NBUF + 1)
    (s.ring.next none)

/-- The second loop. -/
def unused (s : State α) : Option BufId :=
  Links.find s.ring.prev (fun i => (s.buf i).refcnt = 0 ∧ (s.buf i).dirty = false) (NBUF + 1)
    (s.ring.prev none)

/-- `none` is the panic. -/
def bget (s : State α) (p : Task) (b : Nat) : Option (State α) :=
  match s.cached b with
  | some i =>
    some
      {s.setBuf i {s.buf i with refcnt := (s.buf i).refcnt + 1} with
        refs := ⟨p, i, b, .waiting⟩ :: s.refs}
  | none =>
    match s.unused with
    | some i =>
      some
        {s.setBuf i
            {s.buf i with dev := ROOTDEV, blockno := b, valid := false, dirty := false, refcnt := 1} with
          refs := ⟨p, i, b, .waiting⟩ :: s.refs}
    | none => none

def iderw (s : State α) (i : BufId) : State α :=
  if (s.buf i).dirty then
    {s.setBuf i {s.buf i with valid := true, dirty := false} with
      disk := update s.disk (s.buf i).blockno (s.buf i).data}
  else s.setBuf i {s.buf i with data := s.disk (s.buf i).blockno, valid := true}

/-- The section of `brelse` under `bcache.lock`. -/
def brelse (s : State α) (r : Ref) : State α :=
  {s.setBuf r.buf {s.buf r.buf with refcnt := (s.buf r.buf).refcnt - 1} with
    ring := if (s.buf r.buf).refcnt - 1 = 0 then (s.ring.unlink r.buf).pushFront r.buf else s.ring
    refs := s.refs.erase r}

/-- A step of task `p`. There is none where it has to sleep, or where it panics. -/
def step (s : State α) (p : Task) (a : Act α) : Option (State α × Event α) :=
  match a with
  | .bget b => (s.bget p b).map fun s' => (s', .quiet)
  | .acquiresleep r =>
    if r ∈ s.refs ∧ r.task = p ∧ r.stage = .waiting ∧ (s.buf r.buf).lock = none then
      some ((s.setBuf r.buf {s.buf r.buf with lock := some p}).move r .locked, .quiet)
    else none
  | .bread r =>
    if r ∈ s.refs ∧ r.task = p ∧ r.stage = .locked then
      let s' := if (s.buf r.buf).valid then s else s.iderw r.buf
      some (s'.move r .held, .read r.block (s'.buf r.buf).data)
    else none
  | .modify r x =>
    if r ∈ s.refs ∧ r.task = p ∧ (r.stage = .held ∨ r.stage = .changed) then
      some ((s.setBuf r.buf {s.buf r.buf with data := x}).move r .changed, .quiet)
    else none
  | .logWrite r =>
    if r ∈ s.refs ∧ r.task = p ∧ (r.stage = .held ∨ r.stage = .changed) then
      some ((s.setBuf r.buf {s.buf r.buf with dirty := true}).move r .held,
        .logged r.block (s.buf r.buf).data)
    else none
  | .bwrite r =>
    if r ∈ s.refs ∧ r.task = p ∧ (r.stage = .held ∨ r.stage = .changed) ∧
        (s.buf r.buf).lock = some p then
      some (((s.setBuf r.buf {s.buf r.buf with dirty := true}).iderw r.buf).move r .held,
        .wrote r.block (s.buf r.buf).data)
    else none
  | .releasesleep r =>
    if r ∈ s.refs ∧ r.task = p ∧ r.stage = .held ∧ (s.buf r.buf).lock = some p then
      some ((s.setBuf r.buf {s.buf r.buf with lock := none}).move r .released, .quiet)
    else none
  | .brelse r =>
    if r ∈ s.refs ∧ r.task = p ∧ r.stage = .released then some (s.brelse r, .quiet) else none

/-- `binit`. -/
def boot (disk : Nat → α) : State α where
  buf := fun _ => ⟨0, 0, false, false, 0, none, disk 0⟩
  ring := (List.finRange NBUF).foldl Links.pushFront Links.empty
  disk := disk
  refs := []

end State

def Step (s : State α) (e : Event α) (s' : State α) : Prop := ∃ p a, s.step p a = some (s', e)

/-! ### What it is for -/

/-- The blocks as a flat map. -/
def Flat (m : Nat → α) : Event α → (Nat → α) → Prop
  | .quiet, m' => m' = m
  | .read b x, m' => m' = m ∧ x = m b
  | .logged b x, m' => m' = update m b x
  | .wrote b x, m' => m' = update m b x

/-- Block `b` has been given to `log_write`, and not been written home since. -/
def Pinned (b : Nat) : List (Event α) → Prop
  | [] => False
  | .logged c _ :: h => c = b ∨ Pinned b h
  | .wrote c _ :: h => c ≠ b ∧ Pinned b h
  | _ :: h => Pinned b h

/-- Buffer `i` is the one of block `b`. -/
def State.Carries (s : State α) (i : BufId) (b : Nat) : Prop :=
  (s.buf i).dev = ROOTDEV ∧ (s.buf i).blockno = b

/-! ### The invariant -/

/-- The references and the buffers they are to. -/
structure Counted (s : State α) (refs : List Ref) : Prop where
  refcnt : ∀ i, (s.buf i).refcnt = refs.countP (fun r => r.buf = i)
  carries : ∀ r ∈ refs, s.Carries r.buf r.block
  owner : ∀ r ∈ refs, r.stage.owns = true → (s.buf r.buf).lock = some r.task
  single : ∀ i, refs.countP (fun r => r.buf = i ∧ r.stage.owns) ≤ 1
  valid : ∀ r ∈ refs, r.stage = .held ∨ r.stage = .changed → (s.buf r.buf).valid = true

/-- The buffers and the contents `m` of the blocks. -/
structure Backed (s : State α) (refs : List Ref) (m : Nat → α) : Prop where
  unique : ∀ i j b, s.Carries i b → s.Carries j b → i = j
  dirty : ∀ i, (s.buf i).dirty = true → (s.buf i).valid = true
  data : ∀ i b, s.Carries i b → (s.buf i).valid = true →
    (∀ r ∈ refs, r.buf = i → r.stage ≠ .changed) → (s.buf i).data = m b
  clean : ∀ b, (∀ i, s.Carries i b → (s.buf i).dirty = false) → s.disk b = m b

structure Inv (s : State α) (m : Nat → α) : Prop where
  ring : ∃ l, l.Perm (List.finRange NBUF) ∧ s.ring.Rings l
  counted : Counted s s.refs
  backed : Backed s s.refs m

variable {s s' : State α} {refs rest : List Ref} {m : Nat → α} {r : Ref} {i : BufId} {b : Nat}
  {refs' : List Ref} {x : Buf α} {stage : Stage} {p : Task} {a : Act α} {e : Event α} {j : BufId}
  {m' : Nat → α}

theorem Counted.perm (h : Counted s refs) (hp : refs.Perm refs') :
    Counted s refs' :=
  ⟨fun i => by rw [h.refcnt, hp.countP_eq], fun r hr => h.carries r (hp.mem_iff.mpr hr),
    fun r hr => h.owner r (hp.mem_iff.mpr hr), fun i => by rw [← hp.countP_eq]; exact h.single i,
    fun r hr => h.valid r (hp.mem_iff.mpr hr)⟩

theorem Backed.perm (h : Backed s refs m) (hp : refs.Perm refs') :
    Backed s refs' m :=
  ⟨h.unique, h.dirty, fun i b hc hv hr => h.data i b hc hv fun r hmem => hr r (hp.mem_iff.mp hmem), h.clean⟩

@[simp, grind =] theorem State.setBuf_buf (s : State α) (i j : BufId) (x : Buf α) :
    (s.setBuf i x).buf j = if j = i then x else s.buf j :=
  update_apply ..

theorem Counted.others (h : Counted s (r :: rest)) (hr : r.stage.owns = true) :
    ∀ q ∈ rest, q.buf = r.buf → q.stage.owns = false := by
  intro q hq hbuf
  have hle := h.single r.buf
  rw [List.countP_cons_of_pos (by simp [hr])] at hle
  have hzero : rest.countP (fun q => q.buf = r.buf ∧ q.stage.owns) = 0 := by omega
  have hnot := List.countP_eq_zero.mp hzero q hq
  simpa [hbuf] using hnot

/-! ### One reference moves -/

theorem carries_iff (hbuf : ∀ k, s'.buf k = if k = j then x else s.buf k)
    (hdev : x.dev = (s.buf j).dev) (hblock : x.blockno = (s.buf j).blockno) (i : BufId) (b : Nat) :
    s'.Carries i b ↔ s.Carries i b := by
  unfold State.Carries
  rw [hbuf]
  split
  · rename_i hi
    rw [hi, hdev, hblock]
  · exact Iff.rfl

/-- The stage of one reference and the lock, the flags or the data of its buffer change. -/
theorem Counted.move (h : Counted s (r :: rest))
    (hbuf : ∀ j, s'.buf j = if j = r.buf then x else s.buf j) (hdev : x.dev = (s.buf r.buf).dev)
    (hblock : x.blockno = (s.buf r.buf).blockno) (hrefcnt : x.refcnt = (s.buf r.buf).refcnt)
    (hlock : stage.owns = true → x.lock = some r.task)
    (hkeep : x.lock = (s.buf r.buf).lock ∨ ∀ q ∈ rest, q.buf = r.buf → q.stage.owns = false)
    (hone : stage.owns = true → r.stage.owns = true ∨ (s.buf r.buf).lock = none)
    (hvalid : (s.buf r.buf).valid = true ∨ stage = .held ∨ stage = .changed → x.valid = true) :
    Counted s' ({r with stage := stage} :: rest) := by
  have hcarries := carries_iff hbuf hdev hblock
  refine ⟨fun i => ?_, fun q hq => ?_, fun q hq hown => ?_, fun i => ?_, fun q hq hstage => ?_⟩
  · have hcount : ({r with stage := stage} :: rest).countP (fun q => q.buf = i) =
        (r :: rest).countP (fun q => q.buf = i) := by
      rw [List.countP_cons, List.countP_cons]
    rw [hcount, ← h.refcnt, hbuf]
    split
    · rename_i hi
      rw [hi, hrefcnt]
    · rfl
  · rw [hcarries]
    rcases List.mem_cons.mp hq with rfl | hq
    · exact h.carries r (List.mem_cons_self ..)
    · exact h.carries q (List.mem_cons_of_mem r hq)
  · rcases List.mem_cons.mp hq with rfl | hq
    · rw [hbuf, if_pos rfl]
      exact hlock hown
    · rw [hbuf]
      split
      · rename_i hi
        rcases hkeep with hkeep | hkeep
        · rw [hkeep, ← hi]
          exact h.owner q (List.mem_cons_of_mem r hq) hown
        · rw [hkeep q hq hi] at hown
          cases hown
      · exact h.owner q (List.mem_cons_of_mem r hq) hown
  · have hle := h.single i
    rw [List.countP_cons] at hle ⊢
    by_cases hown : stage.owns = true
    · rcases hone hown with hr | hnone
      · simp only [hown, hr] at hle ⊢
        exact hle
      · -- nobody had the lock
        have hzero : rest.countP (fun q => q.buf = r.buf ∧ q.stage.owns) = 0 := by
          apply List.countP_eq_zero.mpr
          intro q hq
          simp only [decide_eq_true_eq, not_and]
          intro hqbuf hqown
          have hqlock := h.owner q (List.mem_cons_of_mem r hq) hqown
          rw [hqbuf, hnone] at hqlock
          cases hqlock
        by_cases hi : r.buf = i
        · rw [← hi, hzero]
          split <;> omega
        · simp only [hi, false_and, decide_false, Bool.false_eq_true, if_false] at hle ⊢
          exact hle
    · simp only [hown]
      simp only [Bool.false_eq_true, and_false, decide_false, if_false]
      omega
  · rcases List.mem_cons.mp hq with rfl | hq
    · rw [hbuf, if_pos rfl]
      exact hvalid (.inr hstage)
    · have hold := h.valid q (List.mem_cons_of_mem r hq) hstage
      rw [hbuf]
      split
      · rename_i hi
        rw [hi] at hold
        exact hvalid (.inl hold)
      · exact hold

/-- The same for the contents. Blocks other than that of the buffer are not concerned. -/
theorem Backed.move (h : Backed s (r :: rest) m)
    (hc : s.Carries r.buf r.block) (hbuf : ∀ j, s'.buf j = if j = r.buf then x else s.buf j)
    (hdev : x.dev = (s.buf r.buf).dev) (hblock : x.blockno = (s.buf r.buf).blockno)
    (hm : ∀ b, b ≠ r.block → m' b = m b) (hdisk : ∀ b, b ≠ r.block → s'.disk b = s.disk b)
    (hdirty : x.dirty = true → x.valid = true)
    (hdata : x.valid = true → stage ≠ .changed →
      (∀ q ∈ rest, q.buf = r.buf → q.stage ≠ .changed) → x.data = m' r.block)
    (hclean : x.dirty = false → s'.disk r.block = m' r.block) :
    Backed s' ({r with stage := stage} :: rest) m' := by
  have hcarries := carries_iff hbuf hdev hblock
  have hother : ∀ i b, s.Carries i b → i ≠ r.buf → b ≠ r.block := by
    rintro i b hi hne rfl
    exact hne (h.unique i r.buf _ hi hc)
  refine ⟨fun i j b hi hj => ?_, fun i hi => ?_, fun i b hi hv hrefs => ?_, fun b hb => ?_⟩
  · rw [hcarries] at hi hj
    exact h.unique i j b hi hj
  · rw [hbuf] at hi ⊢
    split
    · rename_i heq
      rw [if_pos heq] at hi
      exact hdirty hi
    · rename_i hne
      rw [if_neg hne] at hi
      exact h.dirty i hi
  · rw [hcarries] at hi
    rw [hbuf] at hv ⊢
    by_cases heq : i = r.buf
    · subst heq
      obtain rfl : b = r.block := hi.2.symm.trans hc.2
      rw [if_pos rfl] at hv ⊢
      exact hdata hv (hrefs _ (List.mem_cons_self ..) rfl) fun q hq => hrefs q (List.mem_cons_of_mem _ hq)
    · rw [if_neg heq] at hv ⊢
      rw [hm b (hother i b hi heq)]
      apply h.data i b hi hv
      intro q hq hqi
      rcases List.mem_cons.mp hq with rfl | hq
      · exact absurd hqi.symm heq
      · exact hrefs q (List.mem_cons_of_mem _ hq) hqi
  · by_cases heq : b = r.block
    · subst heq
      apply hclean
      have hx := hb r.buf ((hcarries ..).mpr hc)
      rwa [hbuf, if_pos rfl] at hx
    · rw [hdisk b heq, hm b heq]
      apply h.clean
      intro i hi
      have hx := hb i ((hcarries i b).mpr hi)
      rw [hbuf, if_neg] at hx
      · exact hx
      · rintro rfl
        exact heq (hi.2.symm.trans hc.2)

/-! ### References come and go -/

/-- Nothing of the buffers is different but `refcnt`. -/
def Recounted (s s' : State α) : Prop :=
  ∀ j, s'.buf j = {s.buf j with refcnt := (s'.buf j).refcnt}

theorem Recounted.carries (h : Recounted s s') (j : BufId) (c : Nat) :
    s'.Carries j c ↔ s.Carries j c := by
  unfold State.Carries
  rw [h j]

/-- References that come wait for their buffer; none comes with the lock. -/
theorem Counted.recount (h : Counted s refs) (hs : Recounted s s')
    (hcount : ∀ i, (s'.buf i).refcnt = refs'.countP fun r => r.buf = i)
    (hrefs : ∀ r ∈ refs', r ∈ refs ∨ r.stage = .waiting ∧ s.Carries r.buf r.block)
    (hsingle : ∀ i, refs'.countP (fun r => r.buf = i ∧ r.stage.owns) ≤
      refs.countP fun r => r.buf = i ∧ r.stage.owns) : Counted s' refs' := by
  refine ⟨hcount, fun r hr => ?_, fun r hr hown => ?_, fun i => (hsingle i).trans (h.single i),
    fun r hr hstage => ?_⟩
  · rw [hs.carries]
    rcases hrefs r hr with hold | ⟨-, hc⟩
    · exact h.carries r hold
    · exact hc
  · rw [hs r.buf]
    rcases hrefs r hr with hold | ⟨hwait, -⟩
    · exact h.owner r hold hown
    · rw [hwait] at hown
      cases hown
  · rw [hs r.buf]
    rcases hrefs r hr with hold | ⟨hwait, -⟩
    · exact h.valid r hold hstage
    · rw [hwait] at hstage
      rcases hstage with hstage | hstage <;> cases hstage

/-- Changed data do not lose the reference they were changed through. -/
theorem Backed.recount (h : Backed s refs m) (hs : Recounted s s')
    (hdisk : s'.disk = s.disk) (hchanged : ∀ r ∈ refs, r.stage = .changed → r ∈ refs') :
    Backed s' refs' m := by
  refine ⟨fun i j c hi hj => ?_, fun i hi => ?_, fun i c hi hv hrefs => ?_, fun c hc => ?_⟩
  · rw [hs.carries] at hi hj
    exact h.unique i j c hi hj
  · rw [hs i] at hi ⊢
    exact h.dirty i hi
  · rw [hs.carries] at hi
    rw [hs i] at hv ⊢
    refine h.data i c hi hv fun r hr hri hstage => ?_
    exact hrefs r (hchanged r hr hstage) hri hstage
  · rw [hdisk]
    apply h.clean
    intro i hi
    have hx := hc i ((hs.carries i c).mpr hi)
    rwa [hs i] at hx

/-- A buffer that nobody uses is given to block `b`. -/
theorem Counted.recycle (h : Counted s refs) (hfree : (s.buf i).refcnt = 0)
    (hbuf : ∀ j, s'.buf j = if j = i then
      {s.buf i with dev := ROOTDEV, blockno := b, valid := false, dirty := false, refcnt := 0} else s.buf j) :
    Counted s' refs := by
  have hnone : ∀ r ∈ refs, s'.buf r.buf = s.buf r.buf := by
    intro r hr
    rw [hbuf, if_neg]
    intro heq
    have hzero := h.refcnt i
    rw [hfree] at hzero
    have hnot := List.countP_eq_zero.mp hzero.symm r hr
    simp [heq] at hnot
  refine ⟨fun j => ?_, fun r hr => ?_, fun r hr hown => ?_, h.single, fun r hr hstage => ?_⟩
  · rw [← h.refcnt, hbuf]
    split
    · rename_i hj
      rw [hj, hfree]
    · rfl
  · unfold State.Carries
    rw [hnone r hr]
    exact h.carries r hr
  · rw [hnone r hr]
    exact h.owner r hr hown
  · rw [hnone r hr]
    exact h.valid r hr hstage

theorem Backed.recycle (h : Backed s refs m) (hclean : (s.buf i).dirty = false)
    (hnew : ∀ j, ¬ s.Carries j b)
    (hbuf : ∀ j, s'.buf j = if j = i then
      {s.buf i with dev := ROOTDEV, blockno := b, valid := false, dirty := false, refcnt := 0} else s.buf j)
    (hdisk : s'.disk = s.disk) : Backed s' refs m := by
  have hcarries : ∀ j c, s'.Carries j c → j = i ∧ c = b ∨ j ≠ i ∧ c ≠ b ∧ s.Carries j c := by
    intro j c hj
    unfold State.Carries at hj
    rw [hbuf] at hj
    split at hj
    · rename_i heq
      exact .inl ⟨heq, hj.2.symm⟩
    · rename_i hne
      refine .inr ⟨hne, ?_, hj⟩
      rintro rfl
      exact hnew j hj
  refine ⟨fun j k c hj hk => ?_, fun j hj => ?_, fun j c hj hv hrefs => ?_, fun c hc => ?_⟩
  · rcases hcarries j c hj with ⟨rfl, rfl⟩ | ⟨hji, hcb, hj⟩
    · rcases hcarries k c hk with ⟨rfl, -⟩ | ⟨-, hcb, -⟩
      · rfl
      · exact absurd rfl hcb
    · rcases hcarries k c hk with ⟨rfl, rfl⟩ | ⟨-, -, hk⟩
      · exact absurd rfl hcb
      · exact h.unique j k c hj hk
  · rw [hbuf] at hj ⊢
    split
    · rename_i heq
      rw [if_pos heq] at hj
      cases hj
    · rename_i hne
      rw [if_neg hne] at hj
      exact h.dirty j hj
  · rcases hcarries j c hj with ⟨rfl, rfl⟩ | ⟨hji, -, hj⟩
    · rw [hbuf, if_pos rfl] at hv
      cases hv
    · rw [hbuf, if_neg hji] at hv ⊢
      exact h.data j c hj hv hrefs
  · rw [hdisk]
    apply h.clean
    intro j hj
    by_cases hji : j = i
    · rw [hji]
      exact hclean
    · have hx := hc j (by unfold State.Carries; rw [hbuf, if_neg hji]; exact hj)
      rwa [hbuf, if_neg hji] at hx

/-! ### The loops of bget -/

theorem Inv.cached_eq (h : Inv s m) (b : Nat) :
    (∀ i, s.cached b = some i → s.Carries i b) ∧ (s.cached b = none → ∀ i, ¬ s.Carries i b) := by
  obtain ⟨l, hperm, hring⟩ := h.ring
  have hlen : l.length ≤ NBUF := by
    rw [hperm.length_eq, List.length_finRange]
  unfold State.cached
  rw [hring.find_next _ hlen]
  constructor
  · intro i hi
    simpa [State.Carries] using List.find?_some hi
  · intro hnone i hc
    have hmem : i ∈ l := hperm.mem_iff.mpr (List.mem_finRange i)
    have hnot := List.find?_eq_none.mp hnone i hmem
    simp only [decide_eq_true_eq] at hnot
    exact hnot hc

theorem Inv.unused_eq (h : Inv s m) (hi : s.unused = some i) :
    (s.buf i).refcnt = 0 ∧ (s.buf i).dirty = false := by
  obtain ⟨l, hperm, hring⟩ := h.ring
  have hlen : l.length ≤ NBUF := by
    rw [hperm.length_eq, List.length_finRange]
  unfold State.unused at hi
  rw [hring.find_prev _ hlen] at hi
  simpa using List.find?_some hi

/-! ### Steps -/

theorem Inv.bget (h : Inv s m) (hs : s.bget p b = some s') : Inv s' m := by
  unfold State.bget at hs
  have hjoin : ∀ t : State α, ∀ i, Counted t s.refs → Backed t s.refs m → t.Carries i b →
      ∀ t', t'.disk = t.disk → (∀ j, t'.buf j =
        if j = i then {t.buf i with refcnt := (t.buf i).refcnt + 1} else t.buf j) →
      Counted t' (⟨p, i, b, .waiting⟩ :: s.refs) ∧ Backed t' (⟨p, i, b, .waiting⟩ :: s.refs) m := by
    intro t i hcounted hbacked hc t' hdisk hbuf
    have hsame : Recounted t t' := by
      intro j
      rw [hbuf]
      split
      · rename_i hj
        rw [hj]
      · rfl
    constructor
    · refine hcounted.recount hsame (fun j => ?_) (fun r hr => ?_) fun j => ?_
      · have hold := hcounted.refcnt j
        rw [List.countP_cons, hbuf]
        by_cases hj : j = i
        · subst hj
          simp [hold]
        · simp [hj, Ne.symm hj, hold]
      · rcases List.mem_cons.mp hr with rfl | hr
        · exact .inr ⟨rfl, hc⟩
        · exact .inl hr
      · rw [List.countP_cons_of_neg]
        simp [Stage.owns]
    · exact hbacked.recount hsame hdisk fun r hr _ => List.mem_cons_of_mem _ hr
  split at hs
  · rename_i i hi
    cases hs
    obtain ⟨hcounted, hbacked⟩ := hjoin s i h.counted h.backed ((h.cached_eq b).1 i hi)
      {s.setBuf i {s.buf i with refcnt := (s.buf i).refcnt + 1} with
        refs := ⟨p, i, b, .waiting⟩ :: s.refs} rfl (State.setBuf_buf s i · _)
    exact ⟨h.ring, hcounted, hbacked⟩
  · rename_i hnone
    split at hs
    · rename_i i hi
      cases hs
      obtain ⟨hfree, hclean⟩ := h.unused_eq hi
      -- first the buffer changes hands, then the reference comes
      let t : State α := s.setBuf i
        {s.buf i with dev := ROOTDEV, blockno := b, valid := false, dirty := false, refcnt := 0}
      have hti : t.buf i =
          {s.buf i with dev := ROOTDEV, blockno := b, valid := false, dirty := false, refcnt := 0} :=
        update_self ..
      have hcounted : Counted t s.refs := h.counted.recycle hfree (State.setBuf_buf s i · _)
      have hbacked : Backed t s.refs m :=
        h.backed.recycle hclean ((h.cached_eq b).2 hnone) (State.setBuf_buf s i · _) rfl
      obtain ⟨hcounted', hbacked'⟩ := hjoin t i hcounted hbacked (by rw [State.Carries, hti]; exact ⟨rfl, rfl⟩)
        {s.setBuf i
            {s.buf i with dev := ROOTDEV, blockno := b, valid := false, dirty := false, refcnt := 1} with
          refs := ⟨p, i, b, .waiting⟩ :: s.refs} rfl (fun j => by
            dsimp only [t, State.setBuf]
            by_cases hj : j = i <;> simp [hj])
      exact ⟨h.ring, hcounted', hbacked'⟩
    · cases hs

section
variable (h : Inv s m) (hr : r ∈ s.refs)
include h hr

theorem Inv.counted_cons : Counted s (r :: s.refs.erase r) := h.counted.perm (List.perm_cons_erase hr)

theorem Inv.backed_cons : Backed s (r :: s.refs.erase r) m := h.backed.perm (List.perm_cons_erase hr)

theorem Inv.disk_eq (hclean : (s.buf r.buf).dirty = false) : s.disk r.block = m r.block := by
  have hc := h.counted.carries r hr
  apply h.backed.clean
  intro i hi
  rw [h.backed.unique i r.buf _ hi hc]
  exact hclean

theorem Inv.data_eq (hstage : r.stage ≠ .changed) (hvalid : (s.buf r.buf).valid = true)
    (hrest : ∀ q ∈ s.refs.erase r, q.buf = r.buf → q.stage ≠ .changed) :
    (s.buf r.buf).data = m r.block := by
  refine (h.backed_cons hr).data r.buf r.block (h.counted.carries r hr) hvalid fun q hq hbuf => ?_
  rcases List.mem_cons.mp hq with rfl | hq
  · exact hstage
  · exact hrest q hq hbuf

theorem Inv.not_changed (hown : r.stage.owns = true) :
    ∀ q ∈ s.refs.erase r, q.buf = r.buf → q.stage ≠ .changed := by
  intro q hq hbuf hchanged
  have hnot := (h.counted_cons hr).others hown q hq hbuf
  rw [hchanged] at hnot
  cases hnot

/-- Taking the lock or giving it back: no data, and nothing on the disk. -/
theorem Inv.relock {lock : Option Task} (hstage : r.stage ≠ .changed)
    (hnew : stage ≠ .held ∧ stage ≠ .changed) (hlock : stage.owns = true → lock = some r.task)
    (hrest : ∀ q ∈ s.refs.erase r, q.buf = r.buf → q.stage.owns = false)
    (hone : stage.owns = true → r.stage.owns = true ∨ (s.buf r.buf).lock = none) :
    Inv ((s.setBuf r.buf {s.buf r.buf with lock := lock}).move r stage) m := by
  have hcounted := h.counted_cons hr
  have hbacked := h.backed_cons hr
  refine ⟨h.ring, ?_, ?_⟩
  · refine hcounted.move (State.setBuf_buf s r.buf · _) rfl rfl rfl hlock (.inr hrest) hone fun hv => ?_
    rcases hv with hv | hv | hv
    · exact hv
    · exact absurd hv hnew.1
    · exact absurd hv hnew.2
  · exact hbacked.move (h.counted.carries r hr) (State.setBuf_buf s r.buf · _) rfl rfl (fun _ _ => rfl)
      (fun _ _ => rfl) (h.backed.dirty r.buf) (fun hv _ hq => h.data_eq hr hstage hv hq)
      (h.disk_eq hr)

theorem Inv.acquiresleep (hstage : r.stage = .waiting) (hfree : (s.buf r.buf).lock = none) :
    Inv ((s.setBuf r.buf {s.buf r.buf with lock := some r.task}).move r .locked) m := by
  refine h.relock hr (by rw [hstage]; nofun) ⟨nofun, nofun⟩ (fun _ => rfl) (fun q hq hbuf => ?_)
    fun _ => .inr hfree
  rw [← Bool.not_eq_true]
  intro hown
  have hlock := h.counted.owner q (List.mem_of_mem_erase hq) hown
  rw [hbuf, hfree] at hlock
  cases hlock

theorem Inv.releasesleep (hstage : r.stage = .held) :
    Inv ((s.setBuf r.buf {s.buf r.buf with lock := none}).move r .released) m :=
  h.relock hr (by rw [hstage]; nofun) ⟨nofun, nofun⟩ nofun
    ((h.counted_cons hr).others (by rw [hstage]; rfl)) nofun

/-- The data, the flags and the block on the disk change under the lock. -/
theorem Inv.inside (hold : r.stage.owns = true)
    (valid dirty : Bool) (data : α) (disk : Nat → α) (hvalid : valid = true)
    (hm : ∀ b, b ≠ r.block → m' b = m b) (hdisk : ∀ b, b ≠ r.block → disk b = s.disk b)
    (hdata : stage ≠ .changed → data = m' r.block) (hclean : dirty = false → disk r.block = m' r.block) :
    Inv (State.move {s.setBuf r.buf {s.buf r.buf with valid := valid, dirty := dirty, data := data} with
      disk := disk} r stage) m' :=
  ⟨h.ring,
    (h.counted_cons hr).move (State.setBuf_buf s r.buf · _) rfl rfl rfl
      (fun _ => h.counted.owner r hr hold) (.inl rfl) (fun _ => .inl hold) fun _ => hvalid,
    (h.backed_cons hr).move (h.counted.carries r hr) (State.setBuf_buf s r.buf · _) rfl rfl hm hdisk
      (fun _ => hvalid) (fun _ hne _ => hdata hne) hclean⟩

omit hr in
theorem Inv.clean_of_invalid (hvalid : ¬ (s.buf i).valid = true) : (s.buf i).dirty = false := by
  rw [← Bool.not_eq_true]
  exact fun hdirty => hvalid (h.backed.dirty i hdirty)

theorem Inv.bread (hstage : r.stage = .locked) :
    let t := if (s.buf r.buf).valid then s else s.iderw r.buf
    Inv (t.move r .held) m ∧ (t.buf r.buf).data = m r.block := by
  have hown : r.stage.owns = true := by rw [hstage]; rfl
  intro t
  by_cases hvalid : (s.buf r.buf).valid = true
  · have hdata := h.data_eq hr (by rw [hstage]; nofun) hvalid (h.not_changed hr hown)
    have ht : t = {s.setBuf r.buf (s.buf r.buf) with disk := s.disk} := by
      rw [State.setBuf, update_eq_self]
      exact if_pos hvalid
    rw [ht]
    exact ⟨h.inside hr hown _ _ _ s.disk hvalid (fun _ _ => rfl) (fun _ _ => rfl) (fun _ => hdata)
      (h.disk_eq hr), by rw [← hdata]; simp⟩
  · have hclean := h.clean_of_invalid hvalid
    have hdata : s.disk (s.buf r.buf).blockno = m r.block := by
      rw [(h.counted.carries r hr).2, h.disk_eq hr hclean]
    have ht : t = s.setBuf r.buf {s.buf r.buf with data := s.disk (s.buf r.buf).blockno, valid := true} := by
      show (if (s.buf r.buf).valid then s else s.iderw r.buf) = _
      rw [if_neg hvalid, State.iderw, hclean]
      rfl
    rw [ht]
    exact ⟨h.inside hr hown true _ (s.disk (s.buf r.buf).blockno) s.disk rfl (fun _ _ => rfl)
      (fun _ _ => rfl) (fun _ => hdata) (h.disk_eq hr), by rw [← hdata]; simp⟩

omit h hr in
theorem owns_of_stage (hstage : r.stage = .held ∨ r.stage = .changed) : r.stage.owns = true := by
  rcases hstage with hs | hs <;> rw [hs] <;> rfl

theorem Inv.modify (hstage : r.stage = .held ∨ r.stage = .changed) (x : α) :
    Inv ((s.setBuf r.buf {s.buf r.buf with data := x}).move r .changed) m :=
  h.inside hr (owns_of_stage hstage) _ _ x s.disk (h.counted.valid r hr hstage) (fun _ _ => rfl)
    (fun _ _ => rfl) (fun hne => absurd rfl hne) (h.disk_eq hr)

theorem Inv.logWrite (hstage : r.stage = .held ∨ r.stage = .changed) :
    Inv ((s.setBuf r.buf {s.buf r.buf with dirty := true}).move r .held)
      (update m r.block (s.buf r.buf).data) :=
  h.inside hr (owns_of_stage hstage) _ true _ s.disk (h.counted.valid r hr hstage)
    (fun _ hb => update_of_ne hb ..) (fun _ _ => rfl) (fun _ => by rw [update_self]) nofun

omit h hr in
theorem iderw_dirty : (s.setBuf i {s.buf i with dirty := true}).iderw i =
    {s.setBuf i {s.buf i with valid := true, dirty := false} with
      disk := update s.disk (s.buf i).blockno (s.buf i).data} := by
  simp [State.iderw, State.setBuf]

theorem Inv.bwrite (hstage : r.stage = .held ∨ r.stage = .changed) :
    Inv (((s.setBuf r.buf {s.buf r.buf with dirty := true}).iderw r.buf).move r .held)
      (update m r.block (s.buf r.buf).data) := by
  have hblock := (h.counted.carries r hr).2
  rw [iderw_dirty, hblock]
  exact h.inside hr (owns_of_stage hstage) true false _ (update s.disk r.block (s.buf r.buf).data) rfl
    (fun _ hb => update_of_ne hb ..) (fun _ hb => update_of_ne hb ..)
    (fun _ => by rw [update_self]) fun _ => by rw [update_self, update_self]

theorem Inv.brelse (hstage : r.stage = .released) : Inv (s.brelse r) m := by
  have hbuf : ∀ j, (s.brelse r).buf j =
      if j = r.buf then {s.buf r.buf with refcnt := (s.buf r.buf).refcnt - 1} else s.buf j :=
    (State.setBuf_buf s r.buf · _)
  have hsame : Recounted s (s.brelse r) := by
    intro j
    rw [hbuf]
    split
    · rename_i hj
      rw [hj]
    · rfl
  refine ⟨?_, ?_, ?_⟩
  · obtain ⟨l, hperm, hring⟩ := h.ring
    show ∃ l, l.Perm (List.finRange NBUF) ∧ Links.Rings
      (if (s.buf r.buf).refcnt - 1 = 0 then (s.ring.unlink r.buf).pushFront r.buf else s.ring) l
    split
    · have hmem : r.buf ∈ l := hperm.mem_iff.mpr (List.mem_finRange r.buf)
      exact ⟨r.buf :: l.erase r.buf, (List.perm_cons_erase hmem).symm.trans hperm, hring.toFront hmem⟩
    · exact ⟨l, hperm, hring⟩
  · refine (h.counted_cons hr).recount hsame (fun j => ?_) (fun q hq => .inl (List.mem_cons_of_mem r hq))
      fun j => ?_
    · have hcount := (h.counted_cons hr).refcnt j
      rw [hbuf]
      by_cases hj : j = r.buf
      · subst hj
        simp at hcount ⊢
        exact Nat.sub_eq_of_eq_add hcount
      · simp [hj, Ne.symm hj] at hcount ⊢
        exact hcount
    · rw [List.countP_cons]
      exact Nat.le_add_right ..
  · refine (h.backed_cons hr).recount hsame rfl fun q hq hchanged => ?_
    rcases List.mem_cons.mp hq with rfl | hq
    · rw [hstage] at hchanged
      cases hchanged
    · exact hq

end

theorem Inv.step (h : Inv s m) (hs : s.step p a = some (s', e)) :
    ∃ m', Flat m e m' ∧ Inv s' m' := by
  cases a with
  | bget b =>
    obtain ⟨t, ht, heq⟩ := Option.map_eq_some_iff.mp hs
    cases heq
    exact ⟨m, rfl, h.bget ht⟩
  | acquiresleep r =>
    obtain ⟨⟨hr, rfl, hstage, hfree⟩, heq⟩ := Option.ite_none_right_eq_some.mp hs
    cases heq
    exact ⟨m, rfl, h.acquiresleep hr hstage hfree⟩
  | bread r =>
    obtain ⟨⟨hr, -, hstage⟩, heq⟩ := Option.ite_none_right_eq_some.mp hs
    cases heq
    obtain ⟨hinv, hdata⟩ := h.bread hr hstage
    exact ⟨m, ⟨rfl, hdata⟩, hinv⟩
  | modify r x =>
    obtain ⟨⟨hr, -, hstage⟩, heq⟩ := Option.ite_none_right_eq_some.mp hs
    cases heq
    exact ⟨m, rfl, h.modify hr hstage x⟩
  | logWrite r =>
    obtain ⟨⟨hr, -, hstage⟩, heq⟩ := Option.ite_none_right_eq_some.mp hs
    cases heq
    exact ⟨_, rfl, h.logWrite hr hstage⟩
  | bwrite r =>
    obtain ⟨⟨hr, -, hstage, -⟩, heq⟩ := Option.ite_none_right_eq_some.mp hs
    cases heq
    exact ⟨_, rfl, h.bwrite hr hstage⟩
  | releasesleep r =>
    obtain ⟨⟨hr, -, hstage, -⟩, heq⟩ := Option.ite_none_right_eq_some.mp hs
    cases heq
    exact ⟨m, rfl, h.releasesleep hr hstage⟩
  | brelse r =>
    obtain ⟨⟨hr, -, hstage⟩, heq⟩ := Option.ite_none_right_eq_some.mp hs
    cases heq
    exact ⟨m, rfl, h.brelse hr hstage⟩

/-! ### Dirty buffers stay -/

/-- The buffer of `b`, dirty. -/
def State.Dirty (s : State α) (i : BufId) (b : Nat) : Prop := s.Carries i b ∧ (s.buf i).dirty = true

theorem dirty_of_setBuf (h : s.Dirty i b) (hbuf : ∀ k, s'.buf k = if k = j then x else s.buf k)
    (hx : i = j → x.dev = (s.buf j).dev ∧ x.blockno = (s.buf j).blockno ∧
      ((s.buf j).dirty = true → x.dirty = true)) : s'.Dirty i b := by
  unfold State.Dirty State.Carries at h ⊢
  rw [hbuf]
  split
  · rename_i hi
    obtain ⟨hdev, hblock, hdirty⟩ := hx hi
    rw [hi] at h
    rw [hdev, hblock]
    exact ⟨h.1, hdirty h.2⟩
  · exact h

theorem Inv.dirty_step (h : Inv s m)
    (hs : s.step p a = some (s', e)) (hd : s.Dirty i b) (he : ∀ x, e ≠ .wrote b x) : s'.Dirty i b := by
  cases a with
  | bget c =>
    obtain ⟨t, ht, heq⟩ := Option.map_eq_some_iff.mp hs
    cases heq
    unfold State.bget at ht
    split at ht
    · cases ht
      exact dirty_of_setBuf hd (State.setBuf_buf s _ · _) fun _ => ⟨rfl, rfl, id⟩
    · split at ht
      · rename_i j hj
        cases ht
        refine dirty_of_setBuf hd (State.setBuf_buf s j · _) fun hij => ?_
        -- a dirty buffer is not taken
        have hclean := (h.unused_eq hj).2
        rw [← hij, hd.2] at hclean
        cases hclean
      · cases ht
  | acquiresleep r | modify r x | releasesleep r | brelse r =>
    obtain ⟨-, heq⟩ := Option.ite_none_right_eq_some.mp hs
    cases heq
    exact dirty_of_setBuf hd (State.setBuf_buf s r.buf · _) fun _ => ⟨rfl, rfl, id⟩
  | logWrite r =>
    obtain ⟨-, heq⟩ := Option.ite_none_right_eq_some.mp hs
    cases heq
    exact dirty_of_setBuf hd (State.setBuf_buf s r.buf · _) fun _ => ⟨rfl, rfl, fun _ => rfl⟩
  | bread r =>
    obtain ⟨-, heq⟩ := Option.ite_none_right_eq_some.mp hs
    cases heq
    by_cases hvalid : (s.buf r.buf).valid = true
    · rw [if_pos hvalid]
      exact hd
    · rw [if_neg hvalid, State.iderw, h.clean_of_invalid hvalid]
      exact dirty_of_setBuf hd (State.setBuf_buf s r.buf · _) fun _ => ⟨rfl, rfl, id⟩
  | bwrite r =>
    obtain ⟨⟨hr, -⟩, heq⟩ := Option.ite_none_right_eq_some.mp hs
    cases heq
    have hne : i ≠ r.buf := by
      rintro rfl
      have hblock : r.block = b := (h.counted.carries r hr).2.symm.trans hd.1.2
      exact he _ (by rw [hblock])
    rw [iderw_dirty]
    exact dirty_of_setBuf hd (State.setBuf_buf s r.buf · _) fun hi => absurd hi hne

theorem Inv.dirty_logged {p c : Nat} {x : α} (h : Inv s m)
    (hs : s.step p a = some (s', .logged c x)) : ∃ i, s'.Dirty i c := by
  cases a with
  | logWrite r =>
    obtain ⟨⟨hr, -⟩, heq⟩ := Option.ite_none_right_eq_some.mp hs
    cases heq
    have hbuf : ((s.setBuf r.buf {s.buf r.buf with dirty := true}).move r .held).buf r.buf =
        {s.buf r.buf with dirty := true} :=
      (State.setBuf_buf ..).trans (if_pos rfl)
    refine ⟨r.buf, ?_⟩
    unfold State.Dirty State.Carries
    rw [hbuf]
    exact ⟨h.counted.carries r hr, rfl⟩
  | bget b =>
    obtain ⟨t, -, heq⟩ := Option.map_eq_some_iff.mp hs
    cases heq
  | _ =>
    obtain ⟨-, heq⟩ := Option.ite_none_right_eq_some.mp hs
    cases heq

theorem Inv.pinned_step {hist : List (Event α)} (h : Inv s m)
    (hs : s.step p a = some (s', e)) (hpin : ∀ b, Pinned b hist → ∃ i, s.Dirty i b) :
    ∀ b, Pinned b (e :: hist) → ∃ i, s'.Dirty i b := by
  intro b hb
  cases e with
  | logged c x =>
    by_cases hc : c = b
    · rw [← hc]
      exact h.dirty_logged hs
    · obtain ⟨i, hi⟩ := hpin b (hb.resolve_left hc)
      exact ⟨i, h.dirty_step hs hi nofun⟩
  | wrote c x =>
    obtain ⟨i, hi⟩ := hpin b hb.2
    refine ⟨i, h.dirty_step hs hi fun y heq => ?_⟩
    cases heq
    exact hb.1 rfl
  | quiet | read c x =>
    obtain ⟨i, hi⟩ := hpin b hb
    exact ⟨i, h.dirty_step hs hi nofun⟩

/-! ### Every run -/

theorem rings_foldl (l : List BufId) {ring : Links BufId} {l₀ : List BufId} (h : ring.Rings l₀)
    (hnodup : (l ++ l₀).Nodup) : (l.foldl Links.pushFront ring).Rings (l.reverse ++ l₀) := by
  induction l generalizing ring l₀ with
  | nil => exact h
  | cons b l ih =>
    rw [List.cons_append, List.nodup_cons, List.mem_append, not_or] at hnodup
    rw [List.foldl_cons, List.reverse_cons, List.append_assoc, List.singleton_append]
    apply ih (h.pushFront hnodup.1.2)
    rw [List.nodup_middle, List.nodup_cons, List.mem_append, not_or]
    exact hnodup

theorem inv_boot (disk : Nat → α) : Inv (State.boot disk) disk := by
  have hcarries : ∀ i b, ¬ (State.boot disk).Carries i b := fun i b hc => nomatch hc.1
  refine ⟨⟨(List.finRange NBUF).reverse ++ [], ?_, ?_⟩, ⟨fun _ => rfl, nofun, nofun, fun _ => Nat.zero_le _, nofun⟩,
    ⟨fun i j b hi => absurd hi (hcarries i b), nofun, fun i b hi => absurd hi (hcarries i b), fun _ _ => rfl⟩⟩
  · rw [List.append_nil]
    exact List.reverse_perm _
  · apply rings_foldl _ Links.rings_empty
    exact List.nodup_finRange NBUF

/-- The cache is a flat map, with one buffer for a block, dirty as long as its block is not
written home, and a ring of all the buffers. -/
theorem cache_refines_flat {disk : Nat → α} {hist : List (Event α)}
    (hr : Run Step (State.boot disk) hist s) :
    (∃ m, Run Flat disk hist m) ∧
      (∀ i j b, s.Carries i b → s.Carries j b → i = j) ∧
      (∀ b, Pinned b hist → ∃ i, s.Carries i b ∧ (s.buf i).dirty = true) ∧
      ∃ l, l.Perm (List.finRange NBUF) ∧ s.ring.Rings l := by
  have hinv : (∃ m, Run Flat disk hist m ∧ Inv s m) ∧ ∀ b, Pinned b hist → ∃ i, s.Dirty i b := by
    refine hr.invariant (fun h s => (∃ m, Run Flat disk h m ∧ Inv s m) ∧ ∀ b, Pinned b h → ∃ i, s.Dirty i b)
      ⟨⟨disk, .nil, inv_boot disk⟩, nofun⟩ ?_
    rintro h s e s' - ⟨⟨m, hflat, hinv⟩, hpin⟩ ⟨p, a, hs⟩
    obtain ⟨m', hmove, hinv'⟩ := hinv.step hs
    exact ⟨⟨m', hflat.snoc hmove, hinv'⟩, hinv.pinned_step hs hpin⟩
  obtain ⟨⟨m, hflat, hinv⟩, hpin⟩ := hinv
  exact ⟨⟨m, hflat⟩, hinv.backed.unique, hpin, hinv.ring⟩

/-- A block is read, changed and logged by one task and read by another. -/
theorem cache_refines_flat_logged : ∃ hist s,
    Run Step (State.boot fun _ => 0) hist s ∧ decide (hist.head? = some (.read 5 7)) = true ∧
      ∃ m, Run Flat (fun _ => 0) hist m := by
  have hrun : ∃ hist s, Run Step (State.boot fun _ => 0) hist s ∧
      decide (hist.head? = some (.read 5 7)) = true :=
    Run.exists_of_steps _ (f := fun (s : State Nat) l => s.step l.1 l.2) (fun _ l _ _ h => ⟨l.1, l.2, h⟩)
      [(0, .bget 5), (0, .acquiresleep ⟨0, 0, 5, .waiting⟩), (0, .bread ⟨0, 0, 5, .locked⟩),
        (0, .modify ⟨0, 0, 5, .held⟩ 7), (0, .logWrite ⟨0, 0, 5, .changed⟩),
        (0, .releasesleep ⟨0, 0, 5, .held⟩), (0, .brelse ⟨0, 0, 5, .released⟩), (1, .bget 5),
        (1, .acquiresleep ⟨1, 0, 5, .waiting⟩), (1, .bread ⟨1, 0, 5, .locked⟩)] (by decide +kernel)
  obtain ⟨hist, s, hr, hread⟩ := hrun
  exact ⟨hist, s, hr, hread, (cache_refines_flat hr).1⟩

end ThreadKernel.Cache
