import ThreadKernel.Library.Redo
import ThreadKernel.Library.Run

/-! `log.c`: operations, the log in memory, and the commit.

A task is in an operation from `begin_op` to `end_op`. Between them it changes buffers, each
under its lock, and gives them to `log_write`. The `end_op` of the last operation commits,
one block write a step, while `log.committing` keeps new operations out.

`log_write` tests `log.lh.n` before it takes `log.lock`, so that the test and the insertion
are two steps and other tasks may insert between them.

A block in the log keeps its buffer, so that `write_log` needs a buffer more than the log has
blocks; `bget` panics without one. The buffers that tasks hold are not counted.

`mem` is what `bread` returns. The ledger is not in the source: it says which writes belong
to which operation and transaction, and no step depends on it. -/
namespace ThreadKernel.Journal

open Lts Function

abbrev MAXOPBLOCKS : Nat := 10
abbrev LOGSIZE : Nat := 30
abbrev NBUF : Nat := 30

/-- The superblock, as far as `initlog` reads it. -/
structure Superblock where
  logstart : Nat
  nlog : Nat

/-- The one that `mkfs` writes. -/
def mkfs : Superblock := ⟨2, LOGSIZE⟩

namespace Superblock

/-- The blocks of the log, the header among them. -/
def Log (sb : Superblock) (b : Nat) : Prop := sb.logstart ≤ b ∧ b < sb.logstart + sb.nlog

instance (sb : Superblock) (b : Nat) : Decidable (sb.Log b) := inferInstanceAs (Decidable (_ ∧ _))

/-- The log block of entry `tail` of the header. -/
def slot (sb : Superblock) (tail : Nat) : Nat := sb.logstart + tail + 1

end Superblock

/-- The disk. The header block has a field of its own: `block[0]` to `block[n - 1]`. -/
structure Disk (α : Type) where
  block : Nat → α
  head : List Nat

abbrev Task := Nat

/-- Where the code of a task stands. -/
inductive Pc (α : Type) where
  | idle
  /-- Between `begin_op` and `end_op`. -/
  | op
  /-- In `log_write`, past its tests, with the buffer of `b` changed to `x` and locked. -/
  | logging (b : Nat) (x : α)
  /-- In `write_log`. -/
  | copying (tail : Nat)
  /-- In the `install_trans` of `commit`. -/
  | installing (tail : Nat)
  /-- Back from `commit`. -/
  | finishing
  deriving DecidableEq

/-- A block given to `log_write` by an operation: the task and the number of its operation. -/
structure Entry (α : Type) where
  op : Task × Nat
  block : Nat
  data : α
  deriving DecidableEq

structure Ledger (α : Type) where
  /-- The transactions whose commit has begun, the first one first. -/
  past : List (List (Entry α))
  /-- What has been logged since. -/
  now : List (Entry α)
  /-- The commits that are over. -/
  finished : Nat
  running : List Task
  /-- How many operations a task has begun. -/
  begun : Task → Nat
  /-- The blocks a task has logged in its operation. -/
  used : Task → List Nat

structure State (α : Type) where
  disk : Disk α
  mem : Nat → α
  /-- `log.lh`: its first `n` blocks. -/
  lh : List Nat
  outstanding : Nat
  committing : Bool
  /-- Who has the lock of the buffer of a block. -/
  holder : Nat → Option Task
  pc : Task → Pc α
  ledger : Ledger α

inductive Act (α : Type) where
  | beginOp
  /-- The buffer of block `b` is changed to `x` and given to `log_write`. -/
  | write (b : Nat) (x : α)
  /-- The section of `log_write` under `log.lock`, and `brelse`. -/
  | insert
  | endOp
  /-- The next block write of the commit, or the end of it. -/
  | commit
  deriving DecidableEq

variable {α : Type}

namespace Ledger

def begin (l : Ledger α) (p : Task) : Ledger α :=
  {l with
    running := p :: l.running
    begun := update l.begun p (l.begun p + 1)
    used := update l.used p []}

def log (l : Ledger α) (p : Task) (b : Nat) (x : α) : Ledger α :=
  {l with
    now := l.now ++ [⟨(p, l.begun p), b, x⟩]
    used := update l.used p ((l.used p).insert b)}

def leave (l : Ledger α) (p : Task) : Ledger α := {l with running := l.running.erase p}

/-- The last operation ends: a transaction is complete. -/
def close (l : Ledger α) (p : Task) : Ledger α :=
  {l.leave p with past := l.past ++ [l.now], now := []}

def finish (l : Ledger α) : Ledger α := {l with finished := l.finished + 1}

end Ledger

namespace State

def setPc (s : State α) (p : Task) (x : Pc α) : State α := {s with pc := update s.pc p x}

/-- `too big a transaction`. -/
def tooBig (sb : Superblock) (s : State α) : Bool :=
  LOGSIZE ≤ s.lh.length ∨ sb.nlog ≤ s.lh.length + 1

/-- `bwrite` of block `b` with content `x`. -/
def bwrite (s : State α) (b : Nat) (x : α) : State α :=
  {s with
    mem := update s.mem b x
    disk := {s.disk with block := update s.disk.block b x}}

/-- Where a call has to sleep, or panics, there is no step. -/
def step (sb : Superblock) (s : State α) (p : Task) (a : Act α) : Option (State α) :=
  match a, s.pc p with
  | .beginOp, .idle =>
    if s.committing = false ∧ s.lh.length + (s.outstanding + 1) * MAXOPBLOCKS ≤ LOGSIZE then
      some {s.setPc p .op with outstanding := s.outstanding + 1, ledger := s.ledger.begin p}
    else none
  | .write b x, .op =>
    if ¬ sb.Log b ∧ s.holder b = none ∧ s.tooBig sb = false ∧ 1 ≤ s.outstanding then
      some
        {s.setPc p (.logging b x) with
          holder := update s.holder b (some p), mem := update s.mem b x}
    else none
  | .insert, .logging b x =>
    some
      {s.setPc p .op with
        lh := if b ∈ s.lh then s.lh else s.lh ++ [b]
        holder := update s.holder b none
        ledger := s.ledger.log p b x}
  | .endOp, .op =>
    if s.committing then none
    else if s.outstanding - 1 = 0 then
      if s.lh = [] then
        some
          {s.setPc p .finishing with
            outstanding := s.outstanding - 1, committing := true, ledger := (s.ledger.close p).finish}
      else
        some
          {s.setPc p (.copying 0) with
            outstanding := s.outstanding - 1, committing := true, ledger := s.ledger.close p}
    else
      some
        {s.setPc p .idle with outstanding := s.outstanding - 1, ledger := s.ledger.leave p}
  | .commit, .copying tail =>
    match s.lh[tail]? with
    | some b =>
      if s.lh.length < NBUF then
        some ((s.bwrite (sb.slot tail) (s.mem b)).setPc p (.copying (tail + 1)))
      else none
    | none => some {s.setPc p (.installing 0) with disk := {s.disk with head := s.lh}}
  | .commit, .installing tail =>
    match s.lh[tail]? with
    | some b => some ((s.bwrite b (s.mem (sb.slot tail))).setPc p (.installing (tail + 1)))
    | none =>
      some
        {s.setPc p .finishing with
          lh := [], disk := {s.disk with head := []}, ledger := s.ledger.finish}
  | .commit, .finishing => some {s.setPc p .idle with committing := false}
  | _, _ => none

/-- After `initlog`: the log has been carried out and cleared. -/
def boot (blocks : Nat → α) : State α where
  disk := ⟨blocks, []⟩
  mem := blocks
  lh := []
  outstanding := 0
  committing := false
  holder := fun _ => none
  pc := fun _ => .idle
  ledger := ⟨[], [], 0, [], fun _ => 0, fun _ => []⟩

end State

/-- A step, with who took it and what it was. -/
def Step (sb : Superblock) (s : State α) (l : Task × Act α) (s' : State α) : Prop :=
  s.step sb l.1 l.2 = some s'

/-! ### What a step does -/

open State in
/-- The steps, with what was tested on the way. -/
inductive Case (sb : Superblock) (s : State α) (p : Task) : Act α → State α → Prop where
  | beginOp : s.pc p = .idle → s.committing = false →
      s.lh.length + (s.outstanding + 1) * MAXOPBLOCKS ≤ LOGSIZE →
      Case sb s p .beginOp
        {s.setPc p .op with outstanding := s.outstanding + 1, ledger := s.ledger.begin p}
  | write (b : Nat) (x : α) : s.pc p = .op → ¬ sb.Log b → s.holder b = none → s.tooBig sb = false →
      Case sb s p (.write b x)
        {s.setPc p (.logging b x) with
          holder := update s.holder b (some p), mem := update s.mem b x}
  | insert (b : Nat) (x : α) : s.pc p = .logging b x →
      Case sb s p .insert
        {s.setPc p .op with
          lh := if b ∈ s.lh then s.lh else s.lh ++ [b]
          holder := update s.holder b none
          ledger := s.ledger.log p b x}
  | leave : s.pc p = .op → s.committing = false → s.outstanding - 1 ≠ 0 →
      Case sb s p .endOp
        {s.setPc p .idle with outstanding := s.outstanding - 1, ledger := s.ledger.leave p}
  | close : s.pc p = .op → s.committing = false → s.outstanding - 1 = 0 → s.lh ≠ [] →
      Case sb s p .endOp
        {s.setPc p (.copying 0) with
          outstanding := s.outstanding - 1, committing := true, ledger := s.ledger.close p}
  | skip : s.pc p = .op → s.committing = false → s.outstanding - 1 = 0 → s.lh = [] →
      Case sb s p .endOp
        {s.setPc p .finishing with
          outstanding := s.outstanding - 1, committing := true, ledger := (s.ledger.close p).finish}
  | copy (tail b : Nat) : s.pc p = .copying tail → s.lh[tail]? = some b → s.lh.length < NBUF →
      Case sb s p .commit ((s.bwrite (sb.slot tail) (s.mem b)).setPc p (.copying (tail + 1)))
  | writeHead (tail : Nat) : s.pc p = .copying tail → s.lh[tail]? = none →
      Case sb s p .commit {s.setPc p (.installing 0) with disk := {s.disk with head := s.lh}}
  | install (tail b : Nat) : s.pc p = .installing tail → s.lh[tail]? = some b →
      Case sb s p .commit ((s.bwrite b (s.mem (sb.slot tail))).setPc p (.installing (tail + 1)))
  | clear (tail : Nat) : s.pc p = .installing tail → s.lh[tail]? = none →
      Case sb s p .commit
        {s.setPc p .finishing with
          lh := [], disk := {s.disk with head := []}, ledger := s.ledger.finish}
  | done : s.pc p = .finishing → Case sb s p .commit {s.setPc p .idle with committing := false}

theorem step_case {sb : Superblock} {s s' : State α} {p : Task} {a : Act α}
    (h : s.step sb p a = some s') : Case sb s p a s' := by
  unfold State.step at h
  split at h
  · rename_i hpc
    split at h
    · rename_i hguard
      cases h
      exact .beginOp hpc hguard.1 hguard.2
    · cases h
  · rename_i b x hpc
    split at h
    · rename_i hguard
      cases h
      exact .write b x hpc hguard.1 hguard.2.1 hguard.2.2.1
    · cases h
  · rename_i b x hpc
    cases h
    exact .insert b x hpc
  · rename_i hpc
    split at h
    · cases h
    · rename_i hcommitting
      have hcommitting := Bool.eq_false_iff.mpr hcommitting
      split at h
      · rename_i hlast
        split at h
        · rename_i hempty
          cases h
          exact .skip hpc hcommitting hlast hempty
        · rename_i hne
          cases h
          exact .close hpc hcommitting hlast hne
      · rename_i hmore
        cases h
        exact .leave hpc hcommitting hmore
  · rename_i tail hpc
    split at h
    · rename_i b hget
      split at h
      · rename_i hbuf
        cases h
        exact .copy tail b hpc hget hbuf
      · cases h
    · rename_i hget
      cases h
      exact .writeHead tail hpc hget
  · rename_i tail hpc
    split at h
    · rename_i b hget
      cases h
      exact .install tail b hpc hget
    · rename_i hget
      cases h
      exact .clear tail hpc hget
  · rename_i hpc
    cases h
    exact .done hpc
  · cases h

/-! ### Who is where -/

def Pc.inOp : Pc α → Bool
  | .op | .logging _ _ => true
  | _ => false

def Pc.commits : Pc α → Bool
  | .copying _ | .installing _ | .finishing => true
  | _ => false

@[simp, grind =] theorem Ledger.begin_used (l : Ledger α) (p q : Task) :
    (l.begin p).used q = if q = p then [] else l.used q :=
  update_apply ..

@[simp, grind =] theorem Ledger.log_used (l : Ledger α) (p q : Task) (b : Nat) (x : α) :
    (l.log p b x).used q = if q = p then (l.used p).insert b else l.used q :=
  update_apply ..

@[simp, grind =] theorem Ledger.begin_begun (l : Ledger α) (p q : Task) :
    (l.begin p).begun q = if q = p then l.begun p + 1 else l.begun q :=
  update_apply ..

@[simp, grind =] theorem State.setPc_pc (s : State α) (p q : Task) (x : Pc α) :
    (s.setPc p x).pc q = if q = p then x else s.pc q :=
  update_apply ..

/-- `log.outstanding` counts the operations, and there are none while a task commits. -/
structure Placed (sb : Superblock) (s : State α) : Prop where
  nodup : s.ledger.running.Nodup
  running : ∀ p, p ∈ s.ledger.running ↔ (s.pc p).inOp = true
  outstanding : s.outstanding = s.ledger.running.length
  quiet : s.committing = true → s.ledger.running = []
  still : s.committing = false → ∀ p, (s.pc p).commits = false
  one : ∀ p q, (s.pc p).commits = true → (s.pc q).commits = true → p = q
  lhNodup : s.lh.Nodup
  lhHome : ∀ b ∈ s.lh, ¬ sb.Log b
  logging : ∀ p b x, s.pc p = .logging b x → ¬ sb.Log b

variable {sb : Superblock} {s s' : State α} {p : Task} {a : Act α} {x : Pc α}

theorem placed_boot (blocks : Nat → α) : Placed sb (State.boot blocks) :=
  ⟨List.nodup_nil, fun p => by simp [State.boot, Pc.inOp], rfl, nofun, fun _ _ => rfl, nofun,
    List.nodup_nil, nofun, nofun⟩

section
variable (h : Placed sb s)
include h

theorem Placed.empty (hp : (s.pc p).commits = true) : s.ledger.running = [] := by
  apply h.quiet
  rw [← Bool.not_eq_false]
  intro hfalse
  rw [h.still hfalse p] at hp
  cases hp

theorem Placed.last (hpc : s.pc p = .op) (hlast : s.outstanding - 1 = 0) :
    s.ledger.running.erase p = [] := by
  have hmem : p ∈ s.ledger.running := (h.running p).mpr (by rw [hpc]; rfl)
  have hlen := List.length_erase_of_mem hmem
  rw [← h.outstanding, hlast] at hlen
  exact List.length_eq_zero_iff.mp hlen

/-- Task `p` comes to `x`, and the others stay where they are. -/
theorem Placed.move (hpc : ∀ q, s'.pc q = if q = p then x else s.pc q)
    (hnodup : s'.ledger.running.Nodup) (hp : p ∈ s'.ledger.running ↔ x.inOp = true)
    (hothers : ∀ q, q ≠ p → (q ∈ s'.ledger.running ↔ q ∈ s.ledger.running))
    (hout : s'.outstanding = s'.ledger.running.length)
    (hquiet : s'.committing = true → s'.ledger.running = [])
    (hcommits : ∀ q, q ≠ p → s'.committing = false ∨ x.commits = true → (s.pc q).commits = false)
    (hstill : s'.committing = false → x.commits = false) (hlh : s'.lh.Nodup)
    (hhome : ∀ b ∈ s'.lh, ¬ sb.Log b) (hx : ∀ b y, x = .logging b y → ¬ sb.Log b) :
    Placed sb s' := by
  have hat : s'.pc p = x := by rw [hpc, if_pos rfl]
  have hother : ∀ q, q ≠ p → s'.pc q = s.pc q := fun q hq => by rw [hpc, if_neg hq]
  refine ⟨hnodup, fun q => ?_, hout, hquiet, fun hfalse q => ?_, fun q r hq hr => ?_, hlh, hhome,
    fun q b y hq => ?_⟩
  · by_cases hqp : q = p
    · rw [hqp, hp, hat]
    · rw [hothers q hqp, h.running, hother q hqp]
  · by_cases hqp : q = p
    · rw [hqp, hat, hstill hfalse]
    · rw [hother q hqp, hcommits q hqp (.inl hfalse)]
  · by_cases hqp : q = p <;> by_cases hrp : r = p
    · rw [hqp, hrp]
    · rw [hqp, hat] at hq
      rw [hother r hrp, hcommits r hrp (.inr hq)] at hr
      cases hr
    · rw [hrp, hat] at hr
      rw [hother q hqp, hcommits q hqp (.inr hr)] at hq
      cases hq
    · rw [hother q hqp] at hq
      rw [hother r hrp] at hr
      exact h.one q r hq hr
  · by_cases hqp : q = p
    · rw [hqp, hat] at hq
      exact hx b y hq
    · rw [hother q hqp] at hq
      exact h.logging q b y hq

theorem Placed.commit (hp : (s.pc p).commits = true)
    (hx : x.commits = true ∧ s'.committing = s.committing ∨ x = .idle)
    (hpc : ∀ q, s'.pc q = if q = p then x else s.pc q)
    (hrunning : s'.ledger.running = s.ledger.running) (hout : s'.outstanding = s.outstanding)
    (hlh : s'.lh = s.lh ∨ s'.lh = []) : Placed sb s' := by
  have hnil := h.empty hp
  have hothers : ∀ q, q ≠ p → (s.pc q).commits = false := by
    intro q hq
    rw [← Bool.not_eq_true]
    exact fun hc => hq (h.one q p hc hp)
  have hbusy : s.committing = true := by
    rw [← Bool.not_eq_false]
    intro hfalse
    rw [h.still hfalse p] at hp
    cases hp
  have hinOp : x.inOp = false := by
    rcases hx with ⟨hx, -⟩ | rfl
    · cases x <;> first | rfl | cases hx
    · rfl
  refine h.move hpc (by rw [hrunning]; exact h.nodup) ?_ (fun q _ => by rw [hrunning])
    (by rw [hout, hrunning, h.outstanding]) (fun _ => by rw [hrunning, hnil]) (fun q hq _ => hothers q hq)
    (fun hfalse => ?_) ?_ ?_ ?_
  · rw [hrunning, hnil, hinOp]
    simp
  · rcases hx with ⟨-, hcom⟩ | rfl
    · rw [hcom, hbusy] at hfalse
      cases hfalse
    · rfl
  · rcases hlh with hlh | hlh <;> rw [hlh]
    · exact h.lhNodup
    · exact List.nodup_nil
  · rcases hlh with hlh | hlh <;> rw [hlh]
    · exact h.lhHome
    · nofun
  · rintro b y rfl
    cases hinOp

/-- An operation ends: its task leaves, to the commit if it was the last. -/
theorem Placed.leave (hp : s.pc p = .op)
    (hx : x.inOp = false) (hpc : ∀ q, s'.pc q = if q = p then x else s.pc q)
    (hrunning : s'.ledger.running = s.ledger.running.erase p) (hidle : s.committing = false)
    (hout : s'.outstanding = s.outstanding - 1) (hcom : s'.committing = x.commits)
    (hlast : x.commits = true → s.outstanding - 1 = 0) (hlh : s'.lh = s.lh) : Placed sb s' := by
  have hmem : p ∈ s.ledger.running := (h.running p).mpr (by rw [hp]; rfl)
  refine h.move hpc (by rw [hrunning]; exact h.nodup.erase p) ?_ (fun q hq => ?_) ?_ (fun hbusy => ?_)
    (fun q _ _ => h.still hidle q) (fun hfalse => by rw [← hcom, hfalse]) (by rw [hlh]; exact h.lhNodup)
    (by rw [hlh]; exact h.lhHome) ?_
  · rw [hrunning, hx, h.nodup.mem_erase_iff]
    simp
  · rw [hrunning, List.mem_erase_of_ne hq]
  · rw [hout, hrunning, List.length_erase_of_mem hmem, h.outstanding]
  · rw [hrunning, h.last hp (hlast (by rw [← hcom, hbusy]))]
  · rintro b y rfl
    cases hx

theorem Placed.stay (hp : (s.pc p).inOp = true)
    (hx : x.inOp = true) (hpc : ∀ q, s'.pc q = if q = p then x else s.pc q)
    (hrunning : s'.ledger.running = s.ledger.running) (hout : s'.outstanding = s.outstanding)
    (hcom : s'.committing = s.committing) (hlh : s'.lh.Nodup) (hhome : ∀ b ∈ s'.lh, ¬ sb.Log b)
    (hlog : ∀ b y, x = .logging b y → ¬ sb.Log b) : Placed sb s' := by
  have hmem : p ∈ s.ledger.running := (h.running p).mpr hp
  have hidle : s.committing = false := by
    rw [← Bool.not_eq_true]
    intro hbusy
    rw [h.quiet hbusy] at hmem
    cases hmem
  have hcommits : x.commits = false := by cases x <;> first | rfl | cases hx
  refine h.move hpc (by rw [hrunning]; exact h.nodup) (by rw [hrunning, hx]; simpa using hmem)
    (fun q _ => by rw [hrunning]) (by rw [hout, hrunning, h.outstanding]) (fun hbusy => ?_)
    (fun q _ _ => h.still hidle q) (fun _ => hcommits) hlh hhome hlog
  rw [hcom, hidle] at hbusy
  cases hbusy

theorem Placed.step (hc : Case sb s p a s') : Placed sb s' := by
  cases hc with
  | beginOp hpc hcom =>
    have hmem : p ∉ s.ledger.running := fun hmem => by
      have hin := (h.running p).mp hmem
      rw [hpc] at hin
      cases hin
    refine h.move (fun q => State.setPc_pc ..) (List.nodup_cons.mpr ⟨hmem, h.nodup⟩)
      (by simp [Ledger.begin, Pc.inOp]) (fun q hq => by simp [Ledger.begin, hq])
      (by simp [Ledger.begin, h.outstanding]) (fun hbusy => ?_) (fun q _ _ => h.still hcom q)
      (fun _ => rfl) h.lhNodup h.lhHome nofun
    cases hcom.symm.trans hbusy
  | write b x hpc hb =>
    refine h.stay (x := .logging b x) (by rw [hpc]; rfl) rfl (fun q => State.setPc_pc ..) rfl rfl rfl
      h.lhNodup h.lhHome ?_
    rintro b' x' ⟨⟩
    exact hb
  | insert b x hpc =>
    refine h.stay (x := .op) (by rw [hpc]; rfl) rfl (fun q => State.setPc_pc ..) rfl rfl rfl
      ?_ ?_ nofun
    · show (if b ∈ s.lh then s.lh else s.lh ++ [b]).Nodup
      split
      · exact h.lhNodup
      · rename_i hb
        exact List.nodup_append_comm.mp (List.nodup_cons.mpr ⟨hb, h.lhNodup⟩)
    · show ∀ b' ∈ (if b ∈ s.lh then s.lh else s.lh ++ [b]), ¬ sb.Log b'
      split
      · exact h.lhHome
      · intro b' hb'
        rcases List.mem_append.mp hb' with hb' | hb'
        · exact h.lhHome b' hb'
        · rw [List.mem_singleton.mp hb']
          exact h.logging p b x hpc
  | leave hpc hcom _ =>
    exact h.leave hpc (x := .idle) rfl (fun q => State.setPc_pc ..) rfl hcom rfl hcom nofun rfl
  | close hpc hcom hlast _ =>
    exact h.leave hpc (x := .copying 0) rfl (fun q => State.setPc_pc ..) rfl hcom rfl rfl
      (fun _ => hlast) rfl
  | skip hpc hcom hlast _ =>
    exact h.leave hpc (x := .finishing) rfl (fun q => State.setPc_pc ..) rfl hcom rfl rfl
      (fun _ => hlast) rfl
  | copy tail b hpc hget _ | writeHead tail hpc hget | install tail b hpc hget =>
    exact h.commit (by rw [hpc]; rfl) (.inl ⟨rfl, rfl⟩) (fun q => State.setPc_pc ..) rfl rfl (.inl rfl)
  | clear tail hpc hget =>
    exact h.commit (by rw [hpc]; rfl) (.inl ⟨rfl, rfl⟩) (fun q => State.setPc_pc ..) rfl rfl (.inr rfl)
  | done hpc =>
    exact h.commit (by rw [hpc]; rfl) (.inr rfl) (fun q => State.setPc_pc ..) rfl rfl (.inl rfl)

end

end ThreadKernel.Journal
