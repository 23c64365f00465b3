import ThreadKernel.Disk.Admission

/-! Crashes and recovery.

After a crash nothing is left but the disk, and `recover_from_log` runs; it may crash in its
turn, any number of times. The disk stands at every moment for the contents after some of
the transactions, the first ones: for those before the one in progress until `write_head`
writes its header, and for it too from then on. Carrying out the log, from the start again
if need be, does not change what the disk stands for.

All this needs the log to stay inside its area. `log_write` tests for room before it takes
the lock, and two calls that both find the last place free make the log a block too long.
But then the blocks of the log have all the buffers, and `write_log` panics before its first
write. -/
namespace ThreadKernel.Journal

open Lts Redo Function

variable {α : Type}

/-! ### recover_from_log -/

inductive BootPc where
  | off
  /-- In `install_trans`, with what `read_head` found. -/
  | installing (lh : List Nat) (tail : Nat)
  | done

structure Booting (α : Type) where
  disk : Disk α
  pc : BootPc

/-- `crash` is a crash at this point; otherwise the next block is read or written. -/
def Booting.step (sb : Superblock) (s : Booting α) (crash : Bool) : Option (Booting α) :=
  if crash then some ⟨s.disk, .off⟩
  else
    match s.pc with
    | .off => some ⟨s.disk, .installing s.disk.head 0⟩
    | .installing lh tail =>
      match lh[tail]? with
      | some b =>
        some
          ⟨{s.disk with block := update s.disk.block b (s.disk.block (sb.slot tail))},
            .installing lh (tail + 1)⟩
      | none => some ⟨{s.disk with head := []}, .done⟩
    | .done => none

/-- Recovery from the disk `d`, with any number of crashes, has come to its end with `d'`. -/
def Recovers (sb : Superblock) (d d' : Disk α) : Prop :=
  ∃ h, Run (fun s crash s' => Booting.step sb s crash = some s') ⟨d, .off⟩ h ⟨d', .done⟩

/-- What the disk stands for. -/
def Disk.StandsFor (sb : Superblock) (d : Disk α) (target : Nat → α) : Prop :=
  Redoable sb.Log sb.slot d.block d.head target

/-- The disk goes on standing for the same, and the log is cleared when it is carried out. -/
structure Booting.Sound (sb : Superblock) (s : Booting α) (target : Nat → α) : Prop where
  stands : s.disk.StandsFor sb target
  installing : ∀ lh tail, s.pc = .installing lh tail →
    lh = s.disk.head ∧ Installed s.disk.block lh tail target
  done : s.pc = .done → s.disk.head = []

variable {sb : Superblock} {target : Nat → α}

theorem Booting.Sound.step {s s' : Booting α} {crash : Bool} (h : s.Sound sb target)
    (hs : s.step sb crash = some s') : s'.Sound sb target := by
  unfold Booting.step at hs
  split at hs
  · cases hs
    exact ⟨h.stands, nofun, nofun⟩
  · split at hs
    · cases hs
      refine ⟨h.stands, fun lh tail heq => ?_, nofun⟩
      cases heq
      exact ⟨rfl, installed_zero⟩
    · rename_i lh tail hpc
      obtain ⟨rfl, hinstalled⟩ := h.installing lh tail hpc
      split at hs
      · rename_i b hget
        cases hs
        refine ⟨h.stands.install hget, fun lh k heq => ?_, nofun⟩
        cases heq
        exact ⟨rfl, hinstalled.install h.stands hget⟩
      · rename_i hget
        cases hs
        exact ⟨h.stands.clear hinstalled hget, nofun, fun _ => rfl⟩
    · cases hs

/-- Recovery ends with what the disk stood for. -/
theorem Disk.StandsFor.recovers {d d' : Disk α} (h : d.StandsFor sb target)
    (hr : Recovers sb d d') : ∀ b, ¬ sb.Log b → d'.block b = target b := by
  obtain ⟨hist, hr⟩ := hr
  have hsound : Booting.Sound sb ⟨d', .done⟩ target :=
    hr.invariant (fun _ s => s.Sound sb target) ⟨h, nofun, nofun⟩ fun _ _ _ _ _ hs hstep =>
      hs.step hstep
  have hstands := hsound.stands
  unfold Disk.StandsFor at hstands
  rw [hsound.done rfl] at hstands
  exact redoable_nil_iff.mp hstands

/-! ### Transactions -/

def Entry.write (e : Entry α) : Nat × α := (e.block, e.data)

/-- The blocks after the first transactions `ts`. -/
def contents (blocks : Nat → α) (ts : List (List (Entry α))) : Nat → α :=
  replay blocks (ts.flatten.map Entry.write)

theorem contents_snoc (blocks : Nat → α) (ts : List (List (Entry α))) (t : List (Entry α)) :
    contents blocks (ts ++ [t]) = replay (contents blocks ts) (t.map Entry.write) := by
  unfold contents
  rw [List.flatten_append, List.map_append, replay_append, List.flatten_singleton]

/-- No operation is in two transactions. -/
def Separate (ts : List (List (Entry α))) : Prop :=
  ts.Pairwise fun t t' => ∀ e ∈ t, ∀ e' ∈ t', e.op ≠ e'.op

/-- Of the operation `o`, all is in the first `k` transactions or nothing is. -/
def Whole (ts : List (List (Entry α))) (k : Nat) (o : Task × Nat) : Prop :=
  (∀ t ∈ ts.drop k, ∀ e ∈ t, e.op ≠ o) ∨ ∀ t ∈ ts.take k, ∀ e ∈ t, e.op ≠ o

theorem Separate.whole {ts : List (List (Entry α))} (h : Separate ts) (k : Nat) (o : Task × Nat) :
    Whole ts k o := by
  unfold Separate at h
  rw [← List.take_append_drop k ts, List.pairwise_append] at h
  by_cases hin : ∃ t ∈ ts.take k, ∃ e ∈ t, e.op = o
  · obtain ⟨t, ht, e, he, rfl⟩ := hin
    exact .inl fun t' ht' e' he' heq => h.2.2 t ht t' ht' e he e' he' heq.symm
  · exact .inr fun t ht e he heq => hin ⟨t, ht, e, he, heq⟩

/-- Which operations have logged something, and where it is. -/
structure Ledger.Ops (l : Ledger α) : Prop where
  known : ∀ t ∈ l.past ++ [l.now], ∀ e ∈ t, e.op.2 ≤ l.begun e.op.1
  fresh : ∀ p ∈ l.running, ∀ t ∈ l.past, ∀ e ∈ t, e.op ≠ (p, l.begun p)
  separate : Separate (l.past ++ [l.now])

section
variable {l : Ledger α} {p : Task} {b : Nat} {x : α}

theorem Ledger.Ops.begin (h : l.Ops) (hp : p ∉ l.running) : (l.begin p).Ops := by
  refine ⟨fun t ht e he => ?_, fun q hq t ht e he => ?_, h.separate⟩
  · have hle := h.known t ht e he
    rw [Ledger.begin_begun]
    split
    · rename_i heq
      rw [← heq]
      omega
    · exact hle
  · rw [Ledger.begin_begun]
    rcases List.mem_cons.mp hq with rfl | hmem
    · rw [if_pos rfl]
      intro heq
      have hle := h.known t (List.mem_append_left _ ht) e he
      rw [heq] at hle
      exact Nat.not_succ_le_self _ hle
    · rw [if_neg]
      · exact h.fresh q hmem t ht e he
      · rintro rfl
        exact hp hmem

theorem Ledger.Ops.log (h : l.Ops) (hp : p ∈ l.running) : (l.log p b x).Ops := by
  obtain ⟨hpast, -, hacross⟩ := List.pairwise_append.mp h.separate
  refine ⟨fun t ht e he => ?_, h.fresh, ?_⟩
  · rcases List.mem_append.mp ht with ht | ht
    · exact h.known t (List.mem_append_left _ ht) e he
    · rw [List.mem_singleton.mp ht] at he
      rcases List.mem_append.mp he with he | he
      · exact h.known l.now (List.mem_append_right _ (List.mem_singleton_self _)) e he
      · rw [List.mem_singleton.mp he]
        exact Nat.le_refl _
  · refine List.pairwise_append.mpr ⟨hpast, List.pairwise_singleton .., fun t ht t' ht' e he e' he' => ?_⟩
    rw [List.mem_singleton.mp ht'] at he'
    rcases List.mem_append.mp he' with he' | he'
    · exact hacross t ht l.now (List.mem_singleton_self _) e he e' he'
    · rw [List.mem_singleton.mp he']
      exact h.fresh p hp t ht e he

theorem Ledger.Ops.leave (h : l.Ops) : (l.leave p).Ops :=
  ⟨h.known, fun q hq => h.fresh q (List.mem_of_mem_erase hq), h.separate⟩

theorem Ledger.Ops.close (h : l.Ops) (hp : l.running.erase p = []) : (l.close p).Ops := by
  refine ⟨fun t ht e he => ?_, fun q hq => ?_, ?_⟩
  · rcases List.mem_append.mp ht with ht | ht
    · exact h.known t ht e he
    · rw [List.mem_singleton.mp ht] at he
      cases he
  · rw [show (l.close p).running = l.running.erase p from rfl, hp] at hq
    cases hq
  · refine List.pairwise_append.mpr ⟨h.separate, List.pairwise_singleton .., fun t _ t' ht' e _ e' he' => ?_⟩
    rw [List.mem_singleton.mp ht'] at he'
    cases he'

theorem Ledger.Ops.finish (h : l.Ops) : l.finish.Ops := ⟨h.known, h.fresh, h.separate⟩

end

variable {s s' : State α} {p : Task} {a : Act α} {blocks : Nat → α} {b k : Nat} {x : α}

theorem ops_step (h : s.ledger.Ops) (hplaced : Placed sb s) (hc : Case sb s p a s') :
    s'.ledger.Ops := by
  have hmem : (s.pc p).inOp = true → p ∈ s.ledger.running := (hplaced.running p).mpr
  cases hc with
  | beginOp hpc hcom hfit =>
    apply h.begin
    rw [hplaced.running, hpc]
    exact Bool.false_ne_true
  | insert b x hpc => exact h.log (hmem (by rw [hpc]; rfl))
  | leave hpc hcom hmore => exact h.leave
  | close hpc hcom hzero hne => exact h.close (hplaced.last hpc hzero)
  | skip hpc hcom hzero hempty => exact (h.close (hplaced.last hpc hzero)).finish
  | clear tail hpc hget => exact h.finish
  | write b x hpc hlog hfree hfit => exact h
  | copy tail b hpc hget _ => exact h
  | writeHead tail hpc hget => exact h
  | install tail b hpc hget => exact h
  | done hpc => exact h

/-! ### The disk under operations and commits -/

/-- The buffers: each has what was last logged of its block, unless it is being changed. -/
structure Buffers (sb : Superblock) (blocks : Nat → α) (s : State α) : Prop where
  held : ∀ p b x, s.pc p = .logging b x → s.holder b = some p ∧ s.mem b = x
  holder : ∀ b p, s.holder b = some p → ∃ x, s.pc p = .logging b x
  mem : ∀ b, ¬ sb.Log b → s.holder b = none →
    s.mem b = contents blocks (s.ledger.past ++ [s.ledger.now]) b
  listed : ∀ e ∈ s.ledger.now, e.block ∈ s.lh

/-- A task is in `write_log`, with the first `k` blocks copied. -/
structure Copying (sb : Superblock) (blocks : Nat → α) (s : State α) (k : Nat) : Prop where
  finished : s.ledger.finished + 1 = s.ledger.past.length
  head : s.disk.head = []
  slots : 0 < k → ∀ i < s.lh.length, sb.Log (sb.slot i)
  stands : s.disk.StandsFor sb (contents blocks (s.ledger.past.take s.ledger.finished))
  rest : ∀ b, ¬ sb.Log b → b ∉ s.lh →
    contents blocks s.ledger.past b = contents blocks (s.ledger.past.take s.ledger.finished) b
  copied : ∀ i < k, ∀ b, s.lh[i]? = some b → s.disk.block (sb.slot i) = contents blocks s.ledger.past b ∧
    s.mem (sb.slot i) = contents blocks s.ledger.past b

/-- A task is in `install_trans`, with the first `k` blocks installed. -/
structure Installing (sb : Superblock) (blocks : Nat → α) (s : State α) (k : Nat) : Prop where
  finished : s.ledger.finished + 1 = s.ledger.past.length
  head : s.disk.head = s.lh
  slots : ∀ i < s.lh.length, sb.Log (sb.slot i)
  stands : s.disk.StandsFor sb (contents blocks s.ledger.past)
  installed : Installed s.disk.block s.lh k (contents blocks s.ledger.past)
  copied : ∀ i b, s.lh[i]? = some b → s.mem (sb.slot i) = contents blocks s.ledger.past b

/-- No commit is under way, or it is over. -/
structure Settled (sb : Superblock) (blocks : Nat → α) (s : State α) : Prop where
  finished : s.ledger.finished = s.ledger.past.length
  head : s.disk.head = []
  stands : s.disk.StandsFor sb (contents blocks s.ledger.past)

def Pc.writes : Pc α → Bool
  | .copying _ | .installing _ => true
  | _ => false

structure Sound (sb : Superblock) (blocks : Nat → α) (s : State α) : Prop where
  placed : Placed sb s
  buffers : Buffers sb blocks s
  ops : s.ledger.Ops
  copying : ∀ p k, s.pc p = .copying k → Copying sb blocks s k
  installing : ∀ p k, s.pc p = .installing k → Installing sb blocks s k
  settled : (∀ p, (s.pc p).writes = false) → Settled sb blocks s
  closed : s.committing = true → s.ledger.now = []

theorem Sound.stands (h : Sound sb blocks s) : ∃ k, s.ledger.finished ≤ k ∧
    k ≤ s.ledger.past.length ∧ s.disk.StandsFor sb (contents blocks (s.ledger.past.take k)) := by
  by_cases hwrites : ∀ p, (s.pc p).writes = false
  · have hset := h.settled hwrites
    refine ⟨s.ledger.past.length, Nat.le_of_eq hset.finished, Nat.le_refl _, ?_⟩
    rw [List.take_length]
    exact hset.stands
  · push Not at hwrites
    obtain ⟨p, hp⟩ := hwrites
    cases hpc : s.pc p with
    | copying k =>
      have hcopy := h.copying p k hpc
      have hfin := hcopy.finished
      exact ⟨s.ledger.finished, Nat.le_refl _, by omega, hcopy.stands⟩
    | installing k =>
      have hinst := h.installing p k hpc
      have hfin := hinst.finished
      refine ⟨s.ledger.past.length, by omega, Nat.le_refl _, ?_⟩
      rw [List.take_length]
      exact hinst.stands
    | _ =>
      rw [hpc] at hp
      exact absurd rfl hp

/-! ### Steps -/

theorem sound_boot (blocks : Nat → α) : Sound sb blocks (State.boot blocks) := by
  refine ⟨placed_boot blocks, ⟨nofun, nofun, fun _ _ _ => rfl, nofun⟩, ⟨?_, nofun, ?_⟩, nofun, nofun,
    fun _ => ⟨rfl, rfl, redoable_nil_iff.mpr fun _ _ => rfl⟩, nofun⟩
  · intro t ht e he
    rw [List.mem_singleton.mp ht] at he
    cases he
  · exact List.pairwise_singleton ..

theorem contents_close (blocks : Nat → α) (ts : List (List (Entry α))) :
    contents blocks (ts ++ [[]]) = contents blocks ts := by
  rw [contents_snoc]
  rfl

/-- A task that is not in `log_write` before or after moves; buffers outside the log keep
their content. -/
theorem Buffers.move {x y : Pc α} (h : Buffers sb blocks s) (hplaced : Placed sb s)
    (hp : s.pc p = x) (hx : ∀ b z, x ≠ .logging b z) (hy : ∀ b z, y ≠ .logging b z)
    (hpc : ∀ q, s'.pc q = if q = p then y else s.pc q) (hholder : s'.holder = s.holder)
    (hmem : ∀ b, ¬ sb.Log b → s'.mem b = s.mem b)
    (hcontents : contents blocks (s'.ledger.past ++ [s'.ledger.now]) =
      contents blocks (s.ledger.past ++ [s.ledger.now]))
    (hlisted : ∀ e ∈ s'.ledger.now, e.block ∈ s'.lh) : Buffers sb blocks s' := by
  have hlogging : ∀ q b z, s'.pc q = .logging b z ↔ s.pc q = .logging b z := by
    intro q b z
    rw [hpc]
    split
    · rename_i hq
      rw [hq, hp]
      exact iff_of_false (hy b z) (hx b z)
    · exact Iff.rfl
  refine ⟨fun q b x hq => ?_, fun b q hq => ?_, fun b hb hnone => ?_, hlisted⟩
  · rw [hlogging] at hq
    rw [hholder, hmem b (hplaced.logging q b x hq)]
    exact h.held q b x hq
  · rw [hholder] at hq
    obtain ⟨x, hx⟩ := h.holder b q hq
    exact ⟨x, (hlogging q b x).mpr hx⟩
  · rw [hholder] at hnone
    rw [hmem b hb, hcontents, h.mem b hb hnone]

theorem Buffers.write (h : Buffers sb blocks s) (hpc : s.pc p = .op) (hfree : s.holder b = none) :
    Buffers sb blocks
      {s.setPc p (.logging b x) with
        holder := update s.holder b (some p), mem := update s.mem b x} := by
  refine ⟨fun q c y hq => ?_, fun c q hq => ?_, fun c hc hnone => ?_, h.listed⟩
  · dsimp only at hq ⊢
    rw [State.setPc_pc] at hq
    split at hq
    · rename_i hqp
      cases hq
      rw [hqp]
      exact ⟨update_self .., update_self ..⟩
    · obtain ⟨hholder, hmem⟩ := h.held q c y hq
      have hne : c ≠ b := by
        rintro rfl
        rw [hfree] at hholder
        cases hholder
      rw [update_of_ne hne, update_of_ne hne]
      exact ⟨hholder, hmem⟩
  · dsimp only at hq ⊢
    rw [State.setPc_pc]
    by_cases hcb : c = b
    · rw [hcb, update_self] at hq
      cases hq
      exact ⟨x, by rw [if_pos rfl, hcb]⟩
    · rw [update_of_ne hcb] at hq
      obtain ⟨y, hy⟩ := h.holder c q hq
      refine ⟨y, ?_⟩
      rw [if_neg]
      · exact hy
      · rintro rfl
        rw [hpc] at hy
        cases hy
  · dsimp only at hnone ⊢
    have hne : c ≠ b := by
      rintro rfl
      rw [update_self] at hnone
      cases hnone
    rw [update_of_ne hne] at hnone ⊢
    exact h.mem c hc hnone

theorem Buffers.insert (h : Buffers sb blocks s) (hpc : s.pc p = .logging b x) :
    Buffers sb blocks
      {s.setPc p .op with
        lh := if b ∈ s.lh then s.lh else s.lh ++ [b]
        holder := update s.holder b none
        ledger := s.ledger.log p b x} := by
  obtain ⟨hholder, hmem⟩ := h.held p b x hpc
  refine ⟨fun q c y hq => ?_, fun c q hq => ?_, fun c hc hnone => ?_, fun e he => ?_⟩
  · dsimp only at hq ⊢
    rw [State.setPc_pc] at hq
    split at hq
    · cases hq
    · rename_i hqp
      obtain ⟨hholder', hmem'⟩ := h.held q c y hq
      have hne : c ≠ b := by
        rintro rfl
        rw [hholder] at hholder'
        exact hqp (Option.some.inj hholder').symm
      rw [update_of_ne hne]
      exact ⟨hholder', hmem'⟩
  · dsimp only at hq ⊢
    rw [State.setPc_pc]
    have hne : c ≠ b := by
      rintro rfl
      rw [update_self] at hq
      cases hq
    rw [update_of_ne hne] at hq
    obtain ⟨y, hy⟩ := h.holder c q hq
    refine ⟨y, ?_⟩
    rw [if_neg]
    · exact hy
    · rintro rfl
      rw [hpc] at hy
      cases hy
      exact hne rfl
  · dsimp only [Ledger.log] at hnone ⊢
    rw [contents_snoc, List.map_append, List.map_singleton, Entry.write, replay_snoc, ← contents_snoc]
    by_cases hcb : c = b
    · rw [hcb, update_self]
      exact hmem
    · rw [update_of_ne hcb] at hnone ⊢
      exact h.mem c hc hnone
  · dsimp only [Ledger.log] at he ⊢
    have hsub : e.block ∈ s.lh ∨ e.block = b := by
      rcases List.mem_append.mp he with he | he
      · exact .inl (h.listed e he)
      · rw [List.mem_singleton.mp he]
        exact .inr rfl
    split
    · rename_i hin
      rcases hsub with hsub | hsub
      · exact hsub
      · rw [hsub]
        exact hin
    · rcases hsub with hsub | hsub
      · exact List.mem_append_left _ hsub
      · rw [hsub]
        exact List.mem_append_right _ (List.mem_singleton_self _)

theorem writes_of_commits {x : Pc α} (h : x.commits = false) : x.writes = false := by
  cases x <;> first | rfl | cases h

theorem Sound.open (h : Sound sb blocks s) (hcom : s.committing = false) : Settled sb blocks s :=
  h.settled fun p => writes_of_commits (h.placed.still hcom p)

theorem Placed.not_committing (h : Placed sb s) (hp : (s.pc p).inOp = true) :
    s.committing = false := by
  rw [← Bool.not_eq_true]
  intro hcom
  have hmem := (h.running p).mpr hp
  rw [h.quiet hcom] at hmem
  cases hmem

section
variable (h : Sound sb blocks s)
include h

theorem Sound.unheld (hnone : s.ledger.running = []) (b : Nat) :
    s.holder b = none := by
  cases hb : s.holder b with
  | none => rfl
  | some p =>
    obtain ⟨x, hx⟩ := h.buffers.holder b p hb
    have hmem := (h.placed.running p).mpr (by rw [hx]; rfl)
    rw [hnone] at hmem
    cases hmem

theorem Sound.closed_of (hp : (s.pc p).commits = true) :
    s.ledger.now = [] := by
  apply h.closed
  rw [← Bool.not_eq_false]
  intro hcom
  rw [h.placed.still hcom p] at hp
  cases hp

theorem Sound.mem_commit (hp : (s.pc p).commits = true) (b : Nat)
    (hb : ¬ sb.Log b) : s.mem b = contents blocks s.ledger.past b := by
  rw [h.buffers.mem b hb (h.unheld (h.placed.empty hp) b), h.closed_of hp, contents_close]

theorem Sound.outside (hplaced : Placed sb s') (hbuffers : Buffers sb blocks s')
    (hops : s'.ledger.Ops) (hcom : s.committing = false) (hcom' : s'.committing = false)
    (hdisk : s'.disk = s.disk) (hpast : s'.ledger.past = s.ledger.past)
    (hfin : s'.ledger.finished = s.ledger.finished) : Sound sb blocks s' := by
  have hset := h.open hcom
  have hstill := hplaced.still hcom'
  refine ⟨hplaced, hbuffers, hops, fun q k hq => ?_, fun q k hq => ?_, fun _ => ?_, fun htrue => ?_⟩
  · have hq' := hstill q
    rw [hq] at hq'
    cases hq'
  · have hq' := hstill q
    rw [hq] at hq'
    cases hq'
  · exact ⟨by rw [hfin, hpast, hset.finished], by rw [hdisk, hset.head], by rw [hdisk, hpast]; exact hset.stands⟩
  · rw [hcom'] at htrue
    cases htrue

end

/-- A step of the task that commits, to a place where it writes blocks. -/
theorem Sound.inside {y : Pc α} (hone : ∀ q, q ≠ p → (s.pc q).commits = false)
    (hpc : ∀ q, s'.pc q = if q = p then y else s.pc q) (hy : y.writes = true)
    (hplaced : Placed sb s') (hbuffers : Buffers sb blocks s') (hops : s'.ledger.Ops)
    (hcopying : ∀ k, y = .copying k → Copying sb blocks s' k)
    (hinstalling : ∀ k, y = .installing k → Installing sb blocks s' k)
    (hnow : s'.ledger.now = []) : Sound sb blocks s' := by
  refine ⟨hplaced, hbuffers, hops, fun q k hq => ?_, fun q k hq => ?_, fun hall => ?_, fun _ => hnow⟩
  · rw [hpc] at hq
    split at hq
    · exact hcopying k hq
    · rename_i hne
      have hq' := hone q hne
      rw [hq] at hq'
      cases hq'
  · rw [hpc] at hq
    split at hq
    · exact hinstalling k hq
    · rename_i hne
      have hq' := hone q hne
      rw [hq] at hq'
      cases hq'
  · have hp := hall p
    rw [hpc, if_pos rfl, hy] at hp
    cases hp

/-- A step of the task that commits, to a place where it does not. -/
theorem Sound.after {y : Pc α} (hone : ∀ q, q ≠ p → (s.pc q).commits = false)
    (hpc : ∀ q, s'.pc q = if q = p then y else s.pc q) (hy : y.writes = false)
    (hplaced : Placed sb s') (hbuffers : Buffers sb blocks s') (hops : s'.ledger.Ops)
    (hsettled : Settled sb blocks s') (hnow : s'.ledger.now = []) : Sound sb blocks s' := by
  have hnone : ∀ q, (s'.pc q).writes = false := by
    intro q
    rw [hpc]
    split
    · exact hy
    · rename_i hne
      exact writes_of_commits (hone q hne)
  refine ⟨hplaced, hbuffers, hops, fun q k hq => ?_, fun q k hq => ?_, fun _ => hsettled, fun _ => hnow⟩
  · have hq' := hnone q
    rw [hq] at hq'
    cases hq'
  · have hq' := hnone q
    rw [hq] at hq'
    cases hq'

theorem Placed.others (h : Placed sb s) (hp : (s.pc p).commits = true) (q : Task) (hq : q ≠ p) :
    (s.pc q).commits = false := by
  rw [← Bool.not_eq_true]
  intro hqc
  exact hq (h.one q p hqc hp)

theorem slot_injective {i : Nat} (h : sb.slot i = sb.slot k) : i = k := by
  unfold Superblock.slot at h
  omega

/-- The transaction is closed, and nothing of it is on the disk. -/
theorem Settled.close (h : Settled sb blocks s) (hlisted : ∀ e ∈ s.ledger.now, e.block ∈ s.lh)
    (hledger : s'.ledger = s.ledger.close p) (hdisk : s'.disk = s.disk) (hlh : s'.lh = s.lh) :
    Copying sb blocks s' 0 := by
  have hpast : s'.ledger.past = s.ledger.past ++ [s.ledger.now] := congrArg Ledger.past hledger
  have hfinished : s'.ledger.finished = s.ledger.past.length :=
    (congrArg Ledger.finished hledger).trans h.finished
  have htake : s'.ledger.past.take s'.ledger.finished = s.ledger.past := by
    rw [hpast, hfinished, List.take_left' rfl]
  refine ⟨?_, by rw [hdisk, h.head], nofun, ?_, fun b _ hnew => ?_, nofun⟩
  · rw [hpast, hfinished, List.length_append, List.length_singleton]
  · rw [hdisk, htake]
    exact h.stands
  · rw [htake, hpast, contents_snoc]
    apply replay_of_notMem
    rw [List.map_map]
    intro hmem
    obtain ⟨e, he, rfl⟩ := List.mem_map.mp hmem
    rw [hlh] at hnew
    exact hnew (hlisted e he)

theorem Copying.copy (h : Copying sb blocks s k) (hslots : ∀ i < s.lh.length, sb.Log (sb.slot i))
    (hget : s.lh[k]? = some b) (hmem : s.mem b = contents blocks s.ledger.past b) :
    Copying sb blocks ((s.bwrite (sb.slot k) (s.mem b)).setPc p (.copying (k + 1))) (k + 1) := by
  refine ⟨h.finished, h.head, fun _ => hslots, ?_, h.rest, fun i hi c hc => ?_⟩
  · have hstands := h.stands
    unfold Disk.StandsFor at hstands ⊢
    rw [h.head] at hstands
    rw [show ((s.bwrite (sb.slot k) (s.mem b)).setPc p (.copying (k + 1))).disk.head = [] from h.head]
    exact hstands.write_slot (hslots k (List.getElem?_eq_some_iff.mp hget).1)
  · dsimp only [State.bwrite, State.setPc] at hc ⊢
    by_cases hik : i = k
    · subst hik
      obtain rfl : b = c := Option.some.inj (hget.symm.trans hc)
      rw [update_self, update_self]
      exact ⟨hmem, hmem⟩
    · have hne : sb.slot i ≠ sb.slot k := fun heq => hik (slot_injective heq)
      rw [update_of_ne hne, update_of_ne hne]
      exact h.copied i (by omega) c hc

theorem Copying.publish (h : Copying sb blocks s k) (hplaced : Placed sb s)
    (hget : s.lh[k]? = none) :
    Installing sb blocks {s.setPc p (.installing 0) with disk := {s.disk with head := s.lh}} 0 := by
  have hlen := List.getElem?_eq_none_iff.mp hget
  have hcopied : ∀ i b, s.lh[i]? = some b → s.disk.block (sb.slot i) = contents blocks s.ledger.past b ∧
      s.mem (sb.slot i) = contents blocks s.ledger.past b := by
    intro i b hi
    have hlt := (List.getElem?_eq_some_iff.mp hi).1
    exact h.copied i (by omega) b hi
  have hslots : ∀ i < s.lh.length, sb.Log (sb.slot i) := fun i hi => h.slots (by omega) i hi
  have hstands := h.stands
  unfold Disk.StandsFor at hstands
  rw [h.head] at hstands
  exact ⟨h.finished, rfl, hslots, hstands.publish hplaced.lhHome hslots (fun i b hi => (hcopied i b hi).1) h.rest,
    installed_zero, fun i b hi => (hcopied i b hi).2⟩

theorem Installing.install (h : Installing sb blocks s k) (hhome : ¬ sb.Log b)
    (hget : s.lh[k]? = some b) :
    Installing sb blocks ((s.bwrite b (s.mem (sb.slot k))).setPc p (.installing (k + 1))) (k + 1) := by
  have hstands := h.stands
  unfold Disk.StandsFor at hstands
  rw [h.head] at hstands
  have hvalue : s.mem (sb.slot k) = s.disk.block (sb.slot k) := by
    rw [h.copied k b hget, hstands.copy k b hget]
  refine ⟨h.finished, h.head, h.slots, ?_, ?_, fun i c hi => ?_⟩
  · unfold Disk.StandsFor
    dsimp only [State.bwrite, State.setPc]
    rw [h.head, hvalue]
    exact hstands.install hget
  · dsimp only [State.bwrite, State.setPc]
    rw [hvalue]
    exact h.installed.install hstands hget
  · dsimp only [State.bwrite, State.setPc] at hi ⊢
    rw [update_of_ne]
    · exact h.copied i c hi
    · intro heq
      have hlog := h.slots i (List.getElem?_eq_some_iff.mp hi).1
      rw [heq] at hlog
      exact hhome hlog

theorem Sound.step (hsb : NBUF ≤ sb.nlog) (h : Sound sb blocks s) (hc : Case sb s p a s') :
    Sound sb blocks s' := by
  have hplaced := h.placed.step hc
  have hops := ops_step h.ops h.placed hc
  cases hc with
  | beginOp hpc hcom hfit =>
    refine h.outside hplaced ?_ hops hcom hcom rfl rfl rfl
    exact h.buffers.move (y := .op) h.placed hpc nofun nofun (fun q => State.setPc_pc ..) rfl
      (fun _ _ => rfl) rfl h.buffers.listed
  | write b x hpc hlog hfree hfit =>
    have hcom := h.placed.not_committing (p := p) (by rw [hpc]; rfl)
    exact h.outside hplaced (h.buffers.write hpc hfree) hops hcom hcom rfl rfl rfl
  | insert b x hpc =>
    have hcom := h.placed.not_committing (p := p) (by rw [hpc]; rfl)
    exact h.outside hplaced (h.buffers.insert hpc) hops hcom hcom rfl rfl rfl
  | leave hpc hcom hmore =>
    refine h.outside hplaced ?_ hops hcom hcom rfl rfl rfl
    exact h.buffers.move (y := .idle) h.placed hpc nofun nofun (fun q => State.setPc_pc ..) rfl
      (fun _ _ => rfl) rfl h.buffers.listed
  | close hpc hcom hzero hne =>
    have hset := h.open hcom
    refine Sound.inside (y := .copying 0) (fun q _ => h.placed.still hcom q) (fun q => State.setPc_pc ..)
      rfl hplaced ?_ hops (fun k hk => ?_) nofun rfl
    · exact h.buffers.move (y := .copying 0) h.placed hpc nofun nofun
        (fun q => State.setPc_pc ..) rfl (fun _ _ => rfl) (contents_close ..) nofun
    · cases hk
      exact hset.close h.buffers.listed rfl rfl rfl
  | skip hpc hcom hzero hempty =>
    have hset := h.open hcom
    have hnow : s.ledger.now = [] := by
      apply List.eq_nil_iff_forall_not_mem.mpr
      intro e he
      have hlisted := h.buffers.listed e he
      rw [hempty] at hlisted
      cases hlisted
    refine Sound.after (y := .finishing) (fun q _ => h.placed.still hcom q) (fun q => State.setPc_pc ..)
      rfl hplaced ?_ hops ⟨?_, hset.head, ?_⟩ rfl
    · exact h.buffers.move (y := .finishing) h.placed hpc nofun nofun
        (fun q => State.setPc_pc ..) rfl (fun _ _ => rfl) (contents_close ..) nofun
    · show s.ledger.finished + 1 = (s.ledger.past ++ [s.ledger.now]).length
      rw [hset.finished, List.length_append, List.length_singleton]
    · show s.disk.StandsFor sb (contents blocks (s.ledger.past ++ [s.ledger.now]))
      rw [hnow, contents_close]
      exact hset.stands
  | copy tail b hpc hget hbuf =>
    have hp : (s.pc p).commits = true := by rw [hpc]; rfl
    have hhome := h.placed.lhHome b (List.mem_of_getElem? hget)
    have hslots : ∀ i < s.lh.length, sb.Log (sb.slot i) := by
      intro i hi
      unfold Superblock.Log Superblock.slot
      omega
    refine Sound.inside (y := .copying (tail + 1)) (h.placed.others hp) (fun q => State.setPc_pc ..) rfl
      hplaced ?_ hops (fun k hk => ?_) nofun (h.closed_of hp)
    · refine h.buffers.move (y := .copying (tail + 1)) h.placed hpc nofun nofun
        (fun q => State.setPc_pc ..) rfl (fun c hc => ?_) rfl h.buffers.listed
      refine update_of_ne ?_ ..
      rintro rfl
      exact hc (hslots tail (List.getElem?_eq_some_iff.mp hget).1)
    · cases hk
      exact (h.copying p tail hpc).copy hslots hget (h.mem_commit hp b hhome)
  | writeHead tail hpc hget =>
    have hp : (s.pc p).commits = true := by rw [hpc]; rfl
    refine Sound.inside (y := .installing 0) (h.placed.others hp) (fun q => State.setPc_pc ..) rfl
      hplaced ?_ hops nofun (fun k hk => ?_) (h.closed_of hp)
    · exact h.buffers.move (y := .installing 0) h.placed hpc nofun nofun
        (fun q => State.setPc_pc ..) rfl (fun _ _ => rfl) rfl h.buffers.listed
    · cases hk
      exact (h.copying p tail hpc).publish h.placed hget
  | install tail b hpc hget =>
    have hp : (s.pc p).commits = true := by rw [hpc]; rfl
    have hhome := h.placed.lhHome b (List.mem_of_getElem? hget)
    have hinst := h.installing p tail hpc
    refine Sound.inside (y := .installing (tail + 1)) (h.placed.others hp) (fun q => State.setPc_pc ..)
      rfl hplaced ?_ hops nofun (fun k hk => ?_) (h.closed_of hp)
    · refine h.buffers.move (y := .installing (tail + 1)) h.placed hpc nofun nofun
        (fun q => State.setPc_pc ..) rfl (fun c hc => ?_) rfl h.buffers.listed
      show update s.mem b (s.mem (sb.slot tail)) c = s.mem c
      by_cases hcb : c = b
      · rw [hcb, update_self, hinst.copied tail b hget, h.mem_commit hp b hhome]
      · exact update_of_ne hcb ..
    · cases hk
      exact hinst.install hhome hget
  | clear tail hpc hget =>
    have hp : (s.pc p).commits = true := by rw [hpc]; rfl
    have hinst := h.installing p tail hpc
    have hstands := hinst.stands
    unfold Disk.StandsFor at hstands
    rw [hinst.head] at hstands
    have hnow := h.closed_of hp
    refine Sound.after (y := .finishing) (h.placed.others hp) (fun q => State.setPc_pc ..) rfl hplaced ?_
      hops ⟨hinst.finished, rfl, hstands.clear hinst.installed hget⟩ hnow
    refine h.buffers.move (y := .finishing) h.placed hpc nofun nofun
      (fun q => State.setPc_pc ..) rfl (fun _ _ => rfl) rfl ?_
    rw [show (s.ledger.finish).now = [] from hnow]
    nofun
  | done hpc =>
    have hp : (s.pc p).commits = true := by rw [hpc]; rfl
    have hset : Settled sb blocks s := by
      apply h.settled
      intro q
      by_cases hq : q = p
      · rw [hq, hpc]
        rfl
      · exact writes_of_commits (h.placed.others hp q hq)
    refine Sound.after (y := .idle) (h.placed.others hp) (fun q => State.setPc_pc ..) rfl hplaced ?_
      hops ⟨hset.finished, hset.head, hset.stands⟩ (h.closed_of hp)
    exact h.buffers.move (y := .idle) h.placed hpc nofun nofun
      (fun q => State.setPc_pc ..) rfl (fun _ _ => rfl) rfl h.buffers.listed

/-! ### Every run, every crash -/

/-- Recovery that is left alone comes to its end. -/
theorem exists_recovers (sb : Superblock) (d : Disk α) : ∃ d', Recovers sb d d' := by
  have hinstall : ∀ n (lh : List Nat) tail (disk : Disk α) h, lh.length - tail = n →
      Run (fun s crash s' => Booting.step sb s crash = some s') ⟨d, .off⟩ h ⟨disk, .installing lh tail⟩ →
      ∃ d', Recovers sb d d' := by
    intro n
    induction n with
    | zero =>
      intro lh tail disk h hlen hr
      have hget : lh[tail]? = none := List.getElem?_eq_none_iff.mpr (by omega)
      refine ⟨{disk with head := []}, false :: h, hr.snoc ?_⟩
      simp [Booting.step, hget]
    | succ n ih =>
      intro lh tail disk h hlen hr
      obtain ⟨b, hget⟩ : ∃ b, lh[tail]? = some b := ⟨lh[tail], List.getElem?_eq_getElem (by omega)⟩
      let disk' := {disk with block := update disk.block b (disk.block (sb.slot tail))}
      refine ih lh (tail + 1) disk' (false :: h) (by omega) (hr.snoc ?_)
      simp [Booting.step, hget, disk']
  exact hinstall _ d.head 0 d [false] rfl (.snoc .nil rfl)

/-- Recovery gives the state after the first transactions, all those that were finished among
them, and with no operation in part. -/
theorem crash_safe {h : List (Task × Act α)} {d : Disk α}
    (hr : Run (Step mkfs) (State.boot blocks) h s) (hd : Recovers mkfs s.disk d) :
    ∃ k, s.ledger.finished ≤ k ∧ k ≤ s.ledger.past.length ∧
      (∀ b, ¬ mkfs.Log b → d.block b = contents blocks (s.ledger.past.take k) b) ∧
      ∀ o, Whole (s.ledger.past ++ [s.ledger.now]) k o := by
  have hsound : Sound mkfs blocks s :=
    hr.invariant (fun _ s => Sound mkfs blocks s) (sound_boot blocks) fun _ _ _ _ _ hs hstep =>
      hs.step (Nat.le_refl NBUF) (step_case hstep)
  obtain ⟨k, hfin, hle, hstands⟩ := hsound.stands
  exact ⟨k, hfin, hle, hstands.recovers hd, hsound.ops.separate.whole k⟩

def setting (p : Task) (b n : Nat) : List (Task × Act Bool) :=
  (List.range n).flatMap fun i => [(p, .write (b + i) true), (p, .insert)]

/-- A crash in the middle of `install_trans`. -/
theorem crash_safe_install : ∃ h s d,
    Run (Step mkfs) (State.boot fun _ => false) h s ∧
      decide (s.pc 0 = .installing 1 ∧ s.disk.block 100 = true ∧ s.disk.block 101 = false) = true ∧
      Recovers mkfs s.disk d ∧ ∃ k, k ≤ s.ledger.past.length ∧ ∀ b, ¬ mkfs.Log b →
        d.block b = contents (fun _ => false) (s.ledger.past.take k) b := by
  have hrun : ∃ h s, Run (Step mkfs) (State.boot fun _ => false) h s ∧
      decide (s.pc 0 = .installing 1 ∧ s.disk.block 100 = true ∧ s.disk.block 101 = false) = true :=
    Run.exists_of_steps _ (step_of_act mkfs)
      ([(0, Act.beginOp)] ++ setting 0 100 2 ++ [(0, Act.endOp)] ++
        List.replicate 4 (0, Act.commit)) (by decide +kernel)
  obtain ⟨h, s, hr, hs⟩ := hrun
  obtain ⟨d, hd⟩ := exists_recovers mkfs s.disk
  obtain ⟨k, -, hle, hblocks, -⟩ := crash_safe hr hd
  exact ⟨h, s, d, hr, hs, hd, k, hle, hblocks⟩

end ThreadKernel.Journal
