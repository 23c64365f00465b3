import ThreadKernel.Disk.Journal

/-! How much room the log has.

`begin_op` lets operations in as long as `LOGSIZE` blocks are enough for all of them. The log
on the disk has `nlog = LOGSIZE` blocks with its header, so it takes one block less, and
`log_write` panics with `LOGSIZE - 1` blocks in the log, even if its own block is among them.

If what is in the log and what the operations may still log is two less than `LOGSIZE`
whenever an operation begins, it stays so, and no `log_write` panics. -/
namespace ThreadKernel.Journal

open Lts

variable {α : Type} {sb : Superblock} {s s' : State α} {p q : Task} {a : Act α} {b : Nat} {x : α}

/-- What the operations in progress may still log. -/
def Ledger.allowance (l : Ledger α) : Nat :=
  (l.running.map fun p => MAXOPBLOCKS - (l.used p).length).sum

/-- An operation logs at most `MAXOPBLOCKS` different blocks. -/
def Modest (s : State α) (l : Task × Act α) : Prop :=
  match l.2 with
  | .write b _ => b ∈ s.ledger.used l.1 ∨ (s.ledger.used l.1).length < MAXOPBLOCKS
  | _ => True

/-- An operation begins only while there are two blocks to spare. -/
def Spare (s : State α) (l : Task × Act α) : Prop :=
  match l.2 with
  | .beginOp => s.lh.length + s.ledger.allowance + MAXOPBLOCKS + 2 ≤ LOGSIZE
  | _ => True

instance (s : State α) (l : Task × Act α) : Decidable (Modest s l) := by
  unfold Modest
  split <;> infer_instance

instance (s : State α) (l : Task × Act α) : Decidable (Spare s l) := by
  unfold Spare
  split <;> infer_instance

/-! ### The allowance -/

theorem allowance_begin (l : Ledger α) (hp : p ∉ l.running) :
    (l.begin p).allowance = MAXOPBLOCKS + l.allowance := by
  have hrest : ∀ q ∈ l.running, (l.begin p).used q = l.used q := by
    intro q hq
    rw [Ledger.begin_used, if_neg]
    rintro rfl
    exact hp hq
  have hself : (l.begin p).used p = [] := by rw [Ledger.begin_used, if_pos rfl]
  have hmap : l.running.map (fun q => MAXOPBLOCKS - ((l.begin p).used q).length) =
      l.running.map fun q => MAXOPBLOCKS - (l.used q).length :=
    List.map_congr_left fun q hq => by rw [hrest q hq]
  show ((p :: l.running).map fun q => MAXOPBLOCKS - ((l.begin p).used q).length).sum = _
  rw [List.map_cons, List.sum_cons, hself, hmap]
  rfl

theorem allowance_leave_le (l : Ledger α) (hp : p ∈ l.running) :
    (l.leave p).allowance ≤ l.allowance := by
  have hsum := List.sum_map_erase (fun q => MAXOPBLOCKS - (l.used q).length) hp
  show ((l.running.erase p).map fun q => MAXOPBLOCKS - (l.used q).length).sum ≤ _
  unfold Ledger.allowance
  omega

/-- Logging a block takes from the allowance of its operation, unless it had logged it. -/
theorem allowance_log (l : Ledger α) (x : α) (hnodup : l.running.Nodup) (hp : p ∈ l.running) :
    (l.log p b x).allowance + (MAXOPBLOCKS - (l.used p).length) =
      l.allowance + (MAXOPBLOCKS - ((l.used p).insert b).length) := by
  have hself : (l.log p b x).used p = (l.used p).insert b := by rw [Ledger.log_used, if_pos rfl]
  have hmap : (l.running.erase p).map (fun q => MAXOPBLOCKS - ((l.log p b x).used q).length) =
      (l.running.erase p).map fun q => MAXOPBLOCKS - (l.used q).length := by
    apply List.map_congr_left
    intro q hq
    have hne : q ≠ p := (hnodup.mem_erase_iff.mp hq).1
    rw [Ledger.log_used, if_neg hne]
  have hnew := List.sum_map_erase (fun q => MAXOPBLOCKS - ((l.log p b x).used q).length) hp
  have hold := List.sum_map_erase (fun q => MAXOPBLOCKS - (l.used q).length) hp
  rw [hmap, hself] at hnew
  show (l.running.map fun q => MAXOPBLOCKS - ((l.log p b x).used q).length).sum + _ = _
  unfold Ledger.allowance
  omega

/-! ### The invariant -/

structure Fits (sb : Superblock) (s : State α) : Prop where
  placed : Placed sb s
  /-- What an operation has logged is in the log until it ends. -/
  used : ∀ p ∈ s.ledger.running, ∀ b ∈ s.ledger.used p, b ∈ s.lh
  pending : ∀ p b x, s.pc p = .logging b x →
    b ∈ s.ledger.used p ∨ (s.ledger.used p).length < MAXOPBLOCKS
  room : s.lh.length + s.ledger.allowance + 2 ≤ LOGSIZE

theorem fits_boot (blocks : Nat → α) : Fits sb (State.boot blocks) :=
  ⟨placed_boot blocks, nofun, nofun, show 0 + 0 + 2 ≤ LOGSIZE by decide⟩

/-- The insertion: a block that is new to the log is new to its operation. -/
theorem Fits.room_insert (h : Fits sb s) (hpc : s.pc p = .logging b x) :
    (if b ∈ s.lh then s.lh else s.lh ++ [b]).length + (s.ledger.log p b x).allowance + 2 ≤ LOGSIZE := by
  have hp : p ∈ s.ledger.running := (h.placed.running p).mpr (by rw [hpc]; rfl)
  have hsum := allowance_log (b := b) s.ledger x h.placed.nodup hp
  have hroom := h.room
  by_cases hused : b ∈ s.ledger.used p
  · rw [List.insert_of_mem hused] at hsum
    rw [if_pos (h.used p hp b hused)]
    omega
  · have hlen : ((s.ledger.used p).insert b).length = (s.ledger.used p).length + 1 := by
      rw [List.insert_of_not_mem hused, List.length_cons]
    have hless := (h.pending p b x hpc).resolve_left hused
    split
    · omega
    · rw [List.length_append, List.length_singleton]
      omega

attribute [local grind] Pc.inOp Ledger.begin Ledger.log Ledger.leave Ledger.close Ledger.finish
  State.setPc State.bwrite

section

variable (h : Fits sb s) (hc : Case sb s p a s')
include h hc

theorem Fits.used_step : ∀ q ∈ s'.ledger.running, ∀ b ∈ s'.ledger.used q, b ∈ s'.lh := by
  have hused := h.used
  have hlast := h.placed.last (p := p)
  cases hc with
  | leave hpc hcom hmore => exact fun q hq b hb => hused q (List.mem_of_mem_erase hq) b hb
  | clear tail hpc hget =>
    intro q hq
    have hnone : s.ledger.running = [] := h.placed.empty (by rw [hpc]; rfl)
    rw [show (s.ledger.finish).running = s.ledger.running from rfl, hnone] at hq
    cases hq
  | _ => grind

theorem Fits.pending_step (hmodest : Modest s (p, a)) : ∀ q b x, s'.pc q = .logging b x →
      b ∈ s'.ledger.used q ∨ (s'.ledger.used q).length < MAXOPBLOCKS := by
  have hpending := h.pending
  unfold Modest at hmodest
  cases hc <;> grind

theorem Fits.room_step (hspare : Spare s (p, a)) :
    s'.lh.length + s'.ledger.allowance + 2 ≤ LOGSIZE := by
  have hroom := h.room
  have hrunning := h.placed.running p
  cases hc with
  | beginOp hpc hcom hfit =>
    have hnot : p ∉ s.ledger.running := by
      rw [hrunning, hpc]
      exact Bool.false_ne_true
    have hsum := allowance_begin s.ledger hnot
    have hspare' : s.lh.length + s.ledger.allowance + MAXOPBLOCKS + 2 ≤ LOGSIZE := hspare
    show s.lh.length + (s.ledger.begin p).allowance + 2 ≤ LOGSIZE
    omega
  | insert b x hpc => exact h.room_insert hpc
  | leave hpc hcom hmore | close hpc hcom hzero hne | skip hpc hcom hzero hempty =>
    have hle := allowance_leave_le s.ledger (hrunning.mpr (by rw [hpc]; rfl))
    show s.lh.length + (s.ledger.leave p).allowance + 2 ≤ LOGSIZE
    omega
  | clear tail hpc hget =>
    show 0 + s.ledger.allowance + 2 ≤ LOGSIZE
    omega
  | _ => exact hroom

theorem Fits.step (hmodest : Modest s (p, a)) (hspare : Spare s (p, a)) : Fits sb s' :=
  ⟨h.placed.step hc, h.used_step hc, h.pending_step hc hmodest, h.room_step hc hspare⟩

end

/-! ### Every run -/

/-- No `log_write` panics, and every block in the log has a block of the log to itself. -/
theorem log_never_overflows {blocks : Nat → α} {h : List (Task × Act α)}
    (hr : Run (Guarded (Step mkfs) fun s l => Modest s l ∧ Spare s l) (State.boot blocks) h s) :
    s.tooBig mkfs = false ∧ s.lh.Nodup ∧ ∀ tail < s.lh.length, mkfs.Log (mkfs.slot tail) := by
  have hfits : Fits mkfs s :=
    hr.invariant (fun _ s => Fits mkfs s) (fits_boot blocks) fun h s l s' _ hfits hstep =>
      hfits.step (step_case hstep.1) hstep.2.1 hstep.2.2
  have hroom := hfits.room
  have hlog : mkfs.nlog = LOGSIZE := rfl
  refine ⟨?_, hfits.placed.lhNodup, fun tail htail => ?_⟩
  · simp only [State.tooBig, hlog, decide_eq_false_iff_not]
    omega
  · simp only [Superblock.Log, Superblock.slot, hlog]
    omega

/-- What a list of actions leads to, if each can be taken. -/
def act (sb : Superblock) (s : State α) (l : Task × Act α) : Option (State α × (Task × Act α)) :=
  (s.step sb l.1 l.2).map fun s' => (s', l)

theorem step_of_act (sb : Superblock) (s : State α) (l : Task × Act α) (s' : State α)
    (l' : Task × Act α) (h : act sb s l = some (s', l')) : Step sb s l' s' := by
  obtain ⟨s₁, hs, heq⟩ := Option.map_eq_some_iff.mp h
  cases heq
  exact hs

def logging (p : Task) (b n : Nat) : List (Task × Act Unit) :=
  (List.range n).flatMap fun i => [(p, .write (b + i) ()), (p, .insert)]

/-- Two operations at once, of ten blocks each. -/
theorem log_never_overflows_two : ∃ h s,
    Run (Guarded (Step mkfs) fun s l => Modest s l ∧ Spare s l) (State.boot fun _ => ()) h s ∧
      decide (s.lh.length = 20) = true ∧ s.tooBig mkfs = false := by
  have hrun : ∃ h s,
      Run (Guarded (Step mkfs) fun s l => Modest s l ∧ Spare s l) (State.boot fun _ => ()) h s ∧
        decide (s.lh.length = 20) = true :=
    Run.exists_of_trace (step_of_act mkfs)
      ([(0, Act.beginOp), (1, .beginOp)] ++ logging 0 100 10 ++ logging 1 200 10) (by decide +kernel)
  obtain ⟨h, s, hr, hlen⟩ := hrun
  exact ⟨h, s, hr, hlen, (log_never_overflows hr).1⟩

/-- Three operations at once, each of ten blocks: the last block of the third is refused. -/
theorem third_operation_panics : ∃ h s,
    Run (Guarded (Step mkfs) Modest) (State.boot fun _ => ()) h s ∧
      decide (s.pc 2 = .op ∧ (s.ledger.used 2).length < MAXOPBLOCKS ∧ s.tooBig mkfs = true) = true :=
  Run.exists_of_trace (step_of_act mkfs)
    ([(0, Act.beginOp), (1, .beginOp), (2, .beginOp)] ++ logging 0 100 10 ++ logging 1 200 10 ++
      logging 2 300 9) (by decide +kernel)

/-- While a task commits, no operation is in progress and nobody else commits. -/
theorem commit_alone {blocks : Nat → α} {h : List (Task × Act α)}
    (hr : Run (Step sb) (State.boot blocks) h s) (hp : (s.pc p).commits = true) (q : Task) :
    (s.pc q).inOp = false ∧ ((s.pc q).commits = true → q = p) := by
  have hplaced : Placed sb s := hr.invariant (fun _ s => Placed sb s) (placed_boot blocks)
    fun _ _ _ _ _ hplaced hstep => hplaced.step (step_case hstep)
  have hrunning := hplaced.running q
  rw [hplaced.empty hp] at hrunning
  exact ⟨by simpa using hrunning, fun hq => hplaced.one q p hq hp⟩

/-- The last of two operations to end commits. -/
theorem commit_alone_last : ∃ h s, Run (Step mkfs) (State.boot fun _ => ()) h s ∧
    (s.pc 0).commits = true ∧ (s.pc 1).inOp = false := by
  obtain ⟨h, s, hr, hp⟩ := Run.exists_of_steps (State.boot fun _ => ()) (step_of_act mkfs)
    ([(0, .beginOp), (1, .beginOp)] ++ logging 0 100 1 ++ [(1, .endOp), (0, .endOp)])
    (P := fun _ s => (s.pc 0).commits) (by decide +kernel)
  exact ⟨h, s, hr, hp, (commit_alone hr hp 1).1⟩

end ThreadKernel.Journal
