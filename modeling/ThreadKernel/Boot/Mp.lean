import ThreadKernel.Library.Bytes

/-! The walk of `mpinit` over the multiprocessor configuration table.

`conf` is the memory from the table on; its header and its entries are the firmware's. The
`default` of the switch leaves the switch only: the walk is then where it was, and the
panic it was meant for is behind the loop. -/
namespace ThreadKernel.Mp

open Bytes

abbrev NCPU : Nat := 8
abbrev MPPROC : Byte := 0
abbrev MPBUS : Byte := 1
abbrev MPIOAPIC : Byte := 2
abbrev MPIOINTR : Byte := 3
abbrev MPLINTR : Byte := 4

/-- `sizeof(struct mpconf)` -/
abbrev HEADER : Nat := 44

abbrev Table := Nat → Byte

/-- `sum` of `len` bytes; the `int` comes back as a `uchar`. -/
def sum (conf : Table) (len : Nat) : Byte := (List.range len).foldl (fun x i => x + conf i) 0

/-- `conf->length` -/
def length (conf : Table) : Nat := (conf 4).toNat + 256 * (conf 5).toNat

/-- The tests of `mpconfig` on a table it has found. -/
def mpconfig (conf : Table) : Bool :=
  (List.range 4).map conf == [0x50, 0x43, 0x4D, 0x50] && (conf 6 == 1 || conf 6 == 4) &&
    sum conf (length conf) == 0

/-- `cpus` holds the `apicid` of the first `ncpu` entries of the source's array. -/
structure Walk where
  p : Nat := HEADER
  cpus : List Byte := []
  ioapicid : Byte := 0
  ismp : Bool := true
  deriving DecidableEq, Repr

variable (conf : Table)

/-- The body of the loop. -/
def Walk.round (w : Walk) : Walk :=
  if conf w.p = MPPROC then
    {w with
      cpus := if w.cpus.length < NCPU then w.cpus ++ [conf (w.p + 1)] else w.cpus
      p := w.p + 20}
  else if conf w.p = MPIOAPIC then {w with ioapicid := conf (w.p + 1), p := w.p + 8}
  else if conf w.p = MPBUS ∨ conf w.p = MPIOINTR ∨ conf w.p = MPLINTR then {w with p := w.p + 8}
  else {w with ismp := false}

/-- The loop, for as many rounds as there is fuel; `none` is a walk that goes on. -/
def Walk.run : Nat → Walk → Option Walk
  | 0, _ => none
  | k + 1, w => if w.p < length conf then Walk.run k (w.round conf) else some w

inductive Booted where
  /-- `Expect to run on an SMP` -/
  | noTable
  /-- `Didn't find a suitable machine` -/
  | unsuitable
  | ready (cpus : List Byte) (ioapicid : Byte)
  deriving DecidableEq, Repr

def mpinit (fuel : Nat) : Option Booted :=
  if mpconfig conf then
    (Walk.run conf fuel {}).map fun w => if w.ismp then .ready w.cpus w.ioapicid else .unsuitable
  else some .noTable

/-! ### What the table holds -/

/-- The size of an entry, for the types there are. -/
def entrySize (type : Byte) : Option Nat :=
  if type = MPPROC then some 20 else if type.toNat ≤ 4 then some 8 else none

/-- The entries from `p` on, by their places, are of known types up to the end. -/
inductive Entries : Nat → List Nat → Prop
  | done {p} (hp : length conf ≤ p) : Entries p []
  | entry {p k ps} (hp : p < length conf) (hk : entrySize (conf p) = some k)
      (hps : Entries (p + k) ps) : Entries p (p :: ps)

/-- The `apicid`s of the processors among them. -/
def processors (ps : List Nat) : List Byte :=
  (ps.filter fun p => conf p = MPPROC).map fun p => conf (p + 1)

variable {conf} {w w' : Walk} {ps : List Nat} {fuel : Nat}

theorem round_known {k : Nat} (hk : entrySize (conf w.p) = some k) :
    (w.round conf).p = w.p + k ∧ (w.round conf).ismp = w.ismp ∧
      (w.cpus.length ≤ NCPU → (w.round conf).cpus = (w.cpus ++ processors conf [w.p]).take NCPU) := by
  unfold entrySize at hk
  unfold Walk.round
  by_cases hproc : conf w.p = MPPROC
  · rw [if_pos hproc] at hk ⊢
    cases hk
    refine ⟨rfl, rfl, fun hlen => ?_⟩
    simp only [processors, hproc, decide_true, List.filter_cons_of_pos, List.filter_nil, List.map_cons,
      List.map_nil, List.take_append, List.take_of_length_le hlen]
    split
    · rw [List.take_of_length_le (by rw [List.length_singleton]; omega)]
    · rw [show NCPU - w.cpus.length = 0 by omega, List.take_zero, List.append_nil]
  · rw [if_neg hproc] at hk ⊢
    obtain ⟨hle, heq⟩ := Option.ite_none_right_eq_some.mp hk
    cases heq
    have hnone : processors conf [w.p] = [] := by simpa [processors] using hproc
    rw [hnone, List.append_nil]
    split
    · exact ⟨rfl, rfl, fun hlen => (List.take_of_length_le hlen).symm⟩
    · rename_i hio
      have htypes : ∀ x : Byte, x ≠ MPPROC → x ≠ MPIOAPIC → x.toNat ≤ 4 →
          x = MPBUS ∨ x = MPIOINTR ∨ x = MPLINTR := by decide
      rw [if_pos (htypes _ hproc hio hle)]
      exact ⟨rfl, rfl, fun hlen => (List.take_of_length_le hlen).symm⟩

theorem round_unknown (hk : entrySize (conf w.p) = none) : (w.round conf).p = w.p := by
  have htypes : ∀ x : Byte, entrySize x = none →
      x ≠ MPPROC ∧ x ≠ MPIOAPIC ∧ ¬ (x = MPBUS ∨ x = MPIOINTR ∨ x = MPLINTR) := by decide
  obtain ⟨hproc, hio, hother⟩ := htypes _ hk
  rw [Walk.round, if_neg hproc, if_neg hio, if_neg hother]

/-- Over entries of known types the walk ends, with the processors registered in their
order while there is room. -/
theorem run_of_entries (h : Entries conf w.p ps) (hlen : w.cpus.length ≤ NCPU) :
    ∃ w', Walk.run conf (ps.length + 1) w = some w' ∧ w'.ismp = w.ismp ∧
      w'.cpus = (w.cpus ++ processors conf ps).take NCPU := by
  induction ps generalizing w with
  | nil =>
    cases h with | done hp =>
    refine ⟨w, if_neg (Nat.not_lt.mpr hp), rfl, ?_⟩
    rw [show processors conf [] = [] from rfl, List.append_nil, List.take_of_length_le hlen]
  | cons p ps ih =>
    cases h with | entry hp hk hps =>
    obtain ⟨hat, hismp, hcpus⟩ := round_known hk
    obtain ⟨w', hrun, hismp', hcpus'⟩ :=
      ih (hat ▸ hps) (by rw [hcpus hlen]; exact List.length_take_le _ _)
    refine ⟨w', by rw [Walk.run, if_pos hp, List.length_cons, hrun], hismp'.trans hismp, ?_⟩
    have hsplit : processors conf (w.p :: ps) = processors conf [w.p] ++ processors conf ps := by
      simp only [processors, ← List.map_append, ← List.filter_append, List.singleton_append]
    rw [hcpus', hcpus hlen, hsplit, ← List.append_assoc]
    generalize w.cpus ++ processors conf [w.p] = l
    simp only [List.take_append, List.take_take, Nat.min_self, List.length_take]
    congr 2
    omega

/-- A walk that ends has met known types only: a round that does not move is repeated. -/
theorem entries_of_run (h : Walk.run conf fuel w = some w') : ∃ ps, Entries conf w.p ps := by
  induction fuel generalizing w with
  | zero => cases h
  | succ fuel ih =>
    rw [Walk.run] at h
    split at h
    · rename_i hp
      obtain ⟨ps, hps⟩ := ih h
      cases hk : entrySize (conf w.p) with
      | none => exact ⟨ps, round_unknown hk ▸ hps⟩
      | some k => exact ⟨w.p :: ps, .entry hp hk ((round_known hk).1 ▸ hps)⟩
    · rename_i hp
      exact ⟨[], .done (Nat.le_of_not_lt hp)⟩

/-- `mpinit` ends as it should exactly when all the entries of the table are of known
types. -/
theorem mpinit_ends_iff (h : mpconfig conf = true) :
    (∃ fuel b, mpinit conf fuel = some b ∧ (b = .unsuitable ∨ ∃ ps ioapicid, Entries conf HEADER ps ∧
      b = .ready ((processors conf ps).take NCPU) ioapicid)) ↔ ∃ ps, Entries conf HEADER ps := by
  constructor
  · intro ⟨fuel, b, hb, _⟩
    rw [mpinit, if_pos h] at hb
    obtain ⟨w, hw, -⟩ := Option.map_eq_some_iff.mp hb
    exact entries_of_run hw
  · intro ⟨ps, hps⟩
    obtain ⟨w, hw, hismp, hcpus⟩ := run_of_entries (w := {}) hps (Nat.zero_le _)
    refine ⟨ps.length + 1, _, ?_, .inr ⟨ps, w.ioapicid, hps, rfl⟩⟩
    rw [mpinit, if_pos h, hw, Option.map_some, hismp, if_pos rfl, hcpus, List.nil_append]

def table (len checksum : Byte) (entries : List Byte) : Table := fun i =>
  ([0x50, 0x43, 0x4D, 0x50, len, 0, 4, checksum] ++ List.replicate 36 0 ++ entries).getD i 0

/-- One processor, with `apicid` 7. -/
theorem mpinit_ends_one : ∃ fuel b, mpinit (table 64 133 [0, 7]) fuel = some b ∧
    (b = .unsuitable ∨ ∃ ps ioapicid, Entries (table 64 133 [0, 7]) HEADER ps ∧
      b = .ready ((processors (table 64 133 [0, 7]) ps).take NCPU) ioapicid) :=
  (mpinit_ends_iff (by decide +kernel)).mpr
    ⟨[44], .entry (by decide) (by decide : _ = some 20) (.done (by decide))⟩

/-- An entry of type 5: no panic, and no end. -/
theorem mpinit_stays : mpconfig (table 45 154 [5]) = true ∧
    ∀ fuel, mpinit (table 45 154 [5]) fuel = none := by
  have hacc : mpconfig (table 45 154 [5]) = true := by decide +kernel
  refine ⟨hacc, fun fuel => ?_⟩
  rw [mpinit, if_pos hacc, Option.map_eq_none_iff]
  by_contra hne
  obtain ⟨w, hw⟩ := Option.ne_none_iff_exists'.mp hne
  obtain ⟨ps, hps⟩ := entries_of_run hw
  cases hps with
  | done hp => exact absurd hp (by decide)
  | entry hp hk => cases hk

end ThreadKernel.Mp
