import ThreadKernel.Library.Run
import ThreadKernel.Library.Window

/-! The input side of the console.

`consoleintr` is one step, with all the characters that it gets; a part of `consoleread` up
to its end or to `sleep` is one too, and a reader that sleeps may go on at any time. Of what
is typed, the ring keeps the line that is edited and the characters that are committed.

A device says what a character does and what a read gets. The ring is one device, and so is
a queue of committed characters with a line to edit; runs of the first are runs of the
second. -/
namespace ThreadKernel.Console

open Lts Window Function

abbrev INPUT_BUF : Nat := 128

abbrev ctrlP : UInt8 := 16
abbrev ctrlU : UInt8 := 21
abbrev ctrlH : UInt8 := 8
abbrev del : UInt8 := 127
abbrev ctrlD : UInt8 := 4
abbrev newline : UInt8 := 10
abbrev cr : UInt8 := 13

/-! ### Devices and their readers -/

/-- `read x target n` is the loop of `consoleread` with `n` of `target` characters left to
read: what it copies, what is left then, and whether it has to wait. -/
structure Device (I : Type) where
  char : I → UInt8 → I
  read : I → Nat → Nat → I × List UInt8 × Nat × Bool

/-- The reads that sleep, with what they were asked for and what is left. -/
structure State (I T : Type) where
  input : I
  calls : T → Option (Nat × Nat)

inductive Event (T : Type) where
  | intr (cs : List UInt8)
  | read (t : T) (target : Nat) (first : Bool) (bytes : List UInt8) (result : Option Int)
  deriving DecidableEq, Repr

inductive Action (T : Type) where
  | intr (cs : List UInt8)
  | read (t : T) (n : Nat) (killed : Bool)
  | wake (t : T) (killed : Bool)
  deriving DecidableEq, Repr

section
variable {I T : Type} [DecidableEq T] (D : Device I)

/-- `consoleread` has the lock. -/
def State.run (s : State I T) (t : T) (target n : Nat) (first killed : Bool) : State I T × Event T :=
  let r := D.read s.input target n
  let result : Option Int := if r.2.2.2 then if killed then some (-1) else none
    else some (target - r.2.2.1)
  (⟨r.1, update s.calls t (if result.isSome then none else some (target, r.2.2.1))⟩,
    .read t target first r.2.1 result)

def State.step (s : State I T) : Action T → Option (State I T × Event T)
  | .intr cs => some ({s with input := cs.foldl D.char s.input}, .intr cs)
  | .read t n killed => if s.calls t = none then some (s.run D t n n true killed) else none
  | .wake t killed => (s.calls t).map fun c => s.run D t c.1 c.2 false killed

def State.Step (s : State I T) (e : Event T) (s' : State I T) : Prop := ∃ a, s.step D a = some (s', e)

end

/-! ### The ring -/

structure Input where
  buf : Fin INPUT_BUF → UInt8
  r : UInt32
  w : UInt32
  e : UInt32

namespace Input

/-- The loop for `C('U')`; it goes at most from `e` back to `w`. -/
def kill : Nat → Input → Input
  | 0, x => x
  | k + 1, x =>
    if x.e ≠ x.w ∧ x.buf (place INPUT_BUF (x.e - 1)) ≠ newline then kill k {x with e := x.e - 1}
    else x

def insert (x : Input) (c : UInt8) : Input :=
  let y := {x with buf := update x.buf (place INPUT_BUF x.e) c, e := x.e + 1}
  if c = newline ∨ c = ctrlD ∨ y.e = y.r + 128 then {y with w := y.e} else y

/-- The loop body of `consoleintr`. -/
def char (x : Input) (c : UInt8) : Input :=
  if c = ctrlP then x
  else if c = ctrlU then x.kill (x.e - x.w).toNat
  else if c = ctrlH ∨ c = del then if x.e ≠ x.w then {x with e := x.e - 1} else x
  else if c ≠ 0 ∧ x.e - x.r < 128 then x.insert (if c = cr then newline else c)
  else x

def read (x : Input) (target : Nat) : Nat → Input × List UInt8 × Nat × Bool
  | 0 => (x, [], 0, false)
  | n + 1 =>
    if x.r = x.w then (x, [], n + 1, true)
    else
      let c := x.buf (place INPUT_BUF x.r)
      let y := {x with r := x.r + 1}
      if c = ctrlD then (if n + 1 < target then {y with r := y.r - 1} else y, [], n + 1, false)
      else if c = newline then (y, [c], n, false)
      else
        let r := y.read target n
        (r.1, c :: r.2.1, r.2.2)

end Input

def ring : Device Input := ⟨Input.char, Input.read⟩

def boot (T : Type) (buf : Fin INPUT_BUF → UInt8) : State Input T := ⟨⟨buf, 0, 0, 0⟩, fun _ => none⟩

/-! ### The line discipline -/

/-- What has been committed, how much of that has been read, and the line that is edited. -/
structure Line where
  committed : List UInt8
  consumed : Nat
  edit : List UInt8
  deriving DecidableEq, Repr

namespace Line

def queue (l : Line) : List UInt8 := l.committed.drop l.consumed

def commit (l : Line) : Line := ⟨l.committed ++ l.edit, l.consumed, []⟩

def char (l : Line) (c : UInt8) : Line :=
  if c = ctrlP then l
  else if c = ctrlU then {l with edit := []}
  else if c = ctrlH ∨ c = del then {l with edit := l.edit.dropLast}
  else if c ≠ 0 ∧ l.queue.length + l.edit.length < INPUT_BUF then
    let c := if c = cr then newline else c
    let l' := {l with edit := l.edit ++ [c]}
    if c = newline ∨ c = ctrlD ∨ l.queue.length + l'.edit.length = INPUT_BUF then l'.commit else l'
  else l

/-- How many characters of the queue a read takes, what it copies of them, what is left to
read and whether it has to wait. -/
def reads (target : Nat) : Nat → List UInt8 → Nat × List UInt8 × Nat × Bool
  | 0, _ => (0, [], 0, false)
  | n + 1, [] => (0, [], n + 1, true)
  | n + 1, c :: q =>
    if c = ctrlD then (if n + 1 < target then 0 else 1, [], n + 1, false)
    else if c = newline then (1, [c], n, false)
    else
      let r := reads target n q
      (r.1 + 1, c :: r.2.1, r.2.2)

def read (l : Line) (target n : Nat) : Line × List UInt8 × Nat × Bool :=
  let r := reads target n l.queue
  ({l with consumed := l.consumed + r.1}, r.2)

end Line

def discipline : Device Line := ⟨Line.char, Line.read⟩

def blank (T : Type) : State Line T := ⟨⟨[], 0, []⟩, fun _ => none⟩

/-! ### The ring holds the queue and the line -/

structure Rep (x : Input) (l : Line) : Prop where
  r : x.r = counter l.consumed
  w : x.w = counter l.committed.length
  e : x.e = counter (l.committed.length + l.edit.length)
  holds : Holds x.buf l.consumed (l.queue ++ l.edit)
  inside : l.consumed ≤ l.committed.length
  fits : l.queue.length + l.edit.length ≤ INPUT_BUF
  plain : newline ∉ l.edit

variable {x : Input} {l : Line} {c : UInt8}

theorem Line.length_queue (l : Line) : l.queue.length = l.committed.length - l.consumed :=
  List.length_drop

namespace Rep

section

variable (h : Rep x l)
include h

theorem fits' : l.committed.length - l.consumed + l.edit.length ≤ 128 := by
  have hfits := h.fits
  rw [l.length_queue] at hfits
  exact hfits

theorem edit_sub : (x.e - x.w).toNat = l.edit.length := by
  have hfits := h.fits'
  rw [h.e, h.w, counter_sub (by omega), Nat.add_sub_cancel_left, toNat_counter (by omega)]

theorem queue_sub : (x.w - x.r).toNat = l.queue.length := by
  have hfits := h.fits'
  have hinside := h.inside
  rw [h.w, h.r, counter_sub hinside, toNat_counter (by omega), l.length_queue]

theorem all_sub : (x.e - x.r).toNat = l.queue.length + l.edit.length := by
  have hfits := h.fits'
  have hinside := h.inside
  rw [h.e, h.r, counter_sub (by omega), toNat_counter (by omega), l.length_queue]
  omega

theorem edit_nil_iff : x.e = x.w ↔ l.edit = [] := by
  have hfits := h.fits'
  rw [h.e, h.w, counter_inj (by omega) (by omega), ← List.length_eq_zero_iff]
  omega

theorem queue_nil_iff : x.r = x.w ↔ l.queue = [] := by
  have hfits := h.fits'
  have hinside := h.inside
  rw [h.r, h.w, eq_comm, counter_inj hinside (by omega), ← List.length_eq_zero_iff, l.length_queue]
  omega

theorem erase (hne : l.edit ≠ []) : Rep {x with e := x.e - 1} {l with edit := l.edit.dropLast} where
  r := h.r
  w := h.w
  e := by
    have hpos := List.length_pos_iff.mpr hne
    rw [h.e, List.length_dropLast, ← Nat.add_sub_assoc hpos]
    exact counter_sub (Nat.le_add_left_of_le hpos)
  holds := by
    have hholds := h.holds
    rw [← List.dropLast_append_getLast hne, ← List.append_assoc] at hholds
    exact (holds_append.mp hholds).1
  inside := h.inside
  fits := by
    have hfits := h.fits
    show l.queue.length + _ ≤ _
    rw [List.length_dropLast]
    omega
  plain := fun hmem => h.plain (List.dropLast_subset _ hmem)

theorem last (hne : l.edit ≠ []) : x.buf (place INPUT_BUF (x.e - 1)) = l.edit.getLast hne := by
  have hpos := List.length_pos_iff.mpr hne
  have hinside := h.inside
  have hholds := h.holds
  rw [← List.dropLast_append_getLast hne, ← List.append_assoc] at hholds
  have hlast := (holds_cons.mp (holds_append.mp hholds).2).1
  have heq : x.e - 1 = counter (l.consumed + (l.queue ++ l.edit.dropLast).length) := by
    rw [h.e, List.length_append, List.length_dropLast, l.length_queue,
      show l.consumed + (l.committed.length - l.consumed + (l.edit.length - 1)) =
        l.committed.length + l.edit.length - 1 by omega]
    exact counter_sub (Nat.le_add_left_of_le hpos)
  rw [heq, place_counter (by decide)]
  exact hlast

theorem kill : Rep (x.kill l.edit.length) {l with edit := []} := by
  induction hk : l.edit.length generalizing x l with
  | zero =>
    have hnil := List.length_eq_zero_iff.mp hk
    obtain ⟨committed, consumed, edit⟩ := l
    cases hnil
    exact h
  | succ k ih =>
    have hne : l.edit ≠ [] := by
      intro hnil
      rw [hnil] at hk
      cases hk
    have hgo : x.e ≠ x.w ∧ x.buf (place INPUT_BUF (x.e - 1)) ≠ newline := by
      refine ⟨fun heq => hne (h.edit_nil_iff.mp heq), ?_⟩
      rw [h.last hne]
      intro heq
      exact h.plain (heq ▸ List.getLast_mem hne)
    simp only [Input.kill, if_pos hgo]
    have hlen : l.edit.dropLast.length = k := by rw [List.length_dropLast, hk, Nat.add_sub_cancel]
    have hrest := ih (h.erase hne) hlen
    exact hrest

section
variable (hlt : l.queue.length + l.edit.length < INPUT_BUF)
include hlt

theorem holds_push (c : UInt8) :
    Holds (update x.buf (place INPUT_BUF x.e) c) l.consumed
      (l.queue ++ (l.edit ++ [c])) := by
  have hinside := h.inside
  have hpush := h.holds.push (by rw [List.length_append]; exact hlt) c
  have hplace : l.consumed + (l.queue ++ l.edit).length = l.committed.length + l.edit.length := by
    rw [List.length_append, l.length_queue]
    omega
  rw [hplace, ← place_counter (by decide), ← h.e, List.append_assoc] at hpush
  exact hpush

theorem append (hc : c ≠ newline) :
    Rep {x with buf := update x.buf (place INPUT_BUF x.e) c, e := x.e + 1}
      {l with edit := l.edit ++ [c]} where
  r := h.r
  w := h.w
  e := by
    rw [h.e, List.length_append, ← Nat.add_assoc]
    exact counter_add _ 1
  holds := h.holds_push hlt c
  inside := h.inside
  fits := by
    rw [List.length_append]
    exact hlt
  plain := by
    simp only [List.mem_append, List.mem_singleton, not_or]
    exact ⟨h.plain, Ne.symm hc⟩

theorem commit (c : UInt8) :
    Rep {x with buf := update x.buf (place INPUT_BUF x.e) c, e := x.e + 1, w := x.e + 1}
      ({l with edit := l.edit ++ [c]} : Line).commit := by
  have hinside := h.inside
  have hqueue : ({l with edit := l.edit ++ [c]} : Line).commit.queue = l.queue ++ (l.edit ++ [c]) :=
    List.drop_append_of_le_length hinside
  have hnext : x.e + 1 = counter (l.committed ++ (l.edit ++ [c])).length := by
    rw [h.e, List.length_append, List.length_append, ← Nat.add_assoc]
    exact counter_add _ 1
  refine ⟨h.r, hnext, hnext, ?_, ?_, ?_, nofun⟩
  · rw [hqueue]
    simp only [Line.commit, List.append_nil]
    exact h.holds_push hlt c
  · simp only [Line.commit, List.length_append]
    omega
  · rw [hqueue]
    simp only [Line.commit, List.length_append, List.length_nil, List.length_singleton]
    omega

theorem insert (c : UInt8) :
    Rep (x.insert c) (if c = newline ∨ c = ctrlD ∨
      l.queue.length + (l.edit ++ [c]).length = INPUT_BUF then
        ({l with edit := l.edit ++ [c]} : Line).commit else {l with edit := l.edit ++ [c]}) := by
  have hfull : x.e + 1 = x.r + 128 ↔ l.queue.length + (l.edit ++ [c]).length = INPUT_BUF := by
    have hinside := h.inside
    have hlen := l.length_queue
    have hadd : x.r + 128 = counter (l.consumed + 128) := by
      rw [h.r]
      exact counter_add _ 128
    have hnext : x.e + 1 = counter (l.committed.length + l.edit.length + 1) := by
      rw [h.e]
      exact counter_add _ 1
    have hlt : l.queue.length + l.edit.length < 128 := hlt
    rw [hadd, hnext, eq_comm, counter_inj (by omega) (by omega), List.length_append,
      List.length_singleton]
    show _ ↔ _ = 128
    omega
  simp only [Input.insert, hfull]
  split
  · exact h.commit hlt c
  · rename_i hnot
    exact h.append hlt fun hc => hnot (.inl hc)

end

theorem char (c : UInt8) : Rep (x.char c) (l.char c) := by
  unfold Input.char Line.char
  split
  · exact h
  split
  · rw [h.edit_sub]
    exact h.kill
  split
  · by_cases hne : x.e ≠ x.w
    · rw [if_pos hne]
      exact h.erase fun hnil => hne (h.edit_nil_iff.mpr hnil)
    · rw [if_neg hne]
      have hnil := h.edit_nil_iff.mp (not_not.mp hne)
      obtain ⟨committed, consumed, edit⟩ := l
      cases hnil
      exact h
  have hroom : x.e - x.r < 128 ↔ l.queue.length + l.edit.length < INPUT_BUF := by
    rw [UInt32.lt_iff_toNat_lt, h.all_sub]
    rfl
  simp only [hroom]
  split
  · rename_i hc
    exact h.insert hc.2 _
  · exact h

end

/-! ### Reading -/

variable {q : List UInt8}

theorem first (h : Rep x l) (hq : l.queue = c :: q) : x.buf (place INPUT_BUF x.r) = c := by
  have hholds := h.holds
  rw [hq, List.cons_append] at hholds
  rw [h.r, place_counter (by decide)]
  exact (holds_cons.mp hholds).1

theorem queue_take (hq : l.queue = c :: q) :
    ({l with consumed := l.consumed + 1} : Line).queue = q := by
  unfold Line.queue at hq ⊢
  rw [← List.drop_drop, hq]
  rfl

theorem take (h : Rep x l) (hq : l.queue = c :: q) :
    Rep {x with r := x.r + 1} {l with consumed := l.consumed + 1} := by
  have hlen := l.length_queue
  rw [hq, List.length_cons] at hlen
  have hfits := h.fits
  rw [hq, List.length_cons] at hfits
  refine ⟨?_, h.w, h.e, ?_, ?_, ?_, h.plain⟩
  · show x.r + 1 = _
    rw [h.r]
    exact counter_add _ 1
  · have hholds := h.holds
    rw [hq, List.cons_append] at hholds
    rw [queue_take hq]
    exact (holds_cons.mp hholds).2
  · show l.consumed + 1 ≤ l.committed.length
    omega
  · rw [queue_take hq]
    show q.length + l.edit.length ≤ _
    omega

/-- By induction on what is left to read. -/
theorem read (h : Rep x l) (target n : Nat) :
    Rep (x.read target n).1 (l.read target n).1 ∧ (x.read target n).2 = (l.read target n).2 := by
  induction n generalizing x l with
  | zero => exact ⟨h, rfl⟩
  | succ n ih =>
    cases hq : l.queue with
    | nil =>
      have hempty := h.queue_nil_iff.mpr hq
      simp only [Input.read, if_pos hempty, Line.read, hq, Line.reads, Nat.add_zero]
      exact ⟨h, trivial⟩
    | cons c q =>
      have hne : ¬ x.r = x.w := by
        intro heq
        rw [h.queue_nil_iff.mp heq] at hq
        cases hq
      simp only [Input.read, if_neg hne, h.first hq, Line.read, hq, Line.reads]
      by_cases hd : c = ctrlD
      · simp only [if_pos hd]
        by_cases hpart : n + 1 < target
        · simp only [if_pos hpart, Nat.add_zero]
          have hback : x.r + 1 - 1 = x.r := UInt32.add_sub_cancel ..
          rw [hback]
          exact ⟨h, trivial⟩
        · simp only [if_neg hpart]
          exact ⟨h.take hq, trivial⟩
      · simp only [if_neg hd]
        by_cases hn : c = newline
        · simp only [if_pos hn]
          exact ⟨h.take hq, trivial⟩
        · simp only [if_neg hn]
          obtain ⟨hrep, hout⟩ := ih (h.take hq)
          simp only [Line.read, queue_take hq] at hrep hout
          rw [hout]
          refine ⟨?_, rfl⟩
          rw [Nat.add_assoc, Nat.add_comm 1] at hrep
          exact hrep

end Rep

/-! ### Runs -/

section

variable {I T : Type} [DecidableEq T] {D : Device I} {s s' : State I T} {e : Event T}

/-- A step is an interrupt, or a part of a read, which begins or goes on. -/
theorem step_cases (hs : s.Step D e s') :
    (∃ cs, e = .intr cs ∧ s' = {s with input := cs.foldl D.char s.input}) ∨
    ∃ t target n first killed, (s', e) = s.run D t target n first killed ∧
      ((first = true ∧ n = target ∧ s.calls t = none) ∨
        (first = false ∧ s.calls t = some (target, n))) := by
  obtain ⟨a, ha⟩ := hs
  cases a with
  | intr cs =>
    cases ha
    exact .inl ⟨cs, rfl, rfl⟩
  | read t n killed =>
    simp only [State.step] at ha
    split at ha
    · rename_i hidle
      exact .inr ⟨t, n, n, true, killed, (Option.some.inj ha).symm, .inl ⟨rfl, rfl, hidle⟩⟩
    · cases ha
  | wake t killed =>
    obtain ⟨⟨target, n⟩, hc, hrun⟩ := Option.map_eq_some_iff.mp ha
    exact .inr ⟨t, target, n, false, killed, hrun.symm, .inr ⟨rfl, hc⟩⟩

end

variable {T : Type} [DecidableEq T] {s s' : State Input T} {L L' : State Line T} {e : Event T}
  {h : List (Event T)} {buf : Fin INPUT_BUF → UInt8}

theorem Rep.intr (hx : Rep x l) (cs : List UInt8) : Rep (cs.foldl ring.char x) (cs.foldl discipline.char l) := by
  induction cs generalizing x l with
  | nil => exact hx
  | cons c cs ih => exact ih (hx.char c)

structure Refines (s : State Input T) (L : State Line T) : Prop where
  rep : Rep s.input L.input
  calls : s.calls = L.calls

theorem Refines.run (hR : Refines s L) (t : T) (target n : Nat) (first killed : Bool) :
    (s.run ring t target n first killed).2 = (L.run discipline t target n first killed).2 ∧
      Refines (s.run ring t target n first killed).1 (L.run discipline t target n first killed).1 := by
  obtain ⟨hrep, hout⟩ := hR.rep.read target n
  have hout : (ring.read s.input target n).2 = (discipline.read L.input target n).2 := hout
  simp only [State.run, hout, hR.calls]
  exact ⟨trivial, hrep, rfl⟩

theorem Refines.step (hR : Refines s L) (hs : s.Step ring e s') :
    ∃ L', L.Step discipline e L' ∧ Refines s' L' := by
  rcases step_cases hs with ⟨cs, rfl, rfl⟩ | ⟨t, target, n, first, killed, hrun, hc⟩
  · exact ⟨{L with input := cs.foldl discipline.char L.input}, ⟨.intr cs, rfl⟩, hR.rep.intr cs, hR.calls⟩
  · obtain ⟨hevent, hR'⟩ := hR.run t target n first killed
    rw [← hrun] at hevent hR'
    refine ⟨_, ?_, hR'⟩
    rcases hc with ⟨rfl, rfl, hidle⟩ | ⟨rfl, hcall⟩
    · refine ⟨.read t n killed, ?_⟩
      rw [hR.calls] at hidle
      simp only [State.step, if_pos hidle, Option.some.injEq, Prod.ext_iff]
      exact ⟨trivial, hevent.symm⟩
    · refine ⟨.wake t killed, ?_⟩
      rw [hR.calls] at hcall
      simp only [State.step, hcall, Option.map_some, Option.some.injEq, Prod.ext_iff]
      exact ⟨trivial, hevent.symm⟩

/-! ### What readers get -/

/-- The characters that readers have got, oldest first. -/
def delivered : List (Event T) → List UInt8
  | [] => []
  | .intr _ :: h => delivered h
  | .read _ _ _ bytes _ :: h => delivered h ++ bytes

namespace Line

theorem reads_bytes (target n : Nat) (q : List UInt8) :
    (reads target n q).1 ≤ q.length ∧
      (reads target n q).2.1 = (q.take (reads target n q).1).filter (· ≠ ctrlD) := by
  induction n generalizing q with
  | zero => exact ⟨Nat.zero_le _, rfl⟩
  | succ n ih =>
    cases q with
    | nil => exact ⟨Nat.zero_le _, rfl⟩
    | cons c q =>
      obtain ⟨hle, hbytes⟩ := ih q
      simp only [reads]
      split
      · rename_i hc
        subst hc
        split <;> simp
      · rename_i hc
        split
        · rename_i hn
          subst hn
          exact ⟨Nat.succ_le_succ (Nat.zero_le _), rfl⟩
        · simp only [List.length_cons, List.take_succ_cons, hbytes]
          refine ⟨by omega, ?_⟩
          rw [List.filter_cons_of_pos (by simpa using hc)]

theorem char_committed (l : Line) (c : UInt8) :
    l.committed <+: (l.char c).committed ∧ (l.char c).consumed = l.consumed := by
  unfold char
  split
  · exact ⟨List.prefix_refl _, rfl⟩
  split
  · exact ⟨List.prefix_refl _, rfl⟩
  split
  · exact ⟨List.prefix_refl _, rfl⟩
  split
  · dsimp only
    generalize (if c = cr then newline else c) = c'
    split
    · exact ⟨List.prefix_append _ _, rfl⟩
    · exact ⟨List.prefix_refl _, rfl⟩
  · exact ⟨List.prefix_refl _, rfl⟩

theorem intr_committed (l : Line) (cs : List UInt8) :
    l.committed <+: (cs.foldl discipline.char l).committed ∧
      (cs.foldl discipline.char l).consumed = l.consumed := by
  induction cs generalizing l with
  | nil => exact ⟨List.prefix_refl _, rfl⟩
  | cons c cs ih =>
    obtain ⟨hone, hconsumed⟩ := l.char_committed c
    obtain ⟨hrest, hsame⟩ := ih (l.char c)
    exact ⟨hone.trans hrest, hsame.trans hconsumed⟩

end Line

/-- Readers have got what has been read of the committed characters. -/
structure Got (h : List (Event T)) (L : State Line T) : Prop where
  inside : L.input.consumed ≤ L.input.committed.length
  got : delivered h = (L.input.committed.take L.input.consumed).filter (· ≠ ctrlD)

theorem Got.step (hG : Got h L) (hs : L.Step discipline e L') : Got (e :: h) L' := by
  rcases step_cases hs with ⟨cs, rfl, rfl⟩ | ⟨t, target, n, first, killed, hrun, -⟩
  · obtain ⟨⟨rest, hprefix⟩, hconsumed⟩ := L.input.intr_committed cs
    have hinside := hG.inside
    refine ⟨?_, ?_⟩
    · rw [hconsumed, ← hprefix, List.length_append]
      omega
    · rw [hconsumed, ← hprefix, List.take_append_of_le_length hinside]
      exact hG.got
  · obtain ⟨hle, hbytes⟩ := Line.reads_bytes target n L.input.queue
    have hinside := hG.inside
    rw [L.input.length_queue] at hle
    obtain ⟨rfl, rfl⟩ := hrun
    refine ⟨?_, ?_⟩
    · show L.input.consumed + (Line.reads target n L.input.queue).1 ≤ L.input.committed.length
      omega
    · show delivered h ++ (Line.reads target n L.input.queue).2.1 =
        (L.input.committed.take (L.input.consumed + (Line.reads target n L.input.queue).1)).filter _
      rw [List.take_add, List.filter_append, ← hG.got, hbytes]
      rfl

/-- A read that finds `C('D')` first ends there; if it has got nothing, it takes it. -/
theorem Refines.eof (hR : Refines s L) (hhead : L.input.queue.head? = some ctrlD) (t : T)
    {target n : Nat} (hn : 0 < n) (first killed : Bool) :
    (s.run ring t target n first killed).2 = .read t target first [] (some (target - n)) ∧
      (s.run ring t target n first killed).1.input.r =
        if n < target then s.input.r else s.input.r + 1 := by
  obtain ⟨hevent, hR'⟩ := hR.run t target n first killed
  obtain ⟨q, hq⟩ : ∃ q, L.input.queue = ctrlD :: q := List.head?_eq_some_iff.mp hhead
  obtain ⟨m, rfl⟩ : ∃ m, n = m + 1 := Nat.exists_eq_add_of_lt hn |>.imp fun _ h => by omega
  rw [hevent, hR'.rep.r, hR.rep.r]
  simp only [State.run, discipline, Line.read, hq, Line.reads, if_true]
  refine ⟨rfl, ?_⟩
  split
  · rfl
  · exact (counter_add _ 1).symm

/-- The ring is a queue of committed characters and a line to edit. Readers get the committed
characters in order; one that finds `C('D')` first gets none, and one that has some leaves
it to the next. -/
theorem console_refines (hr : Run (State.Step ring) (boot T buf) h s) :
    ∃ L : State Line T, Run (State.Step discipline) (blank T) h L ∧ s.calls = L.calls ∧
      s.input.r = counter L.input.consumed ∧
      Holds s.input.buf L.input.consumed (L.input.queue ++ L.input.edit) ∧
      (s.input.w - s.input.r).toNat = L.input.queue.length ∧
      (s.input.e - s.input.w).toNat = L.input.edit.length ∧
      (s.input.e - s.input.r).toNat =
        (s.input.w - s.input.r).toNat + (s.input.e - s.input.w).toNat ∧
      (s.input.e - s.input.r).toNat ≤ INPUT_BUF ∧
      delivered h = (L.input.committed.take L.input.consumed).filter (· ≠ ctrlD) ∧
      ∀ t target n first killed, 0 < n → L.input.queue.head? = some ctrlD →
        (s.run ring t target n first killed).2 = .read t target first [] (some (target - n)) ∧
        (s.run ring t target n first killed).1.input.r =
          if n < target then s.input.r else s.input.r + 1 := by
  have hrep : Rep (boot T buf).input (blank T).input :=
    ⟨rfl, rfl, rfl, holds_nil, Nat.le_refl 0, Nat.zero_le _, nofun⟩
  have hsim : ∀ (s : State Input T) (L : State Line T) e s', Refines s L → s.Step ring e s' →
      ∃ L', L.Step discipline e L' ∧ Refines s' L' := fun _ _ _ _ hR hs => hR.step hs
  obtain ⟨L, hrun, hR⟩ := hr.simulate Refines ⟨hrep, rfl⟩ hsim
  have hgot : Got h L := hrun.invariant Got ⟨Nat.le_refl 0, rfl⟩ fun _ _ _ _ _ hG hs => hG.step hs
  have hx := hR.rep
  refine ⟨L, hrun, hR.calls, hx.r, hx.holds, hx.queue_sub, hx.edit_sub, ?_, ?_, hgot.got, ?_⟩
  · rw [hx.all_sub, hx.queue_sub, hx.edit_sub]
  · rw [hx.all_sub]
    exact hx.fits
  · intro t target n first killed hn hhead
    exact hR.eof hhead t hn first killed

/-- Typed: `a`, `b`, backspace, `c`, newline, and `C('D')`; a read gets the line. -/
theorem console_refines_line : ∃ h, ∃ s : State Input (Fin 1),
    Run (State.Step ring) (boot (Fin 1) fun _ => 0) h s ∧ delivered h = [97, 99, 10] ∧
    ∃ L : State Line (Fin 1), Run (State.Step discipline) (blank (Fin 1)) h L ∧
      delivered h = (L.input.committed.take L.input.consumed).filter (· ≠ ctrlD) := by
  have hrun := Run.exists_of_steps (boot (Fin 1) fun _ => 0)
    (fun s a s' e hs => (⟨a, hs⟩ : s.Step ring e s'))
    [.read 0 10 false, .intr [97, 98, 8, 99], .intr [13, 4], .wake 0 false]
    (P := fun h _ => delivered h = [97, 99, 10]) (by decide +kernel)
  obtain ⟨h, s, hr, hs⟩ := hrun
  obtain ⟨L, hL, -, -, -, -, -, -, -, hgot, -⟩ := console_refines hr
  exact ⟨h, s, hr, hs, L, hL, hgot⟩

end ThreadKernel.Console
