import ThreadKernel.Library.Run
import ThreadKernel.Library.Window

/-! Pipes.

A step is what a call does from getting the pipe's lock to giving it up, at its end or in
`sleep`. A thread that sleeps may go on at any time: nothing is used of when `wakeup` is
called.

The last `pipeclose` frees the page of the pipe, and a `pipealloc` may get it. A call does not
keep its file open, and the threads of a process share the files: another thread may close
both ends under a call that sleeps, which then goes on in whatever pipe the page has become.
Until it is one again the call spins, as `kfree` has put the link to the next free page where
the lock is. The pipes of a page are numbered, and a call has the number of the one it was
made on.

The label of a step says what went into the pipe and what came out. As long as no pipe is
freed with a call inside, the bytes that have been stored in a pipe, in the order in which
they were, are those that have been taken and then those in the buffer. -/
namespace ThreadKernel.Pipes

open Lts Window Function

abbrev PIPESIZE : Nat := 512

structure Pipe where
  data : Fin PIPESIZE → UInt8
  nread : UInt32
  nwrite : UInt32
  readopen : Bool
  writeopen : Bool

namespace Pipe

/-- `p->data[p->nwrite++ % PIPESIZE] = b` -/
def put (p : Pipe) (b : UInt8) : Pipe :=
  {p with data := update p.data (place PIPESIZE p.nwrite) b, nwrite := p.nwrite + 1}

/-- The loop of `pipewrite`, to its end or until the pipe is full, with the number of bytes
stored. -/
def fill (p : Pipe) : List UInt8 → Pipe × Nat
  | [] => (p, 0)
  | b :: bs =>
    if p.nwrite = p.nread + 512 then (p, 0)
    else
      let r := (p.put b).fill bs
      (r.1, r.2 + 1)

/-- The loop of `piperead`, with the bytes it copies. -/
def drain (p : Pipe) : Nat → Pipe × List UInt8
  | 0 => (p, [])
  | n + 1 =>
    if p.nread = p.nwrite then (p, [])
    else
      let r := ({p with nread := p.nread + 1} : Pipe).drain n
      (r.1, p.data (place PIPESIZE p.nread) :: r.2)

/-- `pipewrite` from byte `i` on: to which byte it gets, and what it returns, if it does. -/
def pipewrite (p : Pipe) (addr : List UInt8) (i : Nat) (killed : Bool) : Pipe × Nat × Option Int :=
  let r := p.fill (addr.drop i)
  if i + r.2 = addr.length then (r.1, i + r.2, some addr.length)
  else if r.1.readopen = false ∨ killed = true then (r.1, i + r.2, some (-1))
  else (r.1, i + r.2, none)

/-- `piperead`: the bytes it copies, and what it returns, if it does. -/
def piperead (p : Pipe) (n : Nat) (killed : Bool) : Pipe × List UInt8 × Option Int :=
  if p.nread = p.nwrite ∧ p.writeopen = true then
    if killed then (p, [], some (-1)) else (p, [], none)
  else
    let r := p.drain n
    (r.1, r.2, some r.2.length)

def pipeclose (p : Pipe) (writable : Bool) : Pipe :=
  if writable then {p with writeopen := false} else {p with readopen := false}

end Pipe

inductive Call where
  | write (addr : List UInt8)
  | read (n : Nat)
  deriving DecidableEq, Repr

structure State (T : Type) where
  pipe : Pipe
  /-- Its number. -/
  gen : Nat
  /-- The calls that sleep: the pipe each was made on, and the byte a `pipewrite` has got to. -/
  calls : T → Option (Nat × Call × Nat)
  freed : Bool

inductive Event (T : Type) where
  | section (t : T) (gen : Nat) (call : Call) (first : Bool) (stored taken : List UInt8)
    (result : Option Int)
  | close (writable : Bool)
  | pipealloc
  deriving DecidableEq, Repr

inductive Action (T : Type) where
  | call (t : T) (call : Call) (killed : Bool)
  | wake (t : T) (killed : Bool)
  | close (writable : Bool)
  /-- The page is a pipe again, with what is in it. -/
  | pipealloc (data : Fin PIPESIZE → UInt8)

/-- What is in the page is left as it is. -/
def pipealloc (data : Fin PIPESIZE → UInt8) : Pipe := ⟨data, 0, 0, true, true⟩

section
variable {T : Type} [DecidableEq T]

/-- Thread `t` has the lock, in a call on pipe `n` that is at byte `i`. -/
def State.run (s : State T) (t : T) (n : Nat) (first killed : Bool) (i : Nat) :
    Call → State T × Event T
  | .write addr =>
    let r := s.pipe.pipewrite addr i killed
    ({s with pipe := r.1, calls := update s.calls t (if r.2.2.isSome then none
        else some (n, .write addr, r.2.1))},
      .section t n (.write addr) first ((addr.drop i).take (r.2.1 - i)) [] r.2.2)
  | .read k =>
    let r := s.pipe.piperead k killed
    ({s with pipe := r.1, calls := update s.calls t (if r.2.2.isSome then none
        else some (n, .read k, i))},
      .section t n (.read k) first [] r.2.1 r.2.2)

def State.step (s : State T) : Action T → Option (State T × Event T)
  | .call t c killed =>
    if s.freed = false ∧ s.calls t = none then some (s.run t s.gen true killed 0 c) else none
  | .wake t killed =>
    if s.freed then none
    else (s.calls t).map fun c => s.run t c.1 false killed c.2.2 c.2.1
  | .close writable =>
    let p := s.pipe.pipeclose writable
    if s.freed then none
    else some ({s with pipe := p, freed := !p.readopen && !p.writeopen}, .close writable)
  | .pipealloc data =>
    if s.freed then
      some ({s with pipe := Pipes.pipealloc data, gen := s.gen + 1, freed := false}, .pipealloc)
    else none

def State.Step (s : State T) (e : Event T) (s' : State T) : Prop := ∃ a, s.step a = some (s', e)

/-- No call is inside a pipe that is freed. -/
def State.Left (s : State T) (e : Event T) : Prop :=
  ∀ writable, e = .close writable → (s.pipe.pipeclose writable).readopen = false →
    (s.pipe.pipeclose writable).writeopen = false → ∀ t, s.calls t = none

instance [Fintype T] (s : State T) (e : Event T) : Decidable (s.Left e) :=
  inferInstanceAs (Decidable (∀ _, _ → _))

omit [DecidableEq T] in
def start (data : Fin PIPESIZE → UInt8) : State T := ⟨pipealloc data, 0, fun _ => none, false⟩

end

/-! ### What has gone in and come out -/

section
variable {T : Type}

variable (n : Nat)

def Event.stored : Event T → List UInt8
  | .section _ gen _ _ stored _ _ => if gen = n then stored else []
  | .close _ | .pipealloc => []

def Event.taken : Event T → List UInt8
  | .section _ gen _ _ _ taken _ => if gen = n then taken else []
  | .close _ | .pipealloc => []

/-- The bytes that calls on pipe `n` have stored, oldest first. -/
def stored : List (Event T) → List UInt8
  | [] => []
  | e :: h => stored h ++ e.stored n

/-- The bytes that calls on it have returned. -/
def taken : List (Event T) → List UInt8
  | [] => []
  | e :: h => taken h ++ e.taken n

/-- The bytes that `t` has stored since it made its last call. -/
def storedBy [DecidableEq T] (t : T) : List (Event T) → List UInt8
  | [] => []
  | .section q _ _ first stored _ _ :: h =>
    if q = t then if first then stored else storedBy t h ++ stored else storedBy t h
  | .close _ :: h | .pipealloc :: h => storedBy t h

end

/-! ### The loops -/

/-- So many bytes have been read, and `l` is in the buffer. -/
structure Pipe.Has (p : Pipe) (r : Nat) (l : List UInt8) : Prop where
  nread : p.nread = counter r
  nwrite : p.nwrite = counter (r + l.length)
  holds : Holds p.data r l
  fits : l.length ≤ PIPESIZE

namespace Pipe.Has

variable {p : Pipe} {r : Nat} {l bs : List UInt8} {b : UInt8}

theorem full_iff (h : p.Has r l) : p.nwrite = p.nread + 512 ↔ l.length = PIPESIZE := by
  have hfits : l.length ≤ 512 := h.fits
  have hadd : p.nread + 512 = counter (r + 512) := by
    rw [h.nread]
    exact counter_add r 512
  rw [hadd, h.nwrite, eq_comm, counter_inj (by omega) (by omega), Nat.add_left_cancel_iff, eq_comm]

theorem empty_iff (h : p.Has r l) : p.nread = p.nwrite ↔ l = [] := by
  have hfits : l.length ≤ 512 := h.fits
  rw [h.nread, h.nwrite, eq_comm, counter_inj (by omega) (by omega), ← List.length_eq_zero_iff]
  omega

theorem put (h : p.Has r l) (hlt : l.length < PIPESIZE) (b : UInt8) : (p.put b).Has r (l ++ [b]) where
  nread := h.nread
  nwrite := by
    rw [List.length_append, ← Nat.add_assoc, ← counter_add, ← h.nwrite]
    rfl
  holds := by
    have hpush := h.holds.push hlt b
    rw [← place_counter (by decide), ← h.nwrite] at hpush
    exact hpush
  fits := by
    rw [List.length_append]
    exact hlt

/-- The loop stores bytes in order, and stops early only when the pipe is full. -/
theorem fill (h : p.Has r l) (bs : List UInt8) :
    (p.fill bs).1.Has r (l ++ bs.take (p.fill bs).2) ∧ (p.fill bs).2 ≤ bs.length := by
  induction bs generalizing p l with
  | nil => exact ⟨by rw [List.take_nil, List.append_nil]; exact h, le_refl 0⟩
  | cons b bs ih =>
    by_cases hfull : p.nwrite = p.nread + 512
    · simp only [Pipe.fill, if_pos hfull, List.take_zero, List.append_nil]
      exact ⟨h, Nat.zero_le _⟩
    · have hlt : l.length < PIPESIZE := lt_of_le_of_ne h.fits fun heq => hfull (h.full_iff.mpr heq)
      obtain ⟨hhas, hle⟩ := ih (h.put hlt b)
      simp only [Pipe.fill, if_neg hfull, List.take_succ_cons, List.length_cons]
      rw [List.append_assoc] at hhas
      exact ⟨hhas, Nat.succ_le_succ hle⟩

theorem take (h : p.Has r (b :: l)) : ({p with nread := p.nread + 1} : Pipe).Has (r + 1) l where
  nread := by
    rw [h.nread]
    exact counter_add r 1
  nwrite := by
    rw [h.nwrite, List.length_cons, Nat.add_right_comm]
    rfl
  holds := (holds_cons.mp h.holds).2
  fits := Nat.le_of_succ_le h.fits

theorem first (h : p.Has r (b :: l)) : p.data (place PIPESIZE p.nread) = b := by
  rw [h.nread, place_counter (by decide)]
  exact (holds_cons.mp h.holds).1

theorem drain (h : p.Has r l) (n : Nat) :
    (p.drain n).2 = l.take n ∧ (p.drain n).1.Has (r + (p.drain n).2.length) (l.drop n) := by
  induction n generalizing p r l with
  | zero => exact ⟨rfl, h⟩
  | succ n ih =>
    cases l with
    | nil =>
      have hempty := h.empty_iff.mpr rfl
      simp only [Pipe.drain, if_pos hempty, List.take_nil, List.drop_nil, List.length_nil]
      exact ⟨trivial, h⟩
    | cons b l =>
      have hne : ¬ p.nread = p.nwrite := fun heq => absurd (h.empty_iff.mp heq) nofun
      obtain ⟨hbytes, hhas⟩ := ih h.take
      simp only [Pipe.drain, if_neg hne, List.take_succ_cons, List.drop_succ_cons, List.length_cons,
        h.first, hbytes]
      rw [hbytes, Nat.add_assoc, Nat.add_comm 1] at hhas
      exact ⟨trivial, hhas⟩

end Pipe.Has

theorem Pipe.Has.pipewrite {p : Pipe} {r i : Nat} {l addr : List UInt8} (h : p.Has r l)
    (killed : Bool) (hi : i ≤ addr.length) :
    (p.pipewrite addr i killed).1.Has r
      (l ++ (addr.drop i).take ((p.pipewrite addr i killed).2.1 - i)) ∧
    i ≤ (p.pipewrite addr i killed).2.1 ∧ (p.pipewrite addr i killed).2.1 ≤ addr.length ∧
    ((p.pipewrite addr i killed).2.2 = some (addr.length : Int) →
      (p.pipewrite addr i killed).2.1 = addr.length) := by
  obtain ⟨hhas, hle⟩ := h.fill (addr.drop i)
  rw [List.length_drop] at hle
  have hpos : i + (p.fill (addr.drop i)).2 - i = (p.fill (addr.drop i)).2 := by omega
  simp only [Pipe.pipewrite]
  split
  · rename_i hend
    simp only [hpos]
    exact ⟨hhas, by omega, by omega, fun _ => hend⟩
  · split
    · simp only [hpos]
      exact ⟨hhas, by omega, by omega, fun heq => by cases heq⟩
    · simp only [hpos]
      exact ⟨hhas, by omega, by omega, nofun⟩

theorem Pipe.Has.piperead {p : Pipe} {r : Nat} {l : List UInt8} (h : p.Has r l) (n : Nat)
    (killed : Bool) :
    ∃ l', l = (p.piperead n killed).2.1 ++ l' ∧
      (p.piperead n killed).1.Has (r + (p.piperead n killed).2.1.length) l' := by
  simp only [Pipe.piperead]
  split
  · split <;> exact ⟨l, rfl, h⟩
  · obtain ⟨hbytes, hhas⟩ := h.drain n
    refine ⟨l.drop n, ?_, hhas⟩
    rw [hbytes, List.take_append_drop]

theorem Pipe.drain_writeopen (p : Pipe) (n : Nat) : (p.drain n).1.writeopen = p.writeopen := by
  induction n generalizing p with
  | zero => rfl
  | succ n ih =>
    simp only [Pipe.drain]
    split
    · rfl
    · exact ih _

theorem Pipe.Has.piperead_zero {p : Pipe} {r n : Nat} {l : List UInt8} {killed : Bool}
    (h : p.Has r l) (hn : 0 < n) (hzero : (p.piperead n killed).2.2 = some 0) :
    (p.piperead n killed).1.nread = (p.piperead n killed).1.nwrite ∧
      (p.piperead n killed).1.writeopen = false := by
  unfold Pipe.piperead at hzero ⊢
  split at hzero
  · split at hzero <;> cases hzero
  · rename_i hopen
    rw [if_neg hopen]
    obtain ⟨hbytes, hhas⟩ := h.drain n
    have hlen : (p.drain n).2.length = 0 := Int.ofNat.inj (Option.some.inj hzero)
    have hnil : l = [] := by
      rw [hbytes, List.length_take] at hlen
      exact List.length_eq_zero_iff.mp (by omega)
    refine ⟨?_, ?_⟩
    · rw [hnil, List.drop_nil] at hhas
      exact hhas.empty_iff.mpr rfl
    · rw [Pipe.drain_writeopen]
      have hempty := h.empty_iff.mpr hnil
      simpa [hempty] using hopen

/-! ### Runs -/

variable {T : Type} [DecidableEq T] {s s' : State T} {e : Event T} {h : List (Event T)}
  {data : Fin PIPESIZE → UInt8} {t : T} {n : Nat} {first : Bool} {r : Option Int}

/-- A call of `t` on pipe `n` begins, or goes on with byte `i`. -/
def State.Enters (s : State T) (t : T) (n : Nat) (c : Call) (i : Nat) (first : Bool) : Prop :=
  (first = true ∧ n = s.gen ∧ i = 0) ∨ (first = false ∧ s.calls t = some (n, c, i))

theorem step_cases (hs : s.Step e s') :
    (s.freed = false ∧ ∃ t n c i first killed, (s', e) = s.run t n first killed i c ∧
      s.Enters t n c i first) ∨
    (∃ writable, e = .close writable ∧ s'.gen = s.gen ∧ s'.calls = s.calls ∧
      s'.pipe = s.pipe.pipeclose writable ∧ s'.freed = (!s'.pipe.readopen && !s'.pipe.writeopen)) ∨
    ∃ data, e = .pipealloc ∧ s.freed = true ∧
      s' = {s with pipe := pipealloc data, gen := s.gen + 1, freed := false} := by
  obtain ⟨a, ha⟩ := hs
  cases a with
  | call t c killed =>
    simp only [State.step] at ha
    split at ha
    · rename_i hc
      exact .inl ⟨hc.1, t, s.gen, c, 0, true, killed, (Option.some.inj ha).symm, .inl ⟨rfl, rfl, rfl⟩⟩
    · cases ha
  | wake t killed =>
    simp only [State.step] at ha
    split at ha
    · cases ha
    · rename_i hfreed
      obtain ⟨⟨n, c, i⟩, hc, hrun⟩ := Option.map_eq_some_iff.mp ha
      exact .inl ⟨Bool.eq_false_iff.mpr hfreed, t, n, c, i, false, killed, hrun.symm, .inr ⟨rfl, hc⟩⟩
  | close writable =>
    simp only [State.step] at ha
    split at ha
    · cases ha
    · cases ha
      exact .inr (.inl ⟨writable, rfl, rfl, rfl, rfl, rfl⟩)
  | pipealloc data =>
    simp only [State.step] at ha
    split at ha
    · rename_i hfreed
      cases ha
      exact .inr (.inr ⟨data, rfl, hfreed, rfl⟩)
    · cases ha

structure Inv (h : List (Event T)) (s : State T) : Prop where
  has : ∃ l, s.pipe.Has (taken s.gen h).length l ∧ stored s.gen h = taken s.gen h ++ l
  past : ∀ n, n ≠ s.gen → taken n h <+: stored n h
  next : ∀ n, s.gen < n → taken n h = [] ∧ stored n h = []
  calls : ∀ {t n c i}, s.calls t = some (n, c, i) → n = s.gen ∧ s.freed = false
  own : ∀ {t n addr i}, s.calls t = some (n, .write addr, i) →
    i ≤ addr.length ∧ storedBy t h = addr.take i

namespace Inv

variable (hI : Inv h s)
include hI

theorem gen_eq {c : Call} {i : Nat} (hc : s.Enters t n c i first) : n = s.gen := by
  rcases hc with ⟨-, rfl, -⟩ | ⟨-, hcall⟩
  · rfl
  · exact (hI.calls hcall).1

theorem before {addr : List UInt8} {i : Nat} (hc : s.Enters t n (.write addr) i first) :
    i ≤ addr.length ∧ (if first then [] else storedBy t h) = addr.take i := by
  rcases hc with ⟨rfl, -, rfl⟩ | ⟨rfl, hcall⟩
  · exact ⟨Nat.zero_le _, rfl⟩
  · exact hI.own hcall

end Inv

/-- What a call has stored when it sleeps or returns. -/
theorem storedBy_write {addr : List UInt8} {i j : Nat}
    (hij : i ≤ j) (hbefore : (if first then [] else storedBy t h) = addr.take i) :
    storedBy t (.section t n (.write addr) first ((addr.drop i).take (j - i)) [] r :: h) =
      addr.take j := by
  have hsplit : addr.take j = addr.take i ++ (addr.drop i).take (j - i) := by
    rw [← List.take_add, Nat.add_sub_cancel' hij]
  simp only [storedBy, if_pos]
  split <;> simp_all

/-- A part of a call on the current pipe keeps the order. -/
theorem Inv.section {p : Pipe} {c : Call} {x : Option (Nat × Call × Nat)} {l l' st tk : List UInt8}
    (hI : Inv h s) (hfreed : s.freed = false) (hstored : stored s.gen h = taken s.gen h ++ l)
    (hhas : p.Has ((taken s.gen h).length + tk.length) l') (hl : l ++ st = tk ++ l')
    (hgen : ∀ {n c i}, x = some (n, c, i) → n = s.gen)
    (hown : ∀ {n addr i}, x = some (n, .write addr, i) → i ≤ addr.length ∧
      storedBy t (.section t s.gen c first st tk r :: h) = addr.take i) :
    Inv (.section t s.gen c first st tk r :: h) {s with pipe := p, calls := update s.calls t x} where
  has := by
    refine ⟨l', ?_, ?_⟩
    · simpa [taken, Event.taken] using hhas
    · simp only [stored, taken, Event.stored, Event.taken, if_true, hstored, List.append_assoc, hl]
  past := fun n hn => by
    simpa [stored, taken, Event.stored, Event.taken, Ne.symm hn] using hI.past n hn
  next := fun n hn => by
    simpa [stored, taken, Event.stored, Event.taken, Nat.ne_of_lt hn] using hI.next n hn
  calls := fun {q n c i} hq => by
    dsimp only at hq
    by_cases hqt : q = t
    · rw [hqt, update_self] at hq
      exact ⟨hgen hq, hfreed⟩
    · rw [update_of_ne hqt] at hq
      exact hI.calls hq
  own := fun {q n addr i} hq => by
    dsimp only at hq
    by_cases hqt : q = t
    · rw [hqt, update_self] at hq
      rw [hqt]
      exact hown hq
    · rw [update_of_ne hqt] at hq
      simp only [storedBy, if_neg (Ne.symm hqt)]
      exact hI.own hq

theorem Inv.step (hI : Inv h s) (hs : s.Step e s') (hleft : s.Left e) : Inv (e :: h) s' := by
  obtain ⟨l, hhas, hstored⟩ := hI.has
  rcases step_cases hs with ⟨hfreed, t, n, c, i, first, killed, hrun, hc⟩ |
    ⟨writable, rfl, hgen, hcalls, hpipe, hfreed⟩ | ⟨data, rfl, hfreed, rfl⟩
  · obtain rfl := hI.gen_eq hc
    cases c with
    | write addr =>
      obtain ⟨hi, hbefore⟩ := hI.before hc
      obtain ⟨hhas', hij, hj, -⟩ := hhas.pipewrite killed hi
      cases hrun
      refine hI.section hfreed hstored hhas' rfl (fun hx => ?_) fun hx => ?_
      · split at hx <;> cases hx
        rfl
      · split at hx <;> cases hx
        exact ⟨hj, storedBy_write hij hbefore⟩
    | read k =>
      obtain ⟨l', hl, hhas'⟩ := hhas.piperead k killed
      cases hrun
      refine hI.section hfreed hstored hhas' ((List.append_nil l).trans hl) (fun hx => ?_) fun hx => ?_
      · split at hx <;> cases hx
        rfl
      · split at hx <;> cases hx
  · refine ⟨⟨l, ?_, ?_⟩, ?_, ?_, fun {t n c i} ht => ?_, fun ht => hI.own (hcalls ▸ ht)⟩
    · simp only [taken, Event.taken, List.append_nil, hgen, hpipe]
      unfold Pipe.pipeclose
      split <;> exact ⟨hhas.nread, hhas.nwrite, hhas.holds, hhas.fits⟩
    · simpa [stored, taken, Event.stored, Event.taken, hgen] using hstored
    · simpa [stored, taken, Event.stored, Event.taken, hgen] using hI.past
    · simpa [stored, taken, Event.stored, Event.taken, hgen] using hI.next
    · rw [hcalls] at ht
      refine ⟨(hI.calls ht).1.trans hgen.symm, ?_⟩
      -- the last close finds no call
      by_contra hlast
      simp only [hfreed, hpipe, Bool.not_eq_false, Bool.and_eq_true, Bool.not_eq_true'] at hlast
      rw [hleft writable rfl hlast.1 hlast.2 t] at ht
      cases ht
  · have hnone : ∀ {t x}, s.calls t ≠ some x := by
      intro t x ht
      rw [(hI.calls ht).2] at hfreed
      cases hfreed
    obtain ⟨htaken, hnew⟩ := hI.next (s.gen + 1) (Nat.lt_succ_self _)
    refine ⟨⟨[], ?_, ?_⟩, fun n hn => ?_, fun n hn => ?_, fun ht => absurd ht hnone,
      fun ht => absurd ht hnone⟩
    · simp only [taken, Event.taken, List.append_nil, htaken]
      exact ⟨rfl, rfl, holds_nil, Nat.zero_le _⟩
    · simp only [stored, taken, Event.stored, Event.taken, List.append_nil, htaken, hnew]
    · simp only [stored, taken, Event.stored, Event.taken, List.append_nil]
      by_cases heq : n = s.gen
      · rw [heq, hstored]
        exact List.prefix_append ..
      · exact hI.past n heq
    · simpa [stored, taken, Event.stored, Event.taken] using hI.next n (Nat.lt_of_succ_lt hn)

theorem Run.inv (hr : Run (Guarded State.Step State.Left) (start data) h s) : Inv h s := by
  have hstart : Inv ([] : List (Event T)) (start data) :=
    ⟨⟨[], ⟨rfl, rfl, holds_nil, Nat.zero_le _⟩, rfl⟩, fun _ _ => List.prefix_rfl,
      fun _ _ => ⟨rfl, rfl⟩, nofun, nofun⟩
  exact hr.invariant Inv hstart fun _ _ _ _ _ hI hs => hI.step hs.1 hs.2

/-- As long as no pipe is freed with a call inside: a pipe is a queue of at most `PIPESIZE`
bytes; a `pipewrite` that returns its length has stored its bytes, and a `piperead` of some
bytes returns 0 at the end only. -/
theorem pipe_fifo (hr : Run (Guarded State.Step State.Left) (start data) h s) :
    (∀ n, taken n h <+: stored n h) ∧
    (s.pipe.nwrite - s.pipe.nread).toNat = (stored s.gen h).length - (taken s.gen h).length ∧
    (s.pipe.nwrite - s.pipe.nread).toNat ≤ PIPESIZE ∧
    (∀ s' t n addr first st tk,
      s.Step (.section t n (.write addr) first st tk (some addr.length)) s' →
      n = s.gen ∧ storedBy t (.section t n (.write addr) first st tk (some addr.length) :: h) = addr) ∧
    ∀ s' t n k first st tk, 0 < k → s.Step (.section t n (.read k) first st tk (some 0)) s' →
      n = s.gen ∧ s'.pipe.nread = s'.pipe.nwrite ∧ s'.pipe.writeopen = false := by
  have hI := Run.inv hr
  obtain ⟨l, hhas, hstored⟩ := hI.has
  have hfits : l.length ≤ 512 := hhas.fits
  have hdiff : (s.pipe.nwrite - s.pipe.nread).toNat = l.length := by
    rw [hhas.nwrite, hhas.nread, counter_sub (by omega), Nat.add_sub_cancel_left,
      toNat_counter (by omega)]
  refine ⟨fun n => ?_, ?_, hdiff ▸ hhas.fits, ?_, ?_⟩
  · by_cases hn : n = s.gen
    · rw [hn, hstored]
      exact List.prefix_append ..
    · exact hI.past n hn
  · rw [hdiff, hstored, List.length_append]
    omega
  · intro s' t n addr first st tk hs
    rcases step_cases hs with ⟨-, t', n', c, i, first', killed, hrun, hc⟩ | ⟨_, heq, -⟩ | ⟨_, heq, -⟩
    · have hgen := hI.gen_eq hc
      cases c with
      | write addr' =>
        obtain ⟨hi, hbefore⟩ := hI.before hc
        obtain ⟨-, hij, -, hend⟩ := hhas.pipewrite killed hi
        simp only [State.run, Prod.mk.injEq, Event.section.injEq, Call.write.injEq] at hrun
        obtain ⟨-, rfl, rfl, rfl, rfl, rfl, rfl, hresult⟩ := hrun
        rw [storedBy_write hij hbefore, hend hresult.symm, List.take_length]
        exact ⟨hgen, rfl⟩
      | read => cases hrun
    · cases heq
    · cases heq
  · intro s' t n k first st tk hk hs
    rcases step_cases hs with ⟨-, t', n', c, i, first', killed, hrun, hc⟩ | ⟨_, heq, -⟩ | ⟨_, heq, -⟩
    · have hgen := hI.gen_eq hc
      cases c with
      | write => cases hrun
      | read k' =>
        simp only [State.run, Prod.mk.injEq, Event.section.injEq, Call.read.injEq] at hrun
        obtain ⟨rfl, -, rfl, rfl, -, -, -, hresult⟩ := hrun
        exact ⟨hgen, hhas.piperead_zero hk hresult.symm⟩
    · cases heq
    · cases heq

/-- A write that fills the pipe sleeps, and goes on after a read; the page was another pipe
before. -/
theorem pipe_fifo_refilled : ∃ h, ∃ s : State (Fin 2),
    Run (Guarded State.Step State.Left) (start fun _ => 0) h s ∧ s.gen = 1 ∧
    taken 1 h = [7, 7, 7] ∧ taken 1 h <+: stored 1 h ∧
    (s.pipe.nwrite - s.pipe.nread).toNat ≤ PIPESIZE ∧
    ∃ e s', s.Step e s' ∧ storedBy 0 (e :: h) = List.replicate 513 7 := by
  have hrun : ∃ h, ∃ s : State (Fin 2),
      Run (Guarded State.Step State.Left) (start fun _ => 0) h s ∧ s.gen = 1 ∧ taken 1 h = [7, 7, 7] ∧
      (s.step (.wake 0 false)).any (fun r =>
        r.2 = .section 0 1 (.write (List.replicate 513 7)) false [7] []
          (some (List.replicate 513 (7 : UInt8)).length) ∧ True) = true :=
    Run.exists_of_trace (fun s a s' e hs => (⟨a, hs⟩ : s.Step e s'))
      [.call 1 (.write [5]) false, .close true, .close false, .pipealloc fun _ => 1,
        .call 0 (.write (List.replicate 513 7)) false, .call 1 (.read 3) false] (by decide +kernel)
  obtain ⟨h, s, hr, hgen, htaken, hany⟩ := hrun
  obtain ⟨s', hstep, -⟩ := exists_of_any (Q := fun _ => True) hany
  obtain ⟨hfifo, -, hfits, hwrite, -⟩ := pipe_fifo hr
  exact ⟨h, s, hr, hgen, htaken, hfifo 1, hfits, _, s', ⟨_, hstep⟩,
    (hwrite s' 0 1 _ false [7] [] ⟨_, hstep⟩).2⟩

/-- Thread 0 sleeps in a read of an empty pipe while both ends are closed. The page becomes
another pipe, thread 1 writes a byte there, and the read returns it: nothing was ever stored
in the pipe it was made on. -/
theorem read_of_closed_pipe : ∃ h, ∃ s : State (Fin 2), Run State.Step (start fun _ => 0) h s ∧
    .section 0 0 (.read 1) false [] [9] (some 1) ∈ h ∧ taken 0 h = [9] ∧ stored 0 h = [] ∧
    stored 1 h = [9] ∧ taken 1 h = [] :=
  Run.exists_of_steps (start fun _ => 0 : State (Fin 2)) (fun s a s' e hs => (⟨a, hs⟩ : s.Step e s'))
    [.call 0 (.read 1) false, .close true, .close false, .pipealloc fun _ => 1,
      .call 1 (.write [9]) false, .wake 0 false]
    (by decide +kernel)

end ThreadKernel.Pipes
