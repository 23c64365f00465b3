import ThreadKernel.Library.Run

/-! The bakery lock of `pthread_lock_linux.c`, for any number of threads.

A step is one read or one write of `choosing`, `number` or `shared_resource`; a thread's own
ticket, which nobody else writes, is read along with another's. Steps take effect in one
order. The threads may call `lock` again after `unlock`, which `main` has each do once.

`max` reads an element twice when it is larger than what it has so far, and the second read
may find another value. -/
namespace ThreadKernel.Bakery

open Lts Function

abbrev NUM_ITERS : Nat := 10

/-- The next read or write of a thread. -/
inductive Pc (N : Nat) where
  | out
  /-- `choosing[tid] = 1`. -/
  | choose
  /-- In `max`, `array[k]`, with `max_value` so far. -/
  | scan (k : Fin N) (max_value : Nat)
  /-- `max_value = array[k]`, the comparison having come out true. -/
  | reread (k : Fin N) (max_value : Nat)
  /-- `number[tid] = 1 + max(number, NUM_THREADS)`. -/
  | draw (max_value : Nat)
  /-- `choosing[tid] = 0`. -/
  | settle
  /-- `while (choosing[j])`. -/
  | await (j : Fin N)
  /-- `number[j] != 0`. -/
  | nonzero (j : Fin N)
  /-- `number[j] < number[tid]`. -/
  | less (j : Fin N)
  /-- `number[j] == number[tid] && j < tid`. -/
  | tie (j : Fin N)
  /-- `shared_resource++`, the read. -/
  | load (i : Nat)
  | store (i : Nat) (value : Nat)
  /-- `number[tid] = 0`. -/
  | unlock
  deriving DecidableEq, Repr

structure State (N : Nat) where
  pc : Fin N → Pc N
  choosing : Fin N → Bool
  number : Fin N → Nat
  shared_resource : Nat

inductive Event (N : Nat) where
  | choose (tid : Fin N)
  | settle (tid : Fin N)
  /-- `lock` returns. -/
  | locked (tid : Fin N)
  | unlock (tid : Fin N)
  | other
  deriving DecidableEq, Repr

variable {N : Nat}

/-- The next turn of a loop over the threads, or what comes after it. -/
def Pc.next (k : Fin N) (turn : Fin N → Pc N) (after : Pc N) : Pc N :=
  if h : k + 1 < N then turn ⟨k + 1, h⟩ else after

namespace State

def goto (s : State N) (tid : Fin N) (x : Pc N) : State N :=
  {s with pc := update s.pc tid x}

/-- The loop of `lock` is done with `j`. -/
def pass (s : State N) (tid j : Fin N) : State N × Event N :=
  (s.goto tid (Pc.next j .await (.load 0)), if j + 1 < N then .other else .locked tid)

def step (s : State N) (tid : Fin N) : State N × Event N :=
  match s.pc tid with
  | .out => (s.goto tid .choose, .other)
  | .choose =>
    ({s.goto tid (.scan ⟨0, tid.pos⟩ 0) with choosing := update s.choosing tid true},
      .choose tid)
  | .scan k max_value =>
    if k.val = 0 then (s.goto tid (Pc.next k (.scan · (s.number k)) (.draw (s.number k))), .other)
    else if s.number k > max_value then (s.goto tid (.reread k max_value), .other)
    else (s.goto tid (Pc.next k (.scan · max_value) (.draw max_value)), .other)
  | .reread k _ =>
    (s.goto tid (Pc.next k (.scan · (s.number k)) (.draw (s.number k))), .other)
  | .draw max_value =>
    ({s.goto tid .settle with number := update s.number tid (1 + max_value)}, .other)
  | .settle =>
    ({s.goto tid (.await ⟨0, tid.pos⟩) with choosing := update s.choosing tid false},
      .settle tid)
  | .await j => (s.goto tid (if s.choosing j then .await j else .nonzero j), .other)
  | .nonzero j => if s.number j ≠ 0 then (s.goto tid (.less j), .other) else s.pass tid j
  | .less j =>
    (s.goto tid (if s.number j < s.number tid then .nonzero j else .tie j), .other)
  | .tie j =>
    if s.number j = s.number tid ∧ j < tid then (s.goto tid (.nonzero j), .other)
    else s.pass tid j
  | .load i => (s.goto tid (.store i s.shared_resource), .other)
  | .store i value =>
    ({s.goto tid (if i + 1 < NUM_ITERS then .load (i + 1) else .unlock) with
      shared_resource := value + 1}, .other)
  | .unlock =>
    ({s.goto tid .out with number := update s.number tid 0}, .unlock tid)

def Step (s : State N) (e : Event N) (s' : State N) : Prop := ∃ tid, s.step tid = (s', e)

end State

theorem Step.of_some (s : State N) (tid : Fin N) (s' : State N) (e : Event N)
    (hs : some (s.step tid) = some (s', e)) : s.Step e s' :=
  ⟨tid, Option.some.inj hs⟩

/-- Nobody has called `lock`. -/
def start : State N := ⟨fun _ => .out, fun _ => false, fun _ => 0, 0⟩

/-! ### Whose turn is first -/

namespace Pc

/-- `choosing[tid]` is set. -/
def chooses : Pc N → Bool
  | .scan _ _ | .reread _ _ | .draw _ | .settle => true
  | _ => false

/-- The thread has its ticket and has said so. -/
def settled : Pc N → Bool
  | .await _ | .nonzero _ | .less _ | .tie _ | .load _ | .store _ _ | .unlock => true
  | _ => false

/-- Between the return of `lock` and `unlock`. -/
def critical : Pc N → Bool
  | .load _ | .store _ _ | .unlock => true
  | _ => false

/-- The loop of `lock` is done with `j`. -/
def past (j : Fin N) : Pc N → Bool
  | .await k | .nonzero k | .less k | .tie k => j < k
  | .load _ | .store _ _ | .unlock => true
  | _ => false

end Pc

/-- The order of the tickets. -/
def Before (number : Fin N → Nat) (i j : Fin N) : Prop :=
  number i < number j ∨ number i = number j ∧ i < j

/-- `i`, which has its ticket, is ahead of `j`, which is at `x`: if `j` has its ticket or has
seen that of `i`, its own is or will be larger. -/
def Ahead (number : Fin N → Nat) (i j : Fin N) : Pc N → Prop
  | .out | .choose => True
  | .scan k max_value => i < k → number i ≤ max_value
  | .reread k _ => i < k → number i < number k
  | .draw max_value => number i ≤ max_value
  | _ => Before number i j

structure Inv (s : State N) : Prop where
  choosing : ∀ i, s.choosing i = (s.pc i).chooses
  number : ∀ i, s.number i ≠ 0 ↔ (s.pc i).settled = true ∨ s.pc i = .settle
  past : ∀ i j, i ≠ j → (s.pc i).past j = true → Ahead s.number i j (s.pc j)
  asks : ∀ i j, i ≠ j → s.pc i = .nonzero j ∨ s.pc i = .less j →
    Ahead s.number i j (s.pc j) ∨ (s.pc j).settled = true ∧ Before s.number j i
  tie : ∀ i j, i ≠ j → s.pc i = .tie j →
    Ahead s.number i j (s.pc j) ∨ (s.pc j).settled = true ∧ s.number j = s.number i ∧ j < i

section
variable {s : State N} {i j p : Fin N} {number : Fin N → Nat} {k : Fin N} {m : Nat}

theorem Ahead.before {x : Pc N} (h : Ahead number i j x)
    (hx : x.settled = true) : Before number i j := by
  cases x <;> first | exact h | cases hx

theorem not_before (h : Before number i j) : ¬ Before number j i := by
  unfold Before at *
  omega

theorem before_or (hne : i ≠ j) : Before number i j ∨ Before number j i := by
  unfold Before
  omega

/-- Where a step leads. -/
def State.nextPc (s : State N) (tid : Fin N) : Pc N :=
  match s.pc tid with
  | .out => .choose
  | .choose => .scan ⟨0, tid.pos⟩ 0
  | .scan k m =>
    if k.val = 0 then Pc.next k (.scan · (s.number k)) (.draw (s.number k))
    else if s.number k > m then .reread k m
    else Pc.next k (.scan · m) (.draw m)
  | .reread k _ => Pc.next k (.scan · (s.number k)) (.draw (s.number k))
  | .draw _ => .settle
  | .settle => .await ⟨0, tid.pos⟩
  | .await j => if s.choosing j then .await j else .nonzero j
  | .nonzero j => if s.number j ≠ 0 then .less j else Pc.next j .await (.load 0)
  | .less j => if s.number j < s.number tid then .nonzero j else .tie j
  | .tie j =>
    if s.number j = s.number tid ∧ j < tid then .nonzero j else Pc.next j .await (.load 0)
  | .load i => .store i s.shared_resource
  | .store i _ => if i + 1 < NUM_ITERS then .load (i + 1) else .unlock
  | .unlock => .out

theorem step_pc (s : State N) (p : Fin N) :
    (s.step p).1.pc = update s.pc p (s.nextPc p) := by
  unfold State.step State.nextPc
  cases s.pc p <;> dsimp only [State.goto, State.pass] <;> (try split) <;> (try split) <;> rfl

@[simp]
theorem step_pc_self (s : State N) (p : Fin N) : (s.step p).1.pc p = s.nextPc p := by
  rw [step_pc, update_self]

/-- A step writes only what is its thread's own. -/
theorem step_other (hne : i ≠ p) :
    (s.step p).1.pc i = s.pc i ∧ (s.step p).1.number i = s.number i ∧
    (s.step p).1.choosing i = s.choosing i := by
  unfold State.step
  split <;> (try split) <;> (try split) <;> simp [State.goto, State.pass, hne]

/-- A thread keeps its ticket until it unlocks. -/
theorem step_settled (h : (s.pc p).settled = true) (hne : s.pc p ≠ .unlock) :
    (s.step p).1.number = s.number ∧ (s.step p).1.choosing = s.choosing ∧
    ((s.step p).1.pc p).settled = true := by
  unfold State.step
  split <;> (try split) <;> simp_all [State.goto, State.pass, Pc.settled, Pc.next] <;> grind

theorem next_cases (k : Fin N) (turn : Fin N → Pc N) (after : Pc N) :
    (∃ k', k'.val = k.val + 1 ∧ Pc.next k turn after = turn k') ∨
    k.val + 1 = N ∧ Pc.next k turn after = after := by
  unfold Pc.next
  split
  · next h => exact .inl ⟨⟨k + 1, h⟩, rfl, rfl⟩
  · exact .inr ⟨by omega, rfl⟩

/-- The scan has come to the end of a turn with a maximum that is large enough. -/
theorem ahead_next (h : i ≤ k → number i ≤ m) :
    Ahead number i j (Pc.next k (.scan · m) (.draw m)) := by
  obtain ⟨k', hk, heq⟩ | ⟨hk, heq⟩ := next_cases k (.scan · m) (.draw m)
  · rw [heq]
    intro hlt
    exact h (by omega)
  · rw [heq]
    exact h (by omega)

/-- Nobody overtakes one that is ahead by a step of its own. -/
theorem Ahead.own (hij : i ≠ j) (h : Ahead s.number i j (s.pc j)) :
    Ahead (s.step j).1.number i j ((s.step j).1.pc j) := by
  by_cases hset : (s.pc j).settled = true ∧ s.pc j ≠ .unlock
  · obtain ⟨hnumber, -, hset'⟩ := step_settled hset.1 hset.2
    have hbefore := h.before hset.1
    rw [hnumber]
    generalize (s.step j).1.pc j = y at hset'
    cases y <;> first | exact hbefore | cases hset'
  · unfold State.step
    cases hpc : s.pc j with
    | out => simp [State.goto, Ahead]
    | choose =>
      simp only [State.goto, update_self]
      exact fun hlt => absurd hlt (Nat.not_lt_zero _)
    | scan k m =>
      rw [hpc] at h
      dsimp only
      split
      · next hzero =>
        simp only [State.goto, update_self]
        refine ahead_next fun hle => le_of_eq (congrArg s.number ?_)
        omega
      · split
        · next hmore =>
          simp only [State.goto, update_self]
          exact fun hlt => lt_of_le_of_lt (h hlt) hmore
        · next hmore =>
          simp only [State.goto, update_self]
          refine ahead_next fun hle => ?_
          obtain hlt | heq := lt_or_eq_of_le hle
          · exact h hlt
          · exact heq ▸ not_lt.mp hmore
    | reread k m =>
      rw [hpc] at h
      simp only [State.goto, update_self]
      refine ahead_next fun hle => ?_
      obtain hlt | heq := lt_or_eq_of_le hle
      · exact le_of_lt (h hlt)
      · exact le_of_eq (congrArg s.number heq)
    | draw m =>
      rw [hpc] at h
      simp only [State.goto, update_self]
      refine .inl ?_
      rw [update_of_ne hij, update_self, Nat.add_comm]
      exact Nat.lt_succ_of_le h
    | settle =>
      rw [hpc] at h
      simp only [State.goto, update_self]
      exact h
    | unlock => simp [State.goto, Ahead]
    | _ => simp [hpc, Pc.settled] at hset

/-- A ticket changes when it is drawn and when it is given up. -/
theorem step_number (I : Inv s) :
    (s.step p).1.number p = s.number p ∨ s.number p = 0 ∨ s.pc p = .unlock := by
  by_cases hset : (s.pc p).settled = true
  · by_cases hunlock : s.pc p = .unlock
    · exact .inr (.inr hunlock)
    · rw [(step_settled hset hunlock).1]
      exact .inl rfl
  · by_cases hsettle : s.pc p = .settle
    · simp [State.step, hsettle, State.goto]
    · have hzero := (I.number p).not.mpr (not_or_intro hset hsettle)
      exact .inr (.inl (not_ne_iff.mp hzero))

/-- Nobody overtakes one that is ahead, as long as it keeps its ticket. -/
theorem Ahead.step (I : Inv s) (hij : i ≠ j) (h : Ahead s.number i j (s.pc j))
    (hi : (s.pc i).settled = true) (hkeep : p = i → s.pc i ≠ .unlock) :
    Ahead (s.step p).1.number i j ((s.step p).1.pc j) := by
  by_cases hpj : j = p
  · subst hpj
    exact h.own hij
  · rw [(step_other hpj).1]
    by_cases hpi : p = i
    · subst hpi
      rw [(step_settled hi (hkeep rfl)).1]
      exact h
    · have hnumber := (step_other (s := s) (Ne.symm hpi)).2.1
      have hnumber' := (step_other (s := s) hpj).2.1
      cases hpc : s.pc j with
      | reread k m =>
        rw [hpc] at h
        intro hlt
        rw [hnumber]
        by_cases hk : k = p
        · -- a thread with a larger ticket does not unlock before `i`
          subst hk
          have hmore : s.number i < s.number k := h hlt
          obtain hsame | hzero | hunlock := step_number (p := k) I
          · rwa [hsame]
          · omega
          · have hfirst := (I.past k i hpi (by rw [hunlock]; rfl)).before hi
            unfold Before at hfirst
            omega
        · rw [(step_other hk).2.1]
          exact h hlt
      | out => trivial
      | choose => trivial
      | scan k m | draw m =>
        rw [hpc] at h
        simp only [Ahead, hnumber]
        exact h
      | _ =>
        rw [hpc] at h
        simp only [Ahead, Before, hnumber, hnumber'] at h ⊢
        exact h

namespace Inv

theorem step_choosing (I : Inv s) (p i : Fin N) :
    (s.step p).1.choosing i = ((s.step p).1.pc i).chooses := by
  have hold := I.choosing i
  by_cases hip : i = p
  · subst hip
    unfold State.step
    split <;> (try split) <;> (try split) <;>
      simp_all [State.goto, State.pass, Pc.chooses, Pc.next] <;> grind
  · rw [(step_other hip).1, (step_other hip).2.2]
    exact hold

theorem step_number (I : Inv s) (p i : Fin N) :
    (s.step p).1.number i ≠ 0 ↔
      ((s.step p).1.pc i).settled = true ∨ (s.step p).1.pc i = .settle := by
  have hold := I.number i
  by_cases hip : i = p
  · subst hip
    unfold State.step
    split <;> (try split) <;> (try split) <;>
      simp_all [State.goto, State.pass, Pc.settled, Pc.next] <;> grind
  · rw [(step_other hip).1, (step_other hip).2.1]
    exact hold

end Inv

/-- Who ends its turn for `k` has ended it for no more threads than `k` and those before. -/
theorem past_next (h : (Pc.next k .await (.load 0)).past j = true) : j < k ∨ j = k := by
  obtain ⟨k', hk, heq⟩ | ⟨hk, heq⟩ := next_cases k .await (.load 0)
  · rw [heq] at h
    have hlt : j < k' := of_decide_eq_true h
    omega
  · omega

theorem past_scan : (Pc.next k (.scan · m) (.draw m)).past j = false := by
  obtain ⟨k', -, heq⟩ | ⟨-, heq⟩ := next_cases k (.scan · m) (.draw m) <;> rw [heq] <;> rfl

/-- Of two threads one is ahead, once the other does not choose. -/
theorem not_choosing {x : Pc N} (hij : i ≠ j) (hx : x.chooses = false) :
    Ahead number i j x ∨ x.settled = true ∧ Before number j i := by
  cases x with
  | out => exact .inl trivial
  | choose => exact .inl trivial
  | scan k m => cases hx
  | reread k m => cases hx
  | draw m => cases hx
  | settle => cases hx
  | _ => exact (before_or hij).imp_right fun hbefore => ⟨rfl, hbefore⟩

/-- How a thread gets past `j`. -/
theorem past_cases (h : ((s.step i).1.pc i).past j = true) :
    (s.pc i).settled = true ∧ s.pc i ≠ .unlock ∧
    ((s.pc i).past j = true ∨ s.pc i = .nonzero j ∧ s.number j = 0 ∨
      s.pc i = .tie j ∧ ¬ (s.number j = s.number i ∧ j < i)) := by
  rw [step_pc_self, State.nextPc] at h
  cases hpc : s.pc i with
  | scan k m => grind [past_scan, Pc.past]
  | reread k m => grind [past_scan]
  | nonzero k | tie k => grind [past_next, Pc.past, Pc.settled]
  | _ => grind [Pc.past, Pc.settled]

/-- How a thread comes to ask for the ticket of `j`. -/
theorem asks_cases (h : (s.step i).1.pc i = .nonzero j ∨ (s.step i).1.pc i = .less j) :
    (s.pc i).settled = true ∧ s.pc i ≠ .unlock ∧
    (s.pc i = .await j ∧ s.choosing j = false ∨ s.pc i = .nonzero j ∨ s.pc i = .less j ∨
      s.pc i = .tie j ∧ s.number j = s.number i ∧ j < i) := by
  rw [step_pc_self, State.nextPc] at h
  cases hpc : s.pc i <;> grind [Pc.settled, Pc.next]

theorem tie_cases (h : (s.step i).1.pc i = .tie j) :
    s.pc i = .less j ∧ ¬ s.number j < s.number i := by
  rw [step_pc_self, State.nextPc] at h
  cases hpc : s.pc i <;> grind [Pc.next]

theorem settled_of_past {x : Pc N} (h : x.past j = true) : x.settled = true := by
  cases x <;> first | rfl | cases h

namespace Inv

/-- The thread that is waited for keeps its ticket, or is out. -/
theorem waited (hip : i ≠ p) (hset : (s.pc j).settled = true) :
    Ahead (s.step p).1.number i j ((s.step p).1.pc j) ∨
    ((s.step p).1.pc j).settled = true ∧ (s.step p).1.number j = s.number j := by
  by_cases hjp : j = p
  · subst hjp
    by_cases hunlock : s.pc j = .unlock
    · simp [State.step, hunlock, State.goto, Ahead]
    · obtain ⟨hnumber, -, hset'⟩ := step_settled hset hunlock
      exact .inr ⟨hset', congrFun hnumber j⟩
  · rw [(step_other hjp).1, (step_other hjp).2.1]
    exact .inr ⟨hset, rfl⟩

theorem step_past (I : Inv s) (p : Fin N) (hij : i ≠ j) (h : ((s.step p).1.pc i).past j = true) :
    Ahead (s.step p).1.number i j ((s.step p).1.pc j) := by
  by_cases hip : i = p
  · subst hip
    obtain ⟨hset, hkeep, hcases⟩ := past_cases h
    have hahead : Ahead s.number i j (s.pc j) := by
      obtain hpast | ⟨hpc, hzero⟩ | ⟨hpc, hnot⟩ := hcases
      · exact I.past i j hij hpast
      · refine (I.asks i j hij (.inl hpc)).resolve_right fun hset => ?_
        exact (I.number j).mpr (.inl hset.1) hzero
      · exact (I.tie i j hij hpc).resolve_right fun htie => hnot htie.2
    exact hahead.step I hij hset fun _ => hkeep
  · rw [(step_other hip).1] at h
    exact (I.past i j hij h).step I hij (settled_of_past h) fun heq => absurd heq.symm hip

theorem step_asks (I : Inv s) (p : Fin N) (hij : i ≠ j)
    (h : (s.step p).1.pc i = .nonzero j ∨ (s.step p).1.pc i = .less j) :
    Ahead (s.step p).1.number i j ((s.step p).1.pc j) ∨
    ((s.step p).1.pc j).settled = true ∧ Before (s.step p).1.number j i := by
  by_cases hip : i = p
  · subst hip
    obtain ⟨hset, hkeep, hcases⟩ := asks_cases h
    have hnow : Ahead s.number i j (s.pc j) ∨ (s.pc j).settled = true ∧ Before s.number j i := by
      obtain ⟨hpc, hchoosing⟩ | hpc | hpc | ⟨hpc, htie⟩ := hcases
      · exact not_choosing hij (I.choosing j ▸ hchoosing)
      · exact I.asks i j hij (.inl hpc)
      · exact I.asks i j hij (.inr hpc)
      · exact (I.tie i j hij hpc).imp_right fun hwait => ⟨hwait.1, .inr hwait.2⟩
    rw [(step_other hij.symm).1, (step_settled hset hkeep).1]
    exact hnow
  · rw [(step_other hip).1] at h
    have hset : (s.pc i).settled = true := by
      obtain hpc | hpc := h <;> rw [hpc] <;> rfl
    obtain hahead | ⟨hj, hbefore⟩ := I.asks i j hij h
    · exact .inl (hahead.step I hij hset fun heq => absurd heq.symm hip)
    · refine (waited hip hj).imp_right fun hwait => ⟨hwait.1, ?_⟩
      unfold Before
      rw [hwait.2, (step_other hip).2.1]
      exact hbefore

theorem step_tie (I : Inv s) (p : Fin N) (hij : i ≠ j) (h : (s.step p).1.pc i = .tie j) :
    Ahead (s.step p).1.number i j ((s.step p).1.pc j) ∨
    ((s.step p).1.pc j).settled = true ∧ (s.step p).1.number j = (s.step p).1.number i ∧ j < i := by
  by_cases hip : i = p
  · subst hip
    obtain ⟨hpc, hnot⟩ := tie_cases h
    have hset : (s.pc i).settled = true := by
      rw [hpc]
      rfl
    rw [(step_other hij.symm).1, (step_settled hset (by rw [hpc]; nofun)).1]
    refine (I.asks i j hij (.inr hpc)).imp_right fun hwait => ⟨hwait.1, ?_⟩
    exact hwait.2.resolve_left hnot
  · rw [(step_other hip).1] at h
    have hset : (s.pc i).settled = true := by
      rw [h]
      rfl
    obtain hahead | ⟨hj, heq, hlt⟩ := I.tie i j hij h
    · exact .inl (hahead.step I hij hset fun heq => absurd heq.symm hip)
    · refine (waited hip hj).imp_right fun hwait => ⟨hwait.1, ?_, hlt⟩
      rw [hwait.2, (step_other hip).2.1]
      exact heq

theorem step (I : Inv s) (p : Fin N) : Inv (s.step p).1 where
  choosing := I.step_choosing p
  number := I.step_number p
  past _ _ := I.step_past p
  asks _ _ := I.step_asks p
  tie _ _ := I.step_tie p

end Inv

theorem inv_start : Inv (start : State N) where
  choosing _ := rfl
  number _ := by simp [start, Pc.settled]
  past _ _ _ := nofun
  asks _ _ _ := by simp [start]
  tie _ _ _ := nofun

theorem inv_run {h : List (Event N)} (hr : Run State.Step start h s) : Inv s := by
  refine hr.invariant (fun _ s => Inv s) inv_start fun _ s _ _ _ I hs => ?_
  obtain ⟨p, hp⟩ := hs
  have hstep := I.step p
  rw [hp] at hstep
  exact hstep

theorem past_of_critical {x : Pc N} (h : x.critical = true) (j : Fin N) : x.past j = true := by
  cases x <;> first | rfl | cases h

theorem Inv.exclusive (I : Inv s) (hi : (s.pc i).critical = true) (hj : (s.pc j).critical = true) :
    i = j := by
  by_contra hij
  have hpast := past_of_critical hi j
  have hpast' := past_of_critical hj i
  exact not_before ((I.past i j hij hpast).before (settled_of_past hpast'))
    ((I.past j i (Ne.symm hij) hpast').before (settled_of_past hpast))

end

/-! ### The shared counter -/

/-- How often the thread has counted since its `lock`. -/
def Pc.counted : Pc N → Nat
  | .load i | .store i _ => i
  | .unlock => NUM_ITERS
  | _ => 0

/-- How often it counts with its next step. -/
def Pc.adds : Pc N → Nat
  | .store _ _ => 1
  | _ => 0

/-- How often a thread has counted. -/
def counted (h : List (Event N)) (s : State N) (i : Fin N) : Nat :=
  h.count (.unlock i) * NUM_ITERS + (s.pc i).counted

structure Counts (h : List (Event N)) (s : State N) : Prop where
  total : s.shared_resource = ∑ i, counted h s i
  value : ∀ i n v, s.pc i = .store n v → v = s.shared_resource
  bound : ∀ i n, s.pc i = .load n ∨ (∃ v, s.pc i = .store n v) → n < NUM_ITERS

section
variable {s : State N} {h : List (Event N)} {i j p : Fin N}

theorem step_shared (s : State N) (p : Fin N) : (s.step p).1.shared_resource =
    match s.pc p with
    | .store _ v => v + 1
    | _ => s.shared_resource := by
  unfold State.step
  cases s.pc p <;> dsimp only [State.goto, State.pass] <;> (try split) <;> (try split) <;> rfl

theorem step_unlock : (s.step p).2 = .unlock i ↔ s.pc p = .unlock ∧ p = i := by
  unfold State.step
  cases s.pc p <;> grind [State.pass]

/-- A step counts once if it stores, and `unlock` starts again. -/
theorem nextPc_counted (C : Counts h s) (p : Fin N) :
    (s.nextPc p).counted + (if s.pc p = .unlock then NUM_ITERS else 0) =
      (s.pc p).counted + (s.pc p).adds := by
  have hbound := C.bound p
  unfold State.nextPc
  cases hpc : s.pc p with
  | store n v =>
    have hlt : n < NUM_ITERS := hbound n (.inr ⟨v, hpc⟩)
    dsimp only
    split
    · rfl
    · next hlast =>
      have hn : NUM_ITERS = n + 1 := by omega
      exact hn
  | _ => grind [Pc.counted, Pc.adds, Pc.next]

theorem counted_step (C : Counts h s) (p i : Fin N) :
    counted ((s.step p).2 :: h) (s.step p).1 i =
      counted h s i + if i = p then (s.pc p).adds else 0 := by
  have hevent := step_unlock (s := s) (p := p) (i := i)
  unfold counted
  rw [List.count_cons]
  by_cases hip : i = p
  · subst hip
    have hnext := nextPc_counted C i
    rw [step_pc_self, if_pos rfl]
    by_cases hunlock : s.pc i = .unlock
    · rw [if_pos hunlock] at hnext
      rw [if_pos (beq_iff_eq.mpr (hevent.mpr ⟨hunlock, rfl⟩)), Nat.succ_mul]
      omega
    · rw [if_neg hunlock] at hnext
      rw [if_neg fun heq => hunlock (hevent.mp (beq_iff_eq.mp heq)).1, Nat.add_zero]
      omega
  · rw [(step_other hip).1, if_neg hip]
    rw [if_neg fun heq => hip (hevent.mp (beq_iff_eq.mp heq)).2.symm]
    rfl

theorem Counts.step (I : Inv s) (C : Counts h s) (p : Fin N) :
    Counts ((s.step p).2 :: h) (s.step p).1 where
  total := by
    have hsum : ∑ i, counted ((s.step p).2 :: h) (s.step p).1 i =
        (∑ i, counted h s i) + (s.pc p).adds := by
      rw [Finset.sum_congr rfl fun i _ => counted_step C p i, Finset.sum_add_distrib]
      simp
    rw [hsum, ← C.total, step_shared]
    cases hpc : s.pc p with
    | store n v => rw [C.value p n v hpc]; rfl
    | _ => rfl
  value i n v hv := by
    rw [step_shared]
    by_cases hip : i = p
    · subst hip
      rw [step_pc_self, State.nextPc] at hv
      cases hpc : s.pc i <;> grind [Pc.next]
    · rw [(step_other hip).1] at hv
      have hold := C.value i n v hv
      cases hpc : s.pc p with
      | store n' v' => exact absurd (I.exclusive (by rw [hv]; rfl) (by rw [hpc]; rfl)) hip
      | _ => exact hold
  bound i n hn := by
    have hold := C.bound i
    by_cases hip : i = p
    · subst hip
      rw [step_pc_self, State.nextPc] at hn
      cases hpc : s.pc i <;> grind [Pc.next]
    · rw [(step_other hip).1] at hn
      exact hold n hn

theorem counts_start : Counts [] (start : State N) where
  total := by simp [counted, start, Pc.counted]
  value _ _ _ := nofun
  bound _ _ := by simp [start]

theorem counts_run (hr : Run State.Step start h s) : Counts h s := by
  refine hr.invariant (fun h s => Counts h s) counts_start fun _ s _ _ hr C hs => ?_
  obtain ⟨p, hp⟩ := hs
  have hstep := C.step (inv_run hr) p
  rw [hp] at hstep
  exact hstep

/-- The lock excludes, and when each thread has come out of `unlock` once, as `main` has each
do before it prints, the counter is right. -/
theorem mutual_exclusion (hr : Run State.Step start h s) :
    (∀ i j, (s.pc i).critical = true → (s.pc j).critical = true → i = j) ∧
    ((∀ i, s.pc i = .out ∧ h.count (.unlock i) = 1) → s.shared_resource = N * NUM_ITERS) := by
  refine ⟨fun i j => (inv_run hr).exclusive, fun hdone => ?_⟩
  have hone : ∀ i, counted h s i = NUM_ITERS := by
    intro i
    obtain ⟨hpc, hcount⟩ := hdone i
    rw [counted, hpc, hcount]
    rfl
  rw [(counts_run hr).total, Finset.sum_congr rfl fun i _ => hone i]
  simp

end

/-- Two threads that take their steps in turn draw the same ticket; the second gets the lock
after the first has given it up. -/
theorem mutual_exclusion_main : ∃ h, ∃ s : State 2, Run State.Step start h s ∧
    h.filter (· ≠ .other) = [.unlock 1, .locked 1, .unlock 0, .locked 0, .settle 1, .settle 0,
      .choose 1, .choose 0] ∧ s.shared_resource = 2 * NUM_ITERS := by
  have hrun := Run.exists_of_steps (start : State 2) Step.of_some
    ((List.replicate 15 [0, 1]).flatten ++ List.replicate 20 0 ++ List.replicate 26 1)
    (P := fun h s => h.filter (· ≠ .other) = [.unlock 1, .locked 1, .unlock 0, .locked 0, .settle 1,
      .settle 0, .choose 1, .choose 0] ∧ ∀ i, s.pc i = .out ∧ h.count (.unlock i) = 1)
    (by decide +kernel)
  obtain ⟨h, s, hr, hevents, hdone⟩ := hrun
  exact ⟨h, s, hr, hevents, (mutual_exclusion hr).2 hdone⟩

/-! ### First come, first served -/

/-- Who has said that it has its ticket has its ticket until `lock` returns. -/
def Pc.waits : Pc N → Bool
  | .await _ | .nonzero _ | .less _ | .tie _ => true
  | _ => false

section
variable {s s' : State N} {h : List (Event N)} {i j p : Fin N} {t : State N}

theorem step_choose : (s.step p).2 = .choose i ↔ p = i ∧ s.pc p = .choose := by
  unfold State.step
  cases s.pc p <;> grind [State.pass]

theorem step_settle : (s.step p).2 = .settle i ↔ p = i ∧ s.pc p = .settle := by
  unfold State.step
  cases s.pc p <;> grind [State.pass]

theorem step_locked :
    (s.step p).2 = .locked i ↔ p = i ∧ (s.pc p).waits = true ∧ (s.nextPc p).critical = true := by
  unfold State.step State.nextPc
  cases s.pc p <;> grind [State.pass, Pc.waits, Pc.next, Pc.critical]

theorem nextPc_waits (h : (s.pc p).waits = true) :
    (s.nextPc p).waits = true ∨ (s.nextPc p).critical = true := by
  unfold State.nextPc
  cases hpc : s.pc p <;> grind [Pc.waits, Pc.next, Pc.critical]

theorem step_waits (hi : (s.pc i).waits = true) (hne : (s.step p).2 ≠ .locked i) :
    ((s.step p).1.pc i).waits = true := by
  by_cases hip : i = p
  · subst hip
    rw [step_pc_self]
    exact (nextPc_waits hi).resolve_right fun hcrit => hne (step_locked.mpr ⟨rfl, hi, hcrit⟩)
  · rw [(step_other hip).1]
    exact hi

theorem settled_of_waits {x : Pc N} (h : x.waits = true) : x.settled = true := by
  cases x <;> first | rfl | cases h

/-- Who waits keeps waiting, and who is ahead of `j` stays so, until `lock` returns to it. -/
theorem run_waits (I : Inv s) (hr : Run State.Step s h t) (hi : (s.pc i).waits = true)
    (hnot : .locked i ∉ h) :
    Inv t ∧ (t.pc i).waits = true ∧
    (i ≠ j → Ahead s.number i j (s.pc j) → Ahead t.number i j (t.pc j)) := by
  induction hr with
  | nil => exact ⟨I, hi, fun _ => id⟩
  | snoc _ hs ih =>
    obtain ⟨p, hp⟩ := hs
    obtain ⟨It, hwaits, hahead⟩ := ih fun hmem => hnot (List.mem_cons_of_mem _ hmem)
    have hlocked : (State.step _ p).2 ≠ .locked i := fun heq => by
      rw [hp] at heq
      exact hnot (heq ▸ List.mem_cons_self)
    have hkeep : p = i → State.pc _ i ≠ .unlock := fun _ heq => by
      rw [heq] at hwaits
      cases hwaits
    have hstep : ∀ hij, _ → _ := fun hij ha =>
      (hahead hij ha).step It hij (settled_of_waits hwaits) hkeep
    have hinv := It.step p
    have hw := step_waits hwaits hlocked
    rw [hp] at hinv hw hstep
    exact ⟨hinv, hw, hstep⟩

theorem settle_waits (hr : Run State.Step start (.settle i :: h) s) : (s.pc i).waits = true := by
  cases hr with
  | @snoc _ t _ _ _ hs =>
    obtain ⟨p, hp⟩ := hs
    obtain ⟨rfl, hpc⟩ := step_settle.mp (congrArg Prod.snd hp)
    obtain rfl : (t.step p).1 = s := congrArg Prod.fst hp
    rw [step_pc_self, State.nextPc, hpc]
    rfl

/-- A thread that begins to choose has everyone ahead of it. -/
theorem choose_ahead (hs : State.Step s (.choose j) t) (hi : (s.pc i).waits = true) :
    i ≠ j ∧ (t.pc i).waits = true ∧ Ahead t.number i j (t.pc j) := by
  obtain ⟨p, hp⟩ := hs
  obtain ⟨rfl, hpc⟩ := step_choose.mp (congrArg Prod.snd hp)
  obtain rfl : (s.step p).1 = t := congrArg Prod.fst hp
  have hij : i ≠ p := fun heq => by
    rw [heq, hpc] at hi
    cases hi
  refine ⟨hij, ?_, ?_⟩
  · rw [(step_other hij).1]
    exact hi
  · rw [step_pc_self, State.nextPc, hpc]
    exact fun hlt => absurd hlt (Nat.not_lt_zero _)

/-- `lock` does not return to one that has another ahead of it which waits. -/
theorem not_locked (I : Inv s) (hs : State.Step s (.locked j) t) (hij : i ≠ j)
    (hi : (s.pc i).waits = true) (hahead : Ahead s.number i j (s.pc j)) : False := by
  obtain ⟨p, hp⟩ := hs
  obtain ⟨rfl, -, hcrit⟩ := step_locked.mp (congrArg Prod.snd hp)
  rw [← step_pc_self] at hcrit
  have I' := I.step p
  have hpast := past_of_critical hcrit i
  have hset : ((s.step p).1.pc i).settled = true := by
    rw [(step_other hij).1]
    exact settled_of_waits hi
  exact not_before ((hahead.own hij).before (settled_of_past hpast))
    ((I'.past p i hij.symm hpast).before hset)

/-- `i` has written `choosing[i] = 0` with its ticket before `j` writes `choosing[j] = 1`; then
`lock` returns to `j` only after it has returned to `i`. -/
theorem first_come_first_served {h₀ h₁ h₂ : List (Event N)}
    (hr : Run State.Step start (.locked j :: h₂ ++ .choose j :: (h₁ ++ .settle i :: h₀)) s) :
    .locked i ∈ h₂ ++ h₁ := by
  by_contra hnot
  obtain ⟨hnot₂, hnot₁⟩ := not_or.mp (mt List.mem_append.mpr hnot)
  obtain ⟨b, hchosen, hlater⟩ := hr.split
  cases hchosen with
  | snoc hbefore hchoose =>
    cases hlater with
    | snoc hbetween hlock =>
      obtain ⟨c, hc, hwait⟩ := hbefore.split
      -- `i` waits when `j` begins to choose, and then until `lock` returns to `j`
      obtain ⟨Ia, hi, -⟩ := run_waits (j := j) (inv_run hc) hwait (settle_waits hc) hnot₁
      obtain ⟨hij, hi', hahead⟩ := choose_ahead hchoose hi
      obtain ⟨Iu, hi'', hahead'⟩ := run_waits (inv_run (hbefore.snoc hchoose)) hbetween hi' hnot₂
      exact not_locked Iu hlock hij hi'' (hahead' hij hahead)

end

/-- Thread 1 comes second, and waits until thread 0 is out. -/
theorem first_come_first_served_two : ∃ h₀ h₁ h₂, ∃ s : State 2,
    Run State.Step start (.locked 1 :: h₂ ++ .choose 1 :: (h₁ ++ .settle 0 :: h₀)) s ∧
    .locked 0 ∈ h₂ ++ h₁ := by
  let h₀ : List (Event 2) := List.replicate 3 Event.other ++ [Event.choose 0, .other]
  let h₁ : List (Event 2) := [.other]
  let h₂ : List (Event 2) := List.replicate 5 Event.other ++
    Event.unlock 0 :: List.replicate 20 Event.other ++
    Event.locked 0 :: List.replicate 7 Event.other ++ Event.settle 1 :: List.replicate 3 Event.other
  have hrun := Run.exists_of_steps (start : State 2) Step.of_some
    (List.replicate 6 0 ++ List.replicate 6 1 ++ List.replicate 29 0 ++ List.replicate 6 1)
    (P := fun h _ => h = Event.locked 1 :: h₂ ++ Event.choose 1 :: (h₁ ++ Event.settle 0 :: h₀))
    (by decide +kernel)
  obtain ⟨h, s, hr, rfl⟩ := hrun
  exact ⟨h₀, h₁, h₂, s, hr, first_come_first_served hr⟩

end ThreadKernel.Bakery
