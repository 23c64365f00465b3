import ThreadKernel.Disk.Ide

/-! What the queue of the disk driver holds, on every run.

The buffers in the queue are those with an unfinished request, the drive has the command of
the first, and what it has moved is for that one. A call that is not in the queue any more
has its data. -/
namespace ThreadKernel.Ide

open Lts Linked Function

/-- The bytes of the sector number and the bit of the drive say which block it is. -/
theorem Buf.loc_command {D : Type} (b : Buf D) (hb : b.blockno < FSSIZE) :
    b.command.loc = (b.dev % 2, b.blockno) := by
  have hlba (n : Nat) (hn : n < 1000) : (n &&& 255) + 2 ^ 8 * ((n >>> 8) &&& 255) +
      2 ^ 16 * ((n >>> 16) &&& 255) + 2 ^ 24 * 0 = n ∧ (n >>> 24) &&& 15 = 0 := by
    have h255 (m : Nat) : m &&& 255 = m % 2 ^ 8 := Nat.and_two_pow_sub_one_eq_mod m 8
    have h15 (m : Nat) : m &&& 15 = m % 2 ^ 4 := Nat.and_two_pow_sub_one_eq_mod m 4
    simp only [h255, h15, Nat.shiftRight_eq_div_pow]
    omega
  have hdev : b.dev &&& 1 = b.dev % 2 := Nat.and_two_pow_sub_one_eq_mod b.dev 1
  obtain ⟨hsum, htop⟩ := hlba b.blockno hb
  simp only [Command.loc, Buf.command, BSIZE, SECTOR_SIZE, Nat.div_self, Nat.mul_one, hdev, htop,
    show 0 < 512 by decide]
  obtain hzero | hone := Nat.mod_two_eq_zero_or_one b.dev
  · simpa [hzero] using hsum
  · simpa [hone] using hsum

section
variable {B T D : Type} [DecidableEq B] {s s' : State B T D} {h : List (Event B T D)}
  {e : Event B T D} {l : List B} {b b' : B} {t : T}
  {havedisk1 : Bool} {c : Command D} {d : D}

/-- The drive has the command of the first buffer in the queue. -/
def Active (h : List (Event B T D)) (s : State B T D) : List B → Prop
  | [] => s.drive = .idle
  | b :: _ => (s.buf b).blockno < FSSIZE ∧
    (s.drive = .busy (s.buf b).command ∧ transferred b h = none ∨
      ∃ d, s.drive = .ready (s.buf b).command d ∧
        transferred b h = some ((s.buf b).command, d) ∧ ∀ x, (s.buf b).command.out = some x → d = x)

/-- The block of `b` has been transferred for the last call, which was by `t`. -/
structure Served (h : List (Event B T D)) (s : State B T D) (t : T) (b : B) : Prop where
  synced : (s.buf b).synced = true
  moved : ∃ c d, request b h = some (t, c) ∧ transferred b h = some (c, d) ∧
    c.loc = ((s.buf b).dev % 2, (s.buf b).blockno) ∧ (s.buf b).data = d ∧
    ∀ x, c.out = some x → d = x

structure Inv (h : List (Event B T D)) (s : State B T D) (l : List B) : Prop where
  spans : Spans s.qnext s.idequeue l
  nodup : l.Nodup
  queued : collect Event.queued h = collect Event.completed h ++ l
  started : collect Event.started h = collect Event.completed h ++ l.take 1
  mem : ∀ b, b ∈ l ↔ unfinished b h = true
  active : Active h s l
  rest : ∀ b ∈ l.tail, transferred b h = none
  waits : ∀ b ∈ l, ∃ t, s.calls t = some b
  locked : ∀ t b, s.calls t = some b → s.lock b = some t
  asked : ∀ t b, s.calls t = some b → b ∈ l →
    (s.buf b).synced = false ∧ request b h = some (t, (s.buf b).command)
  served : ∀ t b, s.calls t = some b → b ∉ l → Served h s t b

/-- A step that does nothing to the buffers of the calls. -/
theorem Inv.quiet (I : Inv h s l) (hqnext : s'.qnext = s.qnext) (hqueue : s'.idequeue = s.idequeue)
    (hdrive : s'.drive = s.drive) (hcalls : s'.calls = s.calls)
    (hbuf : ∀ t b, s.calls t = some b → s'.buf b = s.buf b)
    (hlock : ∀ t b, s.calls t = some b → s'.lock b = s.lock b) : Inv (.other :: h) s' l where
  spans := by
    rw [hqnext, hqueue]
    exact I.spans
  nodup := I.nodup
  queued := by simpa [collect, Event.queued, Event.completed] using I.queued
  started := by simpa [collect, Event.started, Event.completed] using I.started
  mem := I.mem
  active := by
    have hactive := I.active
    cases l with
    | nil => exact hdrive.trans hactive
    | cons b l =>
      obtain ⟨t, ht⟩ := I.waits b List.mem_cons_self
      simp only [Active, hbuf t b ht, hdrive]
      exact hactive
  rest := I.rest
  waits := by
    rw [hcalls]
    exact I.waits
  locked t b hb := by
    rw [hcalls] at hb
    rw [hlock t b hb]
    exact I.locked t b hb
  asked t b hb := by
    rw [hcalls] at hb
    rw [hbuf t b hb]
    exact I.asked t b hb
  served t b hb hmem := by
    rw [hcalls] at hb
    obtain ⟨hsynced, hmoved⟩ := I.served t b hb hmem
    rw [← hbuf t b hb] at hsynced hmoved
    exact ⟨hsynced, hmoved⟩

theorem Inv.holder (I : Inv h s l) (hlock : s.lock b = some t) (hcalls : s.calls t = none) (t' : T) :
    s.calls t' ≠ some b := by
  intro hb
  have hlock' := I.locked t' b hb
  rw [hlock] at hlock'
  cases hlock'
  rw [hcalls] at hb
  cases hb

theorem Inv.transfer (I : Inv h s l) (hdrive : s.drive = .busy c)
    (hd : ∀ x, c.out = some x → d = x) (hsame : s'.buf = s.buf) (hqnext : s'.qnext = s.qnext)
    (hqueue : s'.idequeue = s.idequeue) (hcalls : s'.calls = s.calls) (hlock : s'.lock = s.lock)
    (hdrive' : s'.drive = .ready c d) : Inv (.transfer s.idequeue c d :: h) s' l := by
  obtain ⟨b, l, rfl⟩ : ∃ b l', l = b :: l' := by
    cases l with
    | nil =>
      have hidle : s.drive = .idle := I.active
      rw [hidle] at hdrive
      cases hdrive
    | cons b l => exact ⟨b, l, rfl⟩
  have hhead : s.idequeue = some b := I.spans.head_eq
  obtain ⟨hblock, hactive⟩ := I.active
  obtain rfl : c = (s.buf b).command := by
    obtain ⟨hbusy, -⟩ | ⟨d', hready, -⟩ := hactive
    · rw [hbusy] at hdrive
      cases hdrive
      rfl
    · rw [hready] at hdrive
      cases hdrive
  have hother : ∀ b', b' ≠ b → transferred b' (.transfer s.idequeue (s.buf b).command d :: h) =
      transferred b' h := by
    intro b' hne
    rw [transferred, hhead, if_neg]
    exact fun heq => hne (Option.some.inj heq).symm
  exact {
    spans := by
      rw [hqnext, hqueue]
      exact I.spans
    nodup := I.nodup
    queued := by simpa [collect, Event.queued, Event.completed] using I.queued
    started := by simpa [collect, Event.started, Event.completed] using I.started
    mem := I.mem
    active := by
      simp only [Active, hsame, hdrive', transferred, hhead, if_true]
      exact ⟨hblock, .inr ⟨d, rfl, rfl, hd⟩⟩
    rest := fun b' hb' => by
      rw [hother b' fun heq => (List.nodup_cons.mp I.nodup).1 (heq ▸ hb')]
      exact I.rest b' hb'
    waits := by
      rw [hcalls]
      exact I.waits
    locked := by
      rw [hcalls, hlock]
      exact I.locked
    asked := by
      rw [hcalls, hsame]
      exact I.asked
    served := fun t b' hb' hmem => by
      rw [hcalls] at hb'
      obtain ⟨hsynced, hmoved⟩ := I.served t b' hb' hmem
      rw [← hsame] at hsynced hmoved
      rw [← hother b' fun heq => hmem (heq ▸ List.mem_cons_self)] at hmoved
      exact ⟨hsynced, hmoved⟩ }

/-- What `ideintr` leaves of a buffer. -/
def Buf.finish (x : Buf D) (insl : D) : Buf D :=
  {x with data := if x.dirty then x.data else insl, valid := true, dirty := false}

section
variable (I : Inv h s (b :: l)) (hdrive : s.drive = .ready c d)
  (hbuf : s'.buf = update s.buf b ((s.buf b).finish d))
include I hdrive hbuf

theorem Inv.finish {next : Option B}
    (hb : s.calls t = some b) : Served (.intr (some b) next :: h) s' t b := by
  obtain ⟨-, hrequest⟩ := I.asked t b hb List.mem_cons_self
  obtain ⟨hblock, ⟨hbusy, -⟩ | ⟨d', hready, hmoved, hout⟩⟩ := I.active
  · rw [hbusy] at hdrive
    cases hdrive
  · rw [hready] at hdrive
    cases hdrive
    refine ⟨?_, _, _, hrequest, hmoved, ?_, ?_, hout⟩
    · rw [hbuf, update_self]
      rfl
    · rw [hbuf, update_self]
      exact (s.buf b).loc_command hblock
    · rw [hbuf, update_self]
      by_cases hdirty : (s.buf b).dirty = true
      · have hsent := hout (s.buf b).data (by simp [Buf.command, hdirty])
        simpa [Buf.finish, hdirty] using hsent.symm
      · simp [Buf.finish, hdirty]

/-- The first buffer is finished, and the drive has the command of the next. -/
theorem Inv.intr (hqnext : s'.qnext = s.qnext)
    (hqueue : s'.idequeue = s.qnext b) (hcalls : s'.calls = s.calls) (hlock : s'.lock = s.lock)
    (hactive : ∀ h, (∀ b' ∈ l, transferred b' h = none) → Active h s' l) :
    Inv (.intr (some b) l.head? :: h) s' l := by
  obtain ⟨hnot, hnodup⟩ := List.nodup_cons.mp I.nodup
  have hsame : ∀ b', b' ≠ b → s'.buf b' = s.buf b' := fun b' hne => by
    rw [hbuf, update_of_ne hne]
  have hne : ∀ b' ∈ l, b' ≠ b := fun b' hmem heq => hnot (heq ▸ hmem)
  exact {
    spans := by
      rw [hqnext, hqueue]
      exact I.spans.2
    nodup := hnodup
    queued := by simpa [collect, Event.queued, Event.completed] using I.queued
    started := by
      have hold := I.started
      simp [collect, Event.started, Event.completed, List.take_one, hold]
    mem := fun b' => by
      have hold := I.mem b'
      by_cases heq : b' = b
      · subst heq
        simp [unfinished, hnot]
      · simp only [unfinished, Option.some.injEq, ne_eq, Ne.symm heq, not_false_eq_true,
          decide_true, Bool.true_and, ← hold, List.mem_cons, heq, false_or]
    active := hactive _ I.rest
    rest := fun b' hb' => I.rest b' (List.mem_of_mem_tail hb')
    waits := fun b' hb' => by
      rw [hcalls]
      exact I.waits b' (List.mem_cons_of_mem b hb')
    locked := by
      rw [hcalls, hlock]
      exact I.locked
    asked := fun t b' hb' hmem => by
      rw [hcalls] at hb'
      rw [hsame b' (hne b' hmem)]
      exact I.asked t b' hb' (List.mem_cons_of_mem b hmem)
    served := fun t b' hb' hmem => by
      rw [hcalls] at hb'
      by_cases heq : b' = b
      · subst heq
        exact I.finish hdrive hbuf hb'
      · obtain ⟨hsynced, hmoved⟩ := I.served t b' hb' (by simp [heq, hmem])
        rw [← hsame b' heq] at hsynced hmoved
        exact ⟨hsynced, hmoved⟩ }

end

omit [DecidableEq B] in
theorem idestart_some (hs : s.idestart b = some s') : (s.buf b).blockno < FSSIZE ∧
    s' = {s with drive := .busy (s.buf b).command} := by
  unfold State.idestart at hs
  split at hs
  · cases hs
  · next hblock =>
    refine ⟨Nat.lt_of_not_le hblock, ?_⟩
    split at hs
    · cases hs
    · exact (Option.some.inj hs).symm

variable [DecidableEq T]

theorem Inv.ret (I : Inv h s l) (hb : s.calls t = some b) (hsynced : (s.buf b).synced = true) :
    Inv (.ret t b :: h) {s with calls := update s.calls t none} l := by
  have hout : b ∉ l := fun hmem => by
    rw [(I.asked t b hb hmem).1] at hsynced
    cases hsynced
  have hcalls : ∀ t' b', update s.calls t none t' = some b' → s.calls t' = some b' := by
    intro t' b' hb'
    rw [update_apply] at hb'
    split at hb'
    · cases hb'
    · exact hb'
  exact {
    spans := I.spans
    nodup := I.nodup
    queued := by simpa [collect, Event.queued, Event.completed] using I.queued
    started := by simpa [collect, Event.started, Event.completed] using I.started
    mem := I.mem
    active := by
      cases l with
      | nil => exact I.active
      | cons c l => exact I.active
    rest := I.rest
    waits := fun b' hb' => by
      obtain ⟨t', ht'⟩ := I.waits b' hb'
      refine ⟨t', ?_⟩
      dsimp only
      rw [update_of_ne]
      · exact ht'
      · intro heq
        rw [heq, hb] at ht'
        cases ht'
        exact hout hb'
    locked := fun t' b' hb' => I.locked t' b' (hcalls t' b' hb')
    asked := fun t' b' hb' => I.asked t' b' (hcalls t' b' hb')
    served := fun t' b' hb' hmem => by
      obtain ⟨hsync, hmoved⟩ := I.served t' b' (hcalls t' b' hb') hmem
      exact ⟨hsync, hmoved⟩ }

theorem Inv.call (I : Inv h s l) (hlock : s.lock b = some t) (hcalls : s.calls t = none)
    (hsynced : (s.buf b).synced = false) (hspans : Spans s'.qnext s'.idequeue (l ++ [b]))
    (hbuf : s'.buf = s.buf) (hcalls' : s'.calls = update s.calls t (some b))
    (hlock' : s'.lock = s.lock)
    (hfirst : l = [] → s'.drive = .busy (s.buf b).command ∧ (s.buf b).blockno < FSSIZE)
    (hlater : l ≠ [] → s'.drive = s.drive) :
    Inv (.call t b (s.buf b).command l.isEmpty :: h) s' (l ++ [b]) := by
  have hnone := I.holder hlock hcalls
  have hnot : b ∉ l := fun hmem => by
    obtain ⟨t', ht'⟩ := I.waits b hmem
    exact hnone t' ht'
  have hmoved : ∀ b' ≠ b, transferred b' (.call t b (s.buf b).command l.isEmpty :: h) =
      transferred b' h := fun b' hne => by rw [transferred, if_neg (Ne.symm hne)]
  have hrequest : ∀ b' ≠ b, request b' (.call t b (s.buf b).command l.isEmpty :: h) =
      request b' h := fun b' hne => by rw [request, if_neg (Ne.symm hne)]
  have hold : ∀ {t' b'}, s'.calls t' = some b' →
      t' = t ∧ b' = b ∨ s.calls t' = some b' ∧ b' ≠ b := by
    intro t' b' hb'
    rw [hcalls', update_apply] at hb'
    split at hb'
    · next heq => exact .inl ⟨heq, (Option.some.inj hb').symm⟩
    · exact .inr ⟨hb', fun heq => hnone t' (heq ▸ hb')⟩
  exact {
    spans := hspans
    nodup := List.nodup_append.mpr ⟨I.nodup, List.nodup_singleton b, by
      intro b' hb' c hc heq
      rw [List.mem_singleton.mp hc] at heq
      exact hnot (heq ▸ hb')⟩
    queued := by simp [collect, Event.queued, Event.completed, I.queued]
    started := by
      cases l with
      | nil | cons c l => simpa [collect, Event.started, Event.completed] using I.started
    mem := fun b' => by
      rw [unfinished, Bool.or_eq_true, decide_eq_true_eq, ← I.mem b', List.mem_append,
        List.mem_singleton, or_comm, eq_comm]
    active := by
      cases l with
      | nil =>
        obtain ⟨hbusy, hblock⟩ := hfirst rfl
        simp only [List.nil_append, Active, hbuf]
        exact ⟨hblock, .inl ⟨hbusy, by simp [transferred]⟩⟩
      | cons c l =>
        have hne : c ≠ b := fun heq => hnot (heq ▸ List.mem_cons_self)
        have hactive := I.active
        simp only [List.cons_append, Active, hbuf, hmoved c hne, hlater (List.cons_ne_nil c l)] at *
        exact hactive
    rest := fun b' hb' => by
      by_cases heq : b' = b
      · rw [heq]
        simp [transferred]
      · rw [hmoved b' heq]
        cases l with
        | nil => cases hb'
        | cons c l =>
          refine I.rest b' ?_
          obtain hmem | hmem := List.mem_append.mp hb'
          · exact hmem
          · exact absurd (List.mem_singleton.mp hmem) heq
    waits := fun b' hb' => by
      rw [hcalls']
      obtain hmem | hmem := List.mem_append.mp hb'
      · obtain ⟨t', ht'⟩ := I.waits b' hmem
        refine ⟨t', ?_⟩
        rw [update_of_ne]
        · exact ht'
        · intro heq
          rw [heq, hcalls] at ht'
          cases ht'
      · rw [List.mem_singleton.mp hmem]
        exact ⟨t, update_self t _ _⟩
    locked := fun t' b' hb' => by
      rw [hlock']
      obtain ⟨rfl, rfl⟩ | ⟨hb', -⟩ := hold hb'
      · exact hlock
      · exact I.locked t' b' hb'
    asked := fun t' b' hb' hmem => by
      rw [hbuf]
      obtain ⟨rfl, rfl⟩ | ⟨hb', hne⟩ := hold hb'
      · exact ⟨hsynced, by simp [request]⟩
      · rw [hrequest b' hne]
        refine I.asked t' b' hb' ((List.mem_append.mp hmem).resolve_right fun hmem => ?_)
        exact hne (List.mem_singleton.mp hmem)
    served := fun t' b' hb' hmem => by
      obtain ⟨rfl, rfl⟩ | ⟨hb', hne⟩ := hold hb'
      · exact absurd (List.mem_append_right l List.mem_cons_self) hmem
      · obtain ⟨hsync, hserved⟩ := I.served t' b' hb' fun hin => hmem (List.mem_append_left [b] hin)
        rw [← hbuf, ← hmoved b' hne, ← hrequest b' hne] at hserved
        rw [← hbuf] at hsync
        exact ⟨hsync, hserved⟩ }

variable [Fintype B]

theorem Inv.iderw (I : Inv h s l) (hcalls : s.calls t = none)
    (hs : s.iderw havedisk1 t b = some (s', e)) : Inv (e :: h) s' (l ++ [b]) := by
  unfold State.iderw at hs
  dsimp only at hs
  split at hs
  · cases hs
  · next hok =>
    simp only [ne_eq, not_or, not_not, Bool.not_eq_true] at hok
    obtain ⟨hlock, hsynced, -⟩ := hok
    have hnot : b ∉ l := fun hmem => by
      obtain ⟨t', ht'⟩ := I.waits b hmem
      exact I.holder hlock hcalls t' ht'
    obtain ⟨qnext, head, happend, hspans⟩ := I.spans.append I.nodup hnot I.nodup.length_le_card
    rw [happend] at hs
    have hhead : head = some b ↔ l = [] := by
      rw [hspans.head_eq]
      cases l with
      | nil => simp
      | cons c l =>
        simp only [List.cons_append, List.head?_cons, Option.some.injEq, reduceCtorEq, iff_false]
        exact fun heq => hnot (heq ▸ List.mem_cons_self)
    dsimp only at hs
    split at hs
    · next hfirst =>
      obtain ⟨s₁, hstart, heq⟩ := Option.map_eq_some_iff.mp hs
      cases heq
      obtain ⟨hblock, rfl⟩ := idestart_some hstart
      have hnil := hhead.mp hfirst
      subst hnil
      exact I.call hlock hcalls hsynced hspans rfl rfl rfl (fun _ => ⟨rfl, hblock⟩) (absurd rfl)
    · next hlater =>
      cases hs
      have hne : l ≠ [] := fun hnil => hlater (hhead.mpr hnil)
      rw [← List.isEmpty_eq_false_iff.mpr hne]
      exact I.call hlock hcalls hsynced hspans rfl rfl rfl (absurd · hne) fun _ => rfl

omit [DecidableEq T] [Fintype B] in
theorem Inv.ideintr (I : Inv h s l) (hdrive : s.drive = .ready c d)
    (hs : {s with drive := .idle}.ideintr d = some (s', e)) : Inv (e :: h) s' l.tail := by
  obtain ⟨b, l, rfl⟩ : ∃ b l', l = b :: l' := by
    cases l with
    | nil =>
      have hidle : s.drive = .idle := I.active
      rw [hidle] at hdrive
      cases hdrive
    | cons b l => exact ⟨b, l, rfl⟩
  have hhead : s.idequeue = some b := I.spans.head_eq
  have hnext : s.qnext b = l.head? := I.spans.2.head_eq
  unfold State.ideintr at hs
  rw [hhead] at hs
  dsimp only [State.setBuf] at hs
  rw [hnext] at hs
  cases l with
  | nil =>
    cases hs
    exact I.intr hdrive rfl rfl hnext.symm rfl rfl fun _ _ => rfl
  | cons next l =>
    obtain ⟨s₁, hstart, heq⟩ := Option.map_eq_some_iff.mp hs
    cases heq
    obtain ⟨hblock, rfl⟩ := idestart_some hstart
    refine I.intr hdrive rfl rfl hnext.symm rfl rfl fun h hnone => ⟨hblock, .inl ⟨rfl, ?_⟩⟩
    exact hnone next List.mem_cons_self

theorem Inv.step (I : Inv h s l) (hs : s.Step havedisk1 e s') : ∃ l', Inv (e :: h) s' l' := by
  obtain ⟨a, ha⟩ := hs
  cases a with
  | iderw t b =>
    simp only [State.step, Option.ite_none_right_eq_some] at ha
    exact ⟨_, I.iderw ha.1 ha.2⟩
  | wake t =>
    simp only [State.step] at ha
    split at ha
    · cases ha
    · next b hb =>
      split at ha
      · next hsynced =>
        cases ha
        exact ⟨l, I.ret hb hsynced⟩
      · cases ha
        exact ⟨l, I.quiet rfl rfl rfl rfl (fun _ _ _ => rfl) fun _ _ _ => rfl⟩
  | complete =>
    simp only [State.step] at ha
    split at ha
    · next c hc =>
      cases hout : c.out with
      | some d =>
        simp only [State.complete, hout, Option.some.injEq, Prod.mk.injEq] at ha
        obtain ⟨rfl, rfl⟩ := ha
        refine ⟨l, I.transfer hc (fun x hx => ?_) rfl rfl rfl rfl rfl rfl⟩
        rw [hout] at hx
        exact Option.some.inj hx
      | none =>
        simp only [State.complete, hout, Option.some.injEq, Prod.mk.injEq] at ha
        obtain ⟨rfl, rfl⟩ := ha
        refine ⟨l, I.transfer hc (fun x hx => ?_) rfl rfl rfl rfl rfl rfl⟩
        rw [hout] at hx
        cases hx
    · cases ha
  | ideintr =>
    simp only [State.step] at ha
    split at ha
    · next c d hdrive => exact ⟨_, I.ideintr hdrive ha⟩
    · cases ha
  | acquiresleep t b =>
    obtain ⟨⟨-, hfree⟩, heq⟩ := Option.ite_none_right_eq_some.mp ha
    cases heq
    refine ⟨l, I.quiet rfl rfl rfl rfl (fun _ _ _ => rfl) fun t' b' hb' => ?_⟩
    refine update_of_ne (fun heq => ?_) _ _
    have hlock := I.locked t' b' hb'
    rw [heq, hfree] at hlock
    cases hlock
  | releasesleep t b =>
    obtain ⟨⟨hcalls, hlock⟩, heq⟩ := Option.ite_none_right_eq_some.mp ha
    cases heq
    refine ⟨l, I.quiet rfl rfl rfl rfl (fun _ _ _ => rfl) fun t' b' hb' => ?_⟩
    have hne : b' ≠ b := fun heq => I.holder hlock hcalls t' (heq ▸ hb')
    exact update_of_ne hne _ _
  | modify t b valid dirty data =>
    obtain ⟨⟨hcalls, hlock⟩, heq⟩ := Option.ite_none_right_eq_some.mp ha
    cases heq
    refine ⟨l, I.quiet rfl rfl rfl rfl (fun t' b' hb' => ?_) fun _ _ _ => rfl⟩
    have hne : b' ≠ b := fun heq => I.holder hlock hcalls t' (heq ▸ hb')
    exact update_of_ne hne _ _
  | bget b dev blockno =>
    obtain ⟨hfree, heq⟩ := Option.ite_none_right_eq_some.mp ha
    cases heq
    refine ⟨l, I.quiet rfl rfl rfl rfl (fun t' b' hb' => ?_) fun _ _ _ => rfl⟩
    refine update_of_ne (fun heq => ?_) _ _
    have hlock := I.locked t' b' hb'
    rw [heq, hfree] at hlock
    cases hlock

/-- What a step does to the disk: a call asks for a write if the buffer is dirty and for a
read if not, a read gets what the disk has, a write leaves its data there. -/
def Event.Tells (s s' : State B T D) : Event B T D → Prop
  | .call _ b c _ => c.out = (if (s.buf b).dirty then some (s.buf b).data else none) ∧
    s'.disk = s.disk
  | .transfer _ c d => (c.out = none → d = s.disk c.loc ∧ s'.disk = s.disk) ∧
    ∀ x, c.out = some x → d = x ∧ s'.disk = update s.disk c.loc x
  | .intr _ _ | .ret _ _ | .other => s'.disk = s.disk

theorem step_tells {e : Event B T D} (hs : s.Step havedisk1 e s') : e.Tells s s' := by
  obtain ⟨a, ha⟩ := hs
  cases a with
  | iderw t b =>
    obtain ⟨-, ha⟩ := Option.ite_none_right_eq_some.mp ha
    obtain ⟨-, ha⟩ := Option.ite_none_left_eq_some.mp ha
    split at ha
    · cases ha
    · split at ha
      · obtain ⟨s₁, hstart, heq⟩ := Option.map_eq_some_iff.mp ha
        obtain ⟨-, rfl⟩ := idestart_some hstart
        cases heq
        exact ⟨rfl, rfl⟩
      · cases ha
        exact ⟨rfl, rfl⟩
  | ideintr =>
    simp only [State.step, State.ideintr] at ha
    split at ha
    · split at ha
      · cases ha
        rfl
      · split at ha
        · cases ha
          rfl
        · obtain ⟨s₁, hstart, heq⟩ := Option.map_eq_some_iff.mp ha
          obtain ⟨-, rfl⟩ := idestart_some hstart
          cases heq
          rfl
    · cases ha
  | complete =>
    simp only [State.step, State.complete] at ha
    grind [Event.Tells]
  | _ =>
    simp only [State.step, State.setBuf] at ha
    grind [Event.Tells]

theorem step_ret (hs : s.Step havedisk1 (.ret t b) s') :
    s.calls t = some b ∧ (s.buf b).synced = true ∧ s'.buf = s.buf := by
  obtain ⟨a, ha⟩ := hs
  cases a with
  | wake t' =>
    simp only [State.step] at ha
    split at ha
    · cases ha
    · next b' hb' =>
      split at ha
      · next hsynced =>
        cases ha
        exact ⟨hb', hsynced, rfl⟩
      · cases ha
  | iderw t' b' =>
    simp only [State.step, State.iderw] at ha
    grind [Option.map_eq_some_iff]
  | ideintr =>
    simp only [State.step, State.ideintr] at ha
    grind [Option.map_eq_some_iff]
  | complete =>
    simp only [State.step, State.complete] at ha
    grind
  | _ =>
    simp only [State.step] at ha
    grind

omit [Fintype B] [DecidableEq T] in
theorem inv_start (buf : B → Buf D) (qnext : B → Option B) (disk : Nat × Nat → D) :
    Inv [] (start buf qnext disk : State B T D) [] where
  spans := rfl
  nodup := List.nodup_nil
  queued := rfl
  started := rfl
  mem _ := by simp [unfinished]
  active := rfl
  rest _ := nofun
  waits _ := nofun
  locked _ _ := nofun
  asked _ _ := nofun
  served _ _ := nofun

theorem inv_run {buf : B → Buf D} {qnext : B → Option B} {disk : Nat × Nat → D}
    (hr : Run (State.Step havedisk1) (start buf qnext disk) h s) : ∃ l, Inv h s l :=
  hr.invariant (fun h s => ∃ l, Inv h s l) ⟨[], inv_start buf qnext disk⟩
    fun _ _ _ _ _ ⟨_, I⟩ hs => I.step hs

/-- The queue is a list without repetitions of the buffers whose requests are not finished, in
the order of the calls, after those that are; each request is started once, when it is the
first, and the drive has its command until it is finished. A call returns with its block
transferred as it asked for it, and its data is what went over. -/
theorem disk_queue {buf : B → Buf D} {qnext : B → Option B} {disk : Nat × Nat → D}
    (hr : Run (State.Step havedisk1) (start buf qnext disk) h s) :
    (∃ l, Spans s.qnext s.idequeue l ∧ l.Nodup ∧ (∀ b, b ∈ l ↔ unfinished b h = true) ∧
      collect Event.queued h = collect Event.completed h ++ l ∧
      collect Event.started h = collect Event.completed h ++ l.head?.toList ∧
      (∀ b, l.head? = some b → s.drive = .busy (s.buf b).command ∨
        ∃ d, s.drive = .ready (s.buf b).command d) ∧
      (l = [] → s.drive = .idle)) ∧
    (∀ t b s', s.Step havedisk1 (.ret t b) s' →
      ((s'.buf b).valid = true ∧ (s'.buf b).dirty = false) ∧
      ∃ c d, request b h = some (t, c) ∧ transferred b h = some (c, d) ∧
        c.loc = ((s'.buf b).dev % 2, (s'.buf b).blockno) ∧ (s'.buf b).data = d ∧
        ∀ x, c.out = some x → d = x) ∧
    ∀ e s', s.Step havedisk1 e s' → e.Tells s s' := by
  obtain ⟨l, I⟩ := inv_run hr
  refine ⟨⟨l, I.spans, I.nodup, I.mem, I.queued, ?_, fun b hb => ?_, fun hnil => ?_⟩, ?_,
    fun e s' => step_tells⟩
  · rw [← List.take_one]
    exact I.started
  · obtain ⟨l, rfl⟩ : ∃ l', l = b :: l' := List.head?_eq_some_iff.mp hb
    obtain ⟨-, ⟨hbusy, -⟩ | ⟨d, hready, -⟩⟩ := I.active
    · exact .inl hbusy
    · exact .inr ⟨d, hready⟩
  · subst hnil
    exact I.active
  · intro t b s' hs
    obtain ⟨hb, hsynced, hbuf⟩ := step_ret hs
    have hout : b ∉ l := fun hmem => by
      rw [(I.asked t b hb hmem).1] at hsynced
      cases hsynced
    rw [hbuf]
    exact ⟨by simpa [Buf.synced] using hsynced, (I.served t b hb hout).moved⟩

end

def blank : State (Fin 2) (Fin 2) Nat :=
  start (fun _ => ⟨false, false, 0, 0, 0⟩) (fun _ => none) fun _ => 0

/-- One task writes block 3 and another reads it; the read was queued second. -/
theorem disk_queue_two : ∃ h, ∃ s s' : State (Fin 2) (Fin 2) Nat,
    Run (State.Step false) blank h s ∧
    s.Step false (.ret 1 1) s' ∧ ((s'.buf 1).valid = true ∧ (s'.buf 1).dirty = false) ∧
    (s'.buf 1).data = 7 ∧ s'.disk = s.disk ∧
    ∃ c d, request 1 h = some (1, c) ∧ transferred 1 h = some (c, d) ∧ (s'.buf 1).data = d := by
  have hrun := Run.exists_of_steps blank
    (fun s a s' e hs => (⟨a, hs⟩ : s.Step false e s'))
    [.bget 0 0 3, .bget 1 0 3, .acquiresleep 0 0, .acquiresleep 1 1, .modify 0 0 true true 7,
      .iderw 0 0, .iderw 1 1, .complete, .ideintr, .wake 0, .complete, .ideintr]
    (P := fun _ s => (s.step false (.wake 1)).any (fun r => r.2 = .ret 1 1 ∧ (r.1.buf 1).data = 7) = true)
    (by decide +kernel)
  obtain ⟨h, s, hr, hp⟩ := hrun
  obtain ⟨s', hstep, hseven⟩ := exists_of_any (Q := fun s : State (Fin 2) (Fin 2) Nat => (s.buf 1).data = 7) hp
  obtain ⟨hflags, c, d, hreq, hmoved, -, hdata, -⟩ := (disk_queue hr).2.1 1 1 s' ⟨.wake 1, hstep⟩
  have hdisk := (disk_queue hr).2.2 _ s' ⟨.wake 1, hstep⟩
  exact ⟨h, s, s', hr, ⟨.wake 1, hstep⟩, hflags, hseven, hdisk, c, d, hreq, hmoved, hdata⟩

end ThreadKernel.Ide
