import ThreadKernel.Registry.Exec
import ThreadKernel.Registry.Master

/-! When an address space is freed.

`wait` frees the page directory of a zombie it gives back when `numOfThread` says that it
is the last of its process, and `exec` frees the old directory once `kill_other_threads`
has run. Both are right as long as the count is no less than the procs there are and every
live thread is registered, and this is what `thread_create` beyond the sixth thread, a
`thread_join` that takes somebody else's zombie and a `wait` on a list with somebody else's
zombies spoil. A count that is too high does no harm here. -/
namespace ThreadKernel

open Table Lts Function

namespace Table

/-- The procs of page `a` that are live or have not been given back. -/
def crowd (t : Table) (a : Page) : Finset Slot :=
  Finset.univ.filter fun q => (t.entry q).phase.present = true ∧ (t.entry q).share = some a

/-- What a move is asked to find, so that no count is too low. -/
def Counts (t : Table) : Event → Prop
  | .created _ _ own _ => (t.reg own).free ≠ none
  | .joined cur p _ _ => (t.entry p).share = (t.entry cur).share
  | .waited _ child _ => ∀ a, (t.entry child).share = some a → t.Alive a → ∀ i q,
      (t.reg a).threads i = some q → (t.entry q).phase = .zombie → (t.entry q).share = some a
  | .quiet | .handedOut _ | .forked _ _ | .threadExited _ _ | .exited _ | .killedOthers _
  | .execed _ => True

end Table

/-- Every live proc is registered, no count of a live process is too low, and a proc in
the middle of `exec` is the only live one of its process. -/
structure Tally (t : Table) : Prop extends Enrolled t where
  count : ∀ {a}, t.Alive a → ((t.crowd a).card : Int) ≤ (t.reg a).count
  busy : ∀ {q q' init a}, (t.entry q).phase = .live (.exec init) → (t.entry q).share = some a →
    t.Member q' a → q' = q

variable {t t' : Table} {e : Event} {cur q q' : Slot} {a : Page} {init : Bool}

namespace Tally

theorem mem_crowd : q ∈ t.crowd a ↔ (t.entry q).phase.present = true ∧ (t.entry q).share = some a := by
  simp [crowd]

theorem member_crowd (hq : t.Member q a) : q ∈ t.crowd a :=
  mem_crowd.mpr ⟨Phase.present_of_live hq.1, hq.2⟩

theorem not_mem_crowd_of_free (hq : (t.entry q).phase = .free) : q ∉ t.crowd a := by
  intro h
  have := (mem_crowd.mp h).1
  rw [hq] at this
  cases this

/-- Who has come to the crowd of a page: a child just published, a new thread, or somebody
that `exit` took with it, together with everyone else. -/
theorem newcomer (hm : Move t e t') (hq : q ∈ t'.crowd a) (hnew : q ∉ t.crowd a)
    (ha : t'.Alive a) : t'.Member q a := by
  obtain ⟨hpresent, hshare⟩ := mem_crowd.mp hq
  rw [mem_crowd] at hnew
  cases hm.turn q with
  | same _ hentry =>
    rw [hentry] at hpresent hshare
    exact absurd ⟨hpresent, hshare⟩ hnew
  | setUp _ _ hphase =>
    rw [Phase.not_present_of_setUp hphase] at hpresent
    cases hpresent
  | publish _ _ _ hentry | create _ _ _ _ hentry => exact ⟨by rw [Live, hentry]; rfl, hshare⟩
  | threadExit _ hphase hentry
  | enterExec _ hphase hentry | commit _ hphase hentry | leaveExec _ hphase hentry =>
    simp only [hentry] at hshare
    exact absurd ⟨by rw [hphase]; rfl, hshare⟩ hnew
  | exit _ _ _ hb hkilled =>
    simp only [hkilled, killed, if_pos hb] at hshare
    obtain rfl := Option.some.inj (hb.symm.trans hshare)
    rw [hkilled] at ha
    exact absurd ha not_alive_killed
  | handOut _ _ hentry | reap _ _ hentry | join _ _ hentry | freed _ _ hentry =>
    simp only [hentry] at hpresent
    cases hpresent

section
variable (hs : Tally t)
include hs

/-- With nobody new, the count goes down by no more than the crowd does. -/
theorem move_count_of_subset (hm : Move t e t') (hrule : t.Counts e)
    (hsub : t'.crowd a ⊆ t.crowd a) (ha : t'.Alive a) :
    ((t'.crowd a).card : Int) ≤ (t'.reg a).count := by
  have hold : t.Alive a := by
    obtain ⟨q, hq⟩ := ha
    have hin := (mem_crowd.mp (hsub (member_crowd hq))).1
    rcases (hm.turn q).member hq with ⟨hold, -⟩ | ⟨cur, -, hpaged, -⟩ | ⟨cur, i, -, -, -, hembryo, -⟩
    · exact ⟨q, hold⟩
    · rw [hpaged] at hin
      cases hin
    · rw [Phase.not_embryo_of_present hin] at hembryo
      cases hembryo
  have hcount := hs.count hold
  have hle := Finset.card_le_card hsub
  cases hm.regTurn a with
  | same hreg =>
    rw [hreg]
    omega
  | blank hnext =>
    obtain ⟨q, hq⟩ := hold
    exact absurd hnext (hs.pages.not_new_of_member hq).1
  | publish _ hpaged hnpa =>
    obtain ⟨q, hq⟩ := hold
    exact absurd hnpa ((hs.pages.not_new_of_member hq).2 hpaged)
  | add _ _ _ _ hreg =>
    rw [hreg]
    simp only [Registry.Reg.add]
    omega
  | clear _ _ _ hreg =>
    rw [hreg]
    simp only [Registry.Reg.clear]
    omega
  | @join cur p i v he hcura hp hfree hreg =>
    subst he
    have hin : p ∈ t.crowd a := mem_crowd.mpr ⟨by rw [hp]; rfl, hrule.trans hcura⟩
    have hless : t'.crowd a ⊆ (t.crowd a).erase p := by
      intro q hq
      refine Finset.mem_erase.mpr ⟨?_, hsub hq⟩
      rintro rfl
      exact not_mem_crowd_of_free hfree hq
    have hcard := Finset.card_le_card hless
    rw [Finset.card_erase_of_mem hin] at hcard
    have hpos := Finset.card_pos.mpr ⟨p, hin⟩
    rw [hreg]
    show _ ≤ (t.reg a).count - 1
    omega
  | reap gone he hchild hgone hfree hreg =>
    subst he
    have hin : Finset.univ.filter gone ⊆ t.crowd a := by
      intro q hq
      obtain ⟨hz, i, hi⟩ := hgone q (Finset.mem_filter.mp hq).2
      exact mem_crowd.mpr ⟨by rw [hz]; rfl, hrule a hchild hold i q hi hz⟩
    have hless : t'.crowd a ⊆ t.crowd a \ Finset.univ.filter gone := by
      intro q hq
      refine Finset.mem_sdiff.mpr ⟨hsub hq, fun hg => ?_⟩
      exact not_mem_crowd_of_free (hfree q (Finset.mem_filter.mp hg).2) hq
    have hcard := Finset.card_le_card hless
    rw [Finset.card_sdiff_of_subset hin] at hcard
    have := Finset.card_le_card hin
    rw [hreg]
    show _ ≤ (t.reg a).count - _
    omega

theorem move_count (hm : Move t e t') (hrule : t.Counts e) (ha : t'.Alive a) :
    ((t'.crowd a).card : Int) ≤ (t'.reg a).count := by
  by_cases hsub : t'.crowd a ⊆ t.crowd a
  · exact hs.move_count_of_subset hm hrule hsub ha
  obtain ⟨q, hq, hnew⟩ := Finset.not_subset.mp hsub
  rcases (hm.turn q).member (newcomer hm hq hnew ha) with ⟨hold, -⟩ |
    ⟨cur, rfl, hpaged, hshare, -, hreg⟩ | ⟨cur, i, rfl, hcur, hcura, -, -, -, hreg⟩
  · exact absurd (member_crowd hold) hnew
  · -- the child is alone on its page
    have hone : t'.crowd a ⊆ {q} := by
      intro q' hq'
      by_contra hne
      rw [Finset.mem_singleton] at hne
      by_cases hin : q' ∈ t.crowd a
      · exact hs.pages.alone hpaged hshare hne (mem_crowd.mp hin).2
      · rcases (hm.turn q').member (newcomer hm hq' hin ha) with ⟨hold, -⟩ | ⟨_, he, -⟩ | ⟨_, _, he, -⟩
        · exact hin (member_crowd hold)
        · exact hne (Event.forked.inj he).2.symm
        · cases he
    have := Finset.card_le_card hone
    rw [Finset.card_singleton] at this
    rw [hreg]
    show _ ≤ (1 : Int)
    omega
  · rcases hreg with ⟨-, hreg⟩ | hfull
    · have hone : t'.crowd a ⊆ insert q (t.crowd a) := by
        intro q' hq'
        rw [Finset.mem_insert]
        by_cases hin : q' ∈ t.crowd a
        · exact .inr hin
        · rcases (hm.turn q').member (newcomer hm hq' hin ha) with ⟨hold, -⟩ | ⟨_, he, -⟩ | ⟨_, _, he, -⟩
          · exact .inr (member_crowd hold)
          · cases he
          · exact .inl (Event.created.inj he).2.1.symm
      have := Finset.card_le_card hone
      rw [Finset.card_insert_of_notMem hnew] at this
      have hcount := hs.count ⟨cur, by rw [Live, hcur]; rfl, hcura⟩
      rw [hreg]
      show _ ≤ (t.reg a).count + 1
      omega
    · exact absurd hfull hrule

/-- `kill_other_threads` leaves nobody: every live proc is registered. -/
theorem killOthers_alone (hm : Move t (.killedOthers q) t')
    (hshare : (t'.entry q).share = some a) (hq' : t'.Member q' a) : q' = q := by
  by_contra hne
  cases hm with
  | @killOthers _ b init hphase hb =>
    rw [set_same] at hshare
    obtain rfl := Option.some.inj (hb.symm.trans hshare)
    rw [member_set_of_ne hne] at hq'
    have hgone : ¬ t.Victim q b q' := by
      intro hv
      have hlive := hq'.1
      simp only [Live, Table.freed, if_pos hv] at hlive
      cases hlive
    have hmember : t.Member q' b := by
      simpa only [Member, Live, Table.freed, if_neg hgone] using hq'
    exact hgone ⟨hne, _, hs.listed hmember⟩

theorem busy_alone (hm : Move t e t')
    (hq : (t.entry q).phase = .live (.exec init)) (hshare : (t.entry q).share = some a)
    (hq' : t'.Member q' a) : q' = q := by
  rcases (hm.turn q').member hq' with ⟨hold, -⟩ | ⟨_, -, hpaged, hnpa, -⟩ | ⟨cur, i, -, hcur, hcura, -⟩
  · exact hs.busy hq hshare hold
  · by_contra hne
    exact hs.pages.alone hpaged hnpa (Ne.symm hne) hshare
  · obtain rfl := hs.busy hq hshare ⟨by rw [Live, hcur]; rfl, hcura⟩
    rw [hcur] at hq
    cases hq

theorem move_busy (hm : Move t e t')
    (hq : (t'.entry q).phase = .live (.exec init)) (hshare : (t'.entry q).share = some a)
    (hq' : t'.Member q' a) : q' = q := by
  cases hm.turn q with
  | same _ hentry =>
    rw [hentry] at hq hshare
    exact hs.busy_alone hm hq hshare hq'
  | enterExec he =>
    subst he
    exact hs.killOthers_alone hm hshare hq'
  | setUp _ _ hnew =>
    rw [hq] at hnew
    rcases hnew with hnew | hnew <;> cases hnew
  | @leaveExec init' _ _ hentry =>
    rw [hentry] at hq
    cases init' <;> cases hq
  | exit _ _ _ hb hkilled =>
    simp only [hkilled, killed, if_pos hb] at hq
    cases hq
  | handOut _ _ hentry | publish _ _ _ hentry | create _ _ _ _ hentry | threadExit _ _ hentry
  | reap _ _ hentry | join _ _ hentry | freed _ _ hentry | commit _ _ hentry =>
    rw [hentry] at hq
    cases hq

theorem move (hm : Move t e t') (hrule : t.Counts e) : Tally t' :=
  ⟨hs.toEnrolled.move hm fun he => by subst he; exact hrule, hs.move_count hm hrule, hs.move_busy hm⟩

end

end Tally

theorem boot_tally : Tally Table.boot where
  toEnrolled := boot_enrolled
  count := fun {a} ⟨q, hq⟩ => by
    obtain ⟨rfl, rfl⟩ := Table.boot_share hq.2
    have hone : Table.boot.crowd 1 ⊆ {0} := by
      intro p hp
      rw [Finset.mem_singleton]
      exact (Table.boot_share (Tally.mem_crowd.mp hp).2).1
    have := Finset.card_le_card hone
    rw [Finset.card_singleton] at this
    show _ ≤ (1 : Int)
    omega
  busy := fun hq hshare _ => by
    obtain ⟨rfl, -⟩ := Table.boot_share hshare
    cases hq

theorem tally_run {h : List Event} (hr : Run (Guarded Move Table.Counts) Table.boot h t) : Tally t :=
  hr.invariant (fun _ t => Tally t) boot_tally fun _ _ _ _ _ hs hm => hs.move hm.1 hm.2

/-! ### The kernel -/

namespace Kernel

/-- The page whose directory goes with the zombie `t`. -/
def lastOf (s : Kernel) (t : Slot) : Option Page :=
  (s.proc t).sharePtr.filter fun a => (s.shared a).numOfThread = 1

/-- The pages whose directories `freevm` is called on in the loop of `wait`. -/
def reapFrees (child : Slot) (own : Page) : Kernel → List Index → List Page
  | _, [] => []
  | s, i :: is =>
    (match (s.shared own).threads i with
      | some t => if (s.proc t).state = .zombie ∧ (s.proc t).pid ≠ 0 then (s.lastOf t).toList else []
      | none => []) ++ reapFrees child own (reapOne child own s i) is

/-- The pages whose directories `freevm` is called on in a step of CPU `c` seen as `e`. -/
def freevmOn (s : Kernel) (c : Nat) : Event → List Page
  | .waited cur child _ =>
    match ((s.entered c cur).proc child).sharePtr with
    | some own => reapFrees child own (s.entered c cur) (List.finRange 6)
    | none => []
  | .execed cur => (s.proc cur).sharePtr.toList
  | .quiet | .handedOut _ | .forked _ _ | .created _ _ _ _ | .threadExited _ _ | .exited _
  | .joined _ _ _ _ | .killedOthers _ => []

/-- What a call is asked to find, so that no count is too low and no null pointer is followed. -/
def Numbered (s : Kernel) : Event → Prop
  /- `thread_create`: an index is free -/
  | .created _ _ own _ => freeIndex (s.shared own) ≠ none
  /- `thread_join`: the zombie found is the caller's -/
  | .joined cur p _ _ => (s.proc p).sharePtr = (s.proc cur).sharePtr
  /- `wait`: no entry of `threads[]` is null and, for a process with threads left, the zombies
  among them are its own -/
  | .waited _ child _ => ∀ a ∈ (s.proc child).sharePtr,
      (∀ i, (s.shared a).threads i ≠ none) ∧ (s.Alive a → ∀ i, ∀ q ∈ (s.shared a).threads i,
        (s.proc q).state = .zombie → (s.proc q).sharePtr = some a)
  /- `kill_other_threads`: no registered proc is null, or has given its page back -/
  | .killedOthers cur => ∀ a ∈ (s.proc cur).sharePtr, ∀ i, (s.shared a).isThere i = true →
      (s.shared a).threads i ≠ none ∧
      ∀ q ∈ (s.shared a).threads i, q ≠ cur → (s.proc q).sharePtr ≠ none
  | .quiet | .handedOut _ | .forked _ _ | .threadExited _ _ | .exited _ | .execed _ => True

instance (s : Kernel) (e : Event) : Decidable (s.Numbered e) := by
  apply @Event.casesOn _ e <;> intros <;> dsimp only [Numbered] <;> infer_instance

/-- The same, and `exit` and `exec` leave running procs and slots in the making alone. -/
def Counted (s : Kernel) (e : Event) : Prop := Apart s e ∧ s.Numbered e

instance (s : Kernel) (e : Event) : Decidable (s.Counted e) :=
  inferInstanceAs (Decidable (_ ∧ _))

/-! ### The loop of `wait` -/

/-- The procs of page `a`, free slots and slots in the making apart. -/
def crowd (s : Kernel) (a : Page) : Finset Slot :=
  Finset.univ.filter fun q => ((s.proc q).state ≠ .unused ∧ (s.proc q).state ≠ .embryo) ∧
    (s.proc q).sharePtr = some a

/-- What the loop of `wait` over the entries of `own` finds. -/
structure Reapable (s : Kernel) (own : Page) : Prop where
  count : ∀ {a}, s.Alive a → ((s.crowd a).card : Int) ≤ (s.shared a).numOfThread
  listed : s.Alive own → ∀ {i q}, (s.shared own).threads i = some q → (s.proc q).state = .zombie →
    (s.proc q).sharePtr = some own

variable {s s' : Kernel} {own a : Page} {q p : Slot} {c : Nat} {op : Op}

theorem mem_crowd : q ∈ s.crowd a ↔ ((s.proc q).state ≠ .unused ∧ (s.proc q).state ≠ .embryo) ∧
    (s.proc q).sharePtr = some a := by
  simp [crowd]

theorem mem_crowd_of_zombie (hz : (s.proc q).state = .zombie) (ha : (s.proc q).sharePtr = some a) :
    q ∈ s.crowd a :=
  mem_crowd.mpr ⟨by simp [hz], ha⟩

theorem Member.mem_crowd (hq : s.Member q a) : q ∈ s.crowd a := by
  refine Kernel.mem_crowd.mpr ⟨?_, hq.2⟩
  rcases hq.1 with h | h | h <;> simp [h]

/-- A process with a live proc and a zombie counts two. -/
theorem Reapable.count_ne_one (hs : s.Reapable own) (hz : (s.proc p).state = .zombie)
    (hp : (s.proc p).sharePtr = some a) (ha : s.Alive a) : (s.shared a).numOfThread ≠ 1 := by
  obtain ⟨q, hq⟩ := ha
  have hne : p ≠ q := by
    rintro rfl
    exact hq.1.ne.2.1 hz
  have hpair : ({p, q} : Finset Slot) ⊆ s.crowd a := by
    intro r hr
    rcases Finset.mem_insert.mp hr with rfl | hr
    · exact mem_crowd_of_zombie hz hp
    · rw [Finset.mem_singleton.mp hr]
      exact hq.mem_crowd
  have hcard := Finset.card_le_card hpair
  rw [Finset.card_pair hne] at hcard
  have := hs.count ⟨q, hq⟩
  omega

/-- A round that gives `t` back leaves everyone else's state and everyone's page. -/
theorem reapOne_state {i : Index} {t : Slot} (child : Slot)
    (ht : (s.shared own).threads i = some t) (hz : (s.proc t).state = .zombie ∧ (s.proc t).pid ≠ 0)
    (q : Slot) :
    ((reapOne child own s i).proc q).sharePtr = (s.proc q).sharePtr ∧
      ((reapOne child own s i).proc q).state = if q = t then .unused else (s.proc q).state := by
  rw [reapOne_proc q child ht hz]
  by_cases hq : q = t
  · subst hq
    simp [reapedProc]
  · simp only [if_neg hq]
    split <;> exact ⟨rfl, rfl⟩

theorem Reapable.round (hs : s.Reapable own) (child : Slot) (i : Index) :
    (reapOne child own s i).Reapable own ∧ ∀ a, (reapOne child own s i).Alive a ↔ s.Alive a := by
  by_cases hfound : ∃ t, (s.shared own).threads i = some t ∧
      (s.proc t).state = .zombie ∧ (s.proc t).pid ≠ 0
  · obtain ⟨t, ht, hz⟩ := hfound
    have hstate := reapOne_state child ht hz
    have hrest : SameRest s (reapOne child own s i) own := reapOne_rest
    have hmember : ∀ a q, (reapOne child own s i).Member q a ↔ s.Member q a := by
      intro a q
      unfold Kernel.Member Proc.Live
      rw [(hstate q).1, (hstate q).2]
      by_cases hq : q = t
      · subst hq
        simp [hz.1]
      · simp [hq]
    have halive : ∀ a, (reapOne child own s i).Alive a ↔ s.Alive a := fun a =>
      exists_congr (hmember a)
    have hsub : ∀ a, (reapOne child own s i).crowd a ⊆ (s.crowd a).erase t := by
      intro a q hq
      obtain ⟨hq, hshare⟩ := mem_crowd.mp hq
      rw [(hstate q).1] at hshare
      rw [(hstate q).2] at hq
      by_cases hqt : q = t
      · simp [hqt] at hq
      · rw [if_neg hqt] at hq
        exact Finset.mem_erase.mpr ⟨hqt, mem_crowd.mpr ⟨hq, hshare⟩⟩
    refine ⟨⟨fun {a} ha => ?_, fun ha {j q} hj hq => ?_⟩, halive⟩
    · rw [halive a] at ha
      have hcount := hs.count ha
      have hle := Finset.card_le_card (hsub a)
      by_cases hown : a = own
      · subst hown
        have hin : t ∈ s.crowd a := mem_crowd_of_zombie hz.1 (hs.listed ha ht hz.1)
        have hpos := Finset.card_pos.mpr ⟨t, hin⟩
        rw [Finset.card_erase_of_mem hin] at hle
        rw [reapOne_count child ht hz]
        omega
      · have := Finset.card_le_card (Finset.erase_subset t (s.crowd a))
        rw [hrest.other a hown]
        omega
    · rw [halive own] at ha
      rw [hrest.threads] at hj
      rw [(hstate q).2] at hq
      split at hq
      · cases hq
      · rw [(hstate q).1]
        exact hs.listed ha hj hq
  · have hskip : reapOne child own s i = s := reapOne_skip fun t ht hz => hfound ⟨t, ht, hz⟩
    rw [hskip]
    exact ⟨hs, fun _ => Iff.rfl⟩

theorem Reapable.spares (hs : s.Reapable own) (child : Slot) (is : List Index)
    (ha : a ∈ reapFrees child own s is) : ¬ s.Alive a := by
  induction is generalizing s with
  | nil => cases ha
  | cons i is ih =>
    obtain ⟨hs', halive⟩ := hs.round child i
    rcases List.mem_append.mp ha with ha | ha
    · intro hal
      split at ha
      · rename_i t ht
        split at ha
        · rename_i hz
          obtain ⟨hshare, hone⟩ := Option.filter_eq_some_iff.mp (Option.mem_toList.mp ha)
          exact hs.count_ne_one hz.1 hshare hal (by simpa using hone)
        · cases ha
      · cases ha
    · rw [← halive a]
      exact ih hs' ha

end Kernel

open Kernel

namespace Abs

variable {s : Kernel}

theorem crowd_eq (ha : Abs s t) : t.crowd a = s.crowd a := by
  ext q
  rw [Tally.mem_crowd, Kernel.mem_crowd, (ha.agree q).present_iff, (ha.agree q).share]

theorem counts (ha : Abs s t) (h : s.Numbered e) : t.Counts e := by
  cases e with
  | created cur np own i =>
    intro hfree
    rw [ha.reg own] at hfree
    exact h hfree
  | joined cur p i v =>
    show (t.entry p).share = (t.entry cur).share
    rw [(ha.agree p).share, (ha.agree cur).share]
    exact h
  | waited cur child pid =>
    intro a hchild hal i q hi hz
    rw [ha.reg a] at hi
    rw [(ha.agree q).share]
    exact (h a ((ha.agree child).share.symm.trans hchild)).2 (ha.alive_iff.mp hal) i q hi
      ((ha.agree q).zombie_iff.mp hz)
  | quiet | handedOut | forked | threadExited | exited | killedOthers | execed => trivial

end Abs

/-- What the loop of `wait` needs is what the machine keeps. -/
theorem Tally.reapable {s : Kernel} {child : Slot} {pid : Word} {own : Page} (hs : Tally t)
    (ha : Abs s t) (hg : t.Counts (.waited cur child pid))
    (hown : (s.proc child).sharePtr = some own) : s.Reapable own := by
  constructor
  · intro a hal
    have hcount := hs.count (ha.alive_iff.mpr hal)
    rw [ha.crowd_eq, ha.reg] at hcount
    exact hcount
  · intro hal i q hi hz
    rw [← (ha.agree q).share]
    apply hg own ((ha.agree child).share.trans hown) (ha.alive_iff.mpr hal) i q
    · rw [ha.reg]
      exact hi
    · exact (ha.agree q).zombie_iff.mpr hz

/-- On every run in which `thread_create` finds a free index, `thread_join` takes the
caller's own zombies and `wait` on a process with threads left finds only its own zombies
listed, neither `wait` nor `exec` follows a null pointer, and `exit` and `exec` find no
sibling `RUNNING` or `EMBRYO`: whenever `wait` or `exec` calls `freevm`, no live proc shares
the page that held the directory, the caller of `exec` excepted. -/
theorem freevm_spares_live {h : List Event} {s s' : Kernel} {c : Nat} {op : Op}
    (hr : Run (Guarded Step Kernel.Counted) boot h s) (hs : s.step c op = some (s', e))
    (hg : s.Counted e) (ha : a ∈ s.freevmOn c e) (hq : s.Member q a) : e = .execed q := by
  have hrule : ∀ s t e, Sound s → Abs s t → Kernel.Counted s e → Apart s e ∧ t.Counts e :=
    fun s t e _ habs hrule => ⟨hrule.1, habs.counts hrule.2⟩
  obtain ⟨t, hrt, -, habs⟩ := run_sim hrule hr
  have hs' := tally_run hrt
  cases step_case hs with
  | body henter hbody =>
    cases hbody with
    | @reaped child own hfind hown =>
      have habs₁ := enter_abs habs henter
      have hreap := hs'.reapable habs₁ (habs.counts hg.2) hown
      simp only [freevmOn, enter_entered henter, hown] at ha
      exact absurd (habs₁.alive_iff.mp (habs.alive_iff.mpr ⟨q, hq⟩)) (hreap.spares child _ ha)
    | _ => cases ha
  | @execCommit cur own init hc hown =>
    obtain rfl : own = a := by
      simpa [freevmOn, hown, eq_comm] using ha
    have hphase : (t.entry cur).phase = .live (.exec init) :=
      habs.cpu (c := c) (by rw [hc]) (by rw [hc]; rfl)
    rw [hs'.busy hphase ((habs.agree cur).share.trans hown) (habs.member_iff.mpr hq)]
  | _ => cases ha

/-- Slot 1 has started five threads, joined them and left by `thread_exit`; `wait` by `init`
frees its directory. -/
theorem freevm_spares_live_master : ∃ h s s', Run (Guarded Step Kernel.Counted) boot h s ∧
    s.step 0 .wait = some (s', .waited 0 1 2) ∧ .joined 1 6 5 7 ∈ h ∧ .threadExited 1 0 ∈ h ∧
    5 ∈ s.freevmOn 0 (.waited 0 1 2) ∧ ∀ q, ¬ s.Member q 5 := by
  obtain ⟨h, s, s', hr, hs, hjoined, hleft, hfree, hg⟩ := reached_step Kernel.Counted
    (onCpu 0 (Op.childRuns ++ (List.replicate 5 Op.creates).flatten ++
      [Op.threadJoin 1] ++ (List.replicate 5 [Op.schedule, .threadExit 7]).flatten ++ Op.rescan ++
      Op.preempted ++ [Op.threadJoin 2, .threadJoin 3, .threadJoin 4, .threadJoin 5, .threadExit 0] ++
      Op.rescan)) 0 .wait (e := .waited 0 1 2)
    (Q := fun h s _ => .joined 1 6 5 7 ∈ h ∧ .threadExited 1 0 ∈ h ∧ 5 ∈ s.freevmOn 0 (.waited 0 1 2) ∧
      s.Counted (.waited 0 1 2)) (by decide +kernel)
  refine ⟨h, s, s', hr, hs, hjoined, hleft, hfree, fun q hq => ?_⟩
  cases freevm_spares_live hr hs hg hfree hq

/-- Slots 1 and 2 are children of `init` with a thread each, on slots 3 and 4. Slot 4 exits
and slot 1 joins it in place of its own thread, which counts it out of the wrong process.
When slot 1 leaves by `thread_exit`, `wait` frees its directory with slot 3 asleep. -/
theorem freevm_under_live_thread : ∃ h s s', Run Step boot h s ∧
    s.step 0 .wait = some (s', .waited 0 1 2) ∧ 5 ∈ s.freevmOn 0 (.waited 0 1 2) ∧
    (s.proc 3).sharePtr = some 5 ∧ (s.proc 3).state = .sleeping ∧ (s'.proc 3).state = .sleeping :=
  reaches_step
    (onCpu 0 (Op.started ++ Op.forks ++ Op.forks ++ Op.preempted ++ Op.creates ++ Op.preempted ++
      Op.creates ++ Op.preempted ++ [Op.sleep (.addr 9), .schedule, .threadExit 7] ++ Op.rescan ++
      Op.preempted ++ [Op.threadJoin 1, .threadExit 0, .schedule, .tick, .yield] ++ Op.rescan))
    0 .wait (by decide +kernel)

end ThreadKernel
