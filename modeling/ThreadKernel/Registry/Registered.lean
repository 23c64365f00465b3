import ThreadKernel.Registry.Invariant
import ThreadKernel.Registry.Simulation

/-! The registry of a running process, in the kernel.

`isThere`, `threads`, `orderOfThread`, `imMaster` and `numOfThread` describe the same
set of threads. They agree after every run of the kernel whose calls find what `Orderly`
asks for; the machine's `Settled` is carried over by the refinement. -/
namespace ThreadKernel

open Registry Lts

namespace Kernel

/-- `q` is live and its `sharePtr` is `a`. -/
def Member (s : Kernel) (q : Slot) (a : Page) : Prop :=
  (s.proc q).Live ∧ (s.proc q).sharePtr = some a

instance (s : Kernel) (q : Slot) (a : Page) : Decidable (s.Member q a) :=
  inferInstanceAs (Decidable (_ ∧ _))

def Alive (s : Kernel) (a : Page) : Prop := ∃ q, s.Member q a

instance (s : Kernel) (a : Page) : Decidable (s.Alive a) :=
  inferInstanceAs (Decidable (∃ _, _))

/-- What a call is asked to find, so that the registries stay right. -/
def Tidy (s : Kernel) : Event → Prop
  /- `allocproc`: the slot does not still carry the page of a process that is alive -/
  | .handedOut np => ∀ a ∈ (s.proc np).sharePtr, ¬ s.Alive a
  /- `thread_create`: an index is free -/
  | .created _ _ own _ => freeIndex (s.shared own) ≠ none
  /- `thread_exit`: the caller is not the master, or nobody else is left -/
  | .threadExited cur _ => (s.proc cur).imMaster = true →
      ∀ a ∈ (s.proc cur).sharePtr, ∀ q, s.Member q a → q = cur
  /- `wait`: no zombie that `threads[]` lists belongs to another process that is alive -/
  | .waited _ child _ => ∀ a ∈ (s.proc child).sharePtr, ∀ i, ∀ q ∈ (s.shared a).threads i,
      (s.proc q).state = .zombie → ∀ b ∈ (s.proc q).sharePtr, b ≠ a → ¬ s.Alive b
  /- `thread_join`: the zombie found is the caller's -/
  | .joined cur p _ _ => (s.proc p).sharePtr = (s.proc cur).sharePtr
  /- `exec`: nobody else is left -/
  | .killedOthers cur => ∀ a ∈ (s.proc cur).sharePtr, ∀ q, s.Member q a → q = cur
  | .quiet | .forked _ _ | .exited _ | .execed _ => True

instance (s : Kernel) (e : Event) : Decidable (s.Tidy e) := by
  apply @Event.casesOn _ e <;> intros <;> dsimp only [Tidy] <;> infer_instance

/-- The same, and `exit` and `exec` leave running procs and slots in the making alone. -/
def Orderly (s : Kernel) (e : Event) : Prop := Apart s e ∧ s.Tidy e

instance (s : Kernel) (e : Event) : Decidable (s.Orderly e) :=
  inferInstanceAs (Decidable (_ ∧ _))

/-- The registry of `a` says who the threads are. -/
structure Registered (s : Kernel) (a : Page) : Prop where
  /-- A flag is set exactly at the index of a live thread. -/
  flag : ∀ i, (s.shared a).isThere i = true ↔
    ∃ q, (s.shared a).threads i = some q ∧ s.Member q a ∧ (s.proc q).orderOfThread = i
  /-- A live thread is registered at exactly one index. -/
  once : ∀ q, s.Member q a →
    ∃! i, (s.shared a).isThere i = true ∧ (s.shared a).threads i = some q
  /-- The count is that of the procs that are not `UNUSED`. -/
  count : (s.shared a).numOfThread = (Finset.univ.filter fun q =>
    (s.proc q).state ≠ .unused ∧ (s.proc q).sharePtr = some a).card

/-- Exactly one live thread is the master. -/
def OneMaster (s : Kernel) (a : Page) : Prop :=
  ∃! q, s.Member q a ∧ (s.proc q).imMaster = true

end Kernel

namespace Abs

open Kernel

variable {s : Kernel} {t : Table} {q : Slot} {a : Page}

section
variable (ha : Abs s t)
include ha

theorem member_iff : t.Member q a ↔ s.Member q a := by
  unfold Table.Member Table.Live Kernel.Member Proc.Live
  rw [(ha.agree q).live_iff, (ha.agree q).share]

theorem alive_iff : t.Alive a ↔ s.Alive a :=
  exists_congr fun _ => ha.member_iff

theorem orderly {e : Event} (h : s.Tidy e) : t.Orderly e := by
  cases e with
  | handedOut np =>
    intro a hshare
    rw [ha.alive_iff]
    exact h a ((ha.agree np).share.symm.trans hshare)
  | created cur np own i =>
    intro hfree
    rw [ha.reg own] at hfree
    exact h hfree
  | threadExited cur v =>
    intro hm q a hshare hq
    exact h ((ha.agree cur).master.symm.trans hm) a ((ha.agree cur).share.symm.trans hshare) q
      (ha.member_iff.mp hq)
  | waited cur child pid =>
    intro q a b i hshare hthreads hz hb hne
    rw [ha.alive_iff]
    rw [ha.reg a] at hthreads
    exact h a ((ha.agree child).share.symm.trans hshare) i q hthreads ((ha.agree q).zombie_iff.mp hz) b
      ((ha.agree q).share.symm.trans hb) hne
  | joined cur p i v =>
    show (t.entry p).share = (t.entry cur).share
    rw [(ha.agree p).share, (ha.agree cur).share]
    exact h
  | killedOthers cur =>
    intro q a hshare hq
    exact h a ((ha.agree cur).share.symm.trans hshare) q (ha.member_iff.mp hq)
  | quiet | forked | exited | execed => trivial

theorem active_iff {v : View Index} : (t.group a).Active q v ↔
    s.Member q a ∧ v = ⟨true, (s.proc q).orderOfThread, (s.proc q).imMaster⟩ := by
  rw [Table.active_iff, ha.member_iff, (ha.agree q).order, (ha.agree q).master]

theorem isSome_group : (t.group a q).isSome = true ↔
    (s.proc q).state ≠ .unused ∧ (s.proc q).sharePtr = some a := by
  have hfree := (ha.agree q).free_iff.not
  have hview : (t.group a q).isSome = true ↔
      (t.entry q).phase ≠ .free ∧ (t.entry q).share = some a := by
    rw [Table.group, Entry.view]
    split <;> simp_all
  rw [hview, ← (ha.agree q).share]
  exact and_congr_left fun _ => hfree

theorem registered (hgood : Consistent (t.reg a) (t.group a)) : s.Registered a := by
  rw [ha.reg a] at hgood
  refine ⟨fun i => ⟨fun hi => ?_, ?_⟩, fun q hq => ?_, ?_⟩
  · obtain ⟨q, v, hthreads, hact, ho⟩ := hgood.there hi
    obtain ⟨hq, rfl⟩ := ha.active_iff.mp hact
    exact ⟨q, hthreads, hq, ho⟩
  · rintro ⟨q, -, hq, rfl⟩
    exact (hgood.registered (ha.active_iff.mpr ⟨hq, rfl⟩)).1
  · refine ⟨_, hgood.registered (ha.active_iff.mpr ⟨hq, rfl⟩), ?_⟩
    rintro i ⟨hi, hthreads⟩
    obtain ⟨q', v, hthreads', hact, ho⟩ := hgood.there hi
    obtain rfl : q = q' := Option.some.inj (hthreads.symm.trans hthreads')
    obtain ⟨-, rfl⟩ := ha.active_iff.mp hact
    exact ho.symm
  · have hcount : (s.shared a).numOfThread = _ := hgood.count
    rw [hcount]
    congr 2
    ext q
    simp only [Finset.mem_filter, Finset.mem_univ, true_and]
    exact ha.isSome_group

theorem oneMaster (h : (t.group a).OneMaster) : s.OneMaster a := by
  have hiff : ∀ q, (∃ v, (t.group a).Active q v ∧ v.master = true) ↔
      s.Member q a ∧ (s.proc q).imMaster = true := by
    intro q
    constructor
    · rintro ⟨v, hv, hm⟩
      obtain ⟨hq, rfl⟩ := ha.active_iff.mp hv
      exact ⟨hq, hm⟩
    · rintro ⟨hq, hm⟩
      exact ⟨_, ha.active_iff.mpr ⟨hq, rfl⟩, hm⟩
  unfold Group.OneMaster at h
  simp only [hiff] at h
  exact h

end

end Abs

/-! ### Runs -/

theorem boot_settled : Settled [] Table.boot := by
  refine ⟨Table.boot_pages, fun {a} ha => ?_, fun {a} ha => ?_, fun {q a} hq hb => ?_,
    fun {q a} hq hm hb => ?_, fun {q m a} hq hm hb q' hq' => ?_, fun {q} hq => ?_⟩
  · obtain ⟨q, hq⟩ := ha
    obtain ⟨-, rfl⟩ := Table.boot_share hq.2
    refine .single _ 0 0 ⟨true, 0, false⟩ rfl rfl rfl fun q hq => ?_
    exact Entry.view_none_of_free (by rw [Table.boot_entry hq])
  · obtain ⟨q, hq⟩ := ha
    obtain ⟨rfl, rfl⟩ := Table.boot_share hq.2
    exact .inl ⟨0, hq, rfl⟩
  · obtain ⟨rfl, -⟩ := Table.boot_share hb
    cases hq
  · obtain ⟨rfl, -⟩ := Table.boot_share hb
    cases hq
  · obtain ⟨rfl, -⟩ := Table.boot_share hb
    exact (Table.boot_share hq'.2).1
  · obtain rfl := Table.boot_phase (q := q) fun h => by rw [h] at hq; cases hq
    exact ⟨rfl, by simp⟩

theorem settled_run {h : List Event} {t : Table}
    (hr : Run (Guarded Move Table.Orderly) Table.boot h t) : Settled h t :=
  hr.invariant (fun h t => Settled h t) boot_settled fun _ _ _ _ _ hs hm => hs.move hm.1 hm.2

open Kernel

/-- On every run whose calls find what `Orderly` asks for, the registry of every page
with a live proc is right, and exactly one live proc of it is the master; `init`'s page
has none before its first `exec` has succeeded. -/
theorem registered_of_orderly {h : List Event} {s : Kernel}
    (hr : Run (Guarded Step Kernel.Orderly) boot h s) {a : Page} (ha : s.Alive a) :
    s.Registered a ∧ (((s.proc 0).sharePtr = some a → .execed 0 ∈ h) → s.OneMaster a) := by
  have hrule : ∀ s t e, Sound s → Abs s t → Kernel.Orderly s e → Apart s e ∧ t.Orderly e :=
    fun s t e _ habs hrule => ⟨hrule.1, habs.orderly hrule.2⟩
  obtain ⟨t, hrt, -, habs⟩ := run_sim hrule hr
  have hs := settled_run hrt
  have hat := habs.alive_iff.mpr ha
  refine ⟨habs.registered (hs.good hat), fun hexec => ?_⟩
  rcases hs.master hat with ⟨q, hq, hb⟩ | hm
  · obtain ⟨rfl, hnot⟩ := hs.boot hb
    exact absurd (hexec (habs.member_iff.mp hq).2) hnot
  · exact habs.oneMaster hm

/-- Slot 1 starts two threads; the first has exited and been joined, the second is
asleep. -/
theorem registered_of_orderly_threads : ∃ h s, Run (Guarded Step Kernel.Orderly) boot h s ∧
    (.joined 1 2 1 7 ∈ h ∧ .execed 0 ∈ h ∧ s.Member 1 5 ∧ s.Member 3 5) ∧
    s.Registered 5 ∧ s.OneMaster 5 := by
  obtain ⟨h, s, hr, hp⟩ := reached Kernel.Orderly
    (onCpu 0 (Op.childRuns ++ Op.creates ++ Op.creates ++
      [Op.threadJoin 1, .schedule, .threadExit 7, .schedule, .sleep (.addr 9)] ++ Op.rescan ++
      Op.preempted))
    (P := fun h s => .joined 1 2 1 7 ∈ h ∧ .execed 0 ∈ h ∧ s.Member 1 5 ∧ s.Member 3 5)
    (by decide +kernel)
  have := registered_of_orderly hr ⟨1, hp.2.2.1⟩
  exact ⟨h, s, hr, hp, this.1, this.2 fun _ => hp.2.1⟩

/-- Slot 1 starts a thread on slot 2 and calls `exec`, which returns 0: the flag of the
thread is still set, its entry points at a slot that is free, and the process counts two
threads where there is one. -/
theorem exec_leaves_flag : ∃ h s, Run Step boot h s ∧ .execed 1 ∈ h ∧ s.Member 1 5 ∧
    (s.shared 5).isThere 1 = true ∧ (s.shared 5).threads 1 = some 2 ∧ (s.proc 2).state = .unused ∧
    (s.shared 5).numOfThread = 2 ∧ ∀ q, (s.proc q).sharePtr = some 5 → q = 1 :=
  reaches (onCpu 0 (Op.childRuns ++ Op.creates ++
    [Op.exec, .execFinish true])) (by decide +kernel)

end ThreadKernel
