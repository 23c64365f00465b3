import ThreadKernel.Proc.Effects

/-! Five threads, one after the other.

A process whose registry holds nobody but its one live thread (`Clean`) can start five
threads: their ids differ from each other and from the index of the caller, and once they
have exited `thread_join` takes each under its id with its value, as long as it does not come
upon a zombie of another process. This is the state `fork` leaves, with index 0 for the
caller. -/
namespace ThreadKernel.Kernel

open Function

/-- `thread_create` by `cur` with the memory it asks for: `allocproc`, then its section. -/
def spawn (s : Kernel) (cur : Slot) (own : Page) : Option (Slot × Kernel) :=
  s.allocproc.map fun r => (r.1, (r.2.allocKstack r.1).create cur r.1 own)

def spawnAll (cur : Slot) (own : Page) : Nat → Kernel → Option (List Slot × Kernel)
  | 0, s => some ([], s)
  | n + 1, s =>
    (s.spawn cur own).bind fun x => (spawnAll cur own n x.2).map fun r => (x.1 :: r.1, r.2)

/-- The threads call `thread_exit`, each with its value. -/
def exitAll (own : Page) (v : Slot → Word) (nps : List Slot) (s : Kernel) : Kernel :=
  nps.foldl (fun s np => s.threadExit np own (v np)) s

def unusedSlots (s : Kernel) : Finset Slot :=
  Finset.univ.filter fun q => (s.proc q).state = .unused

/-- `thread_join(id, ..)` by `cur` can take `p`, with value `r`, and nobody else of the
process; and it does unless there is somebody of another process that it can take. -/
structure Joins (s : Kernel) (cur : Slot) (own : Page) (p : Slot) (id : Index) (r : Word) : Prop where
  found : s.joinable cur id p = true
  value : (s.proc p).retval = r
  only : ∀ q, s.joinable cur id q = true → (s.proc q).sharePtr = some own → q = p
  joins : (∀ q, s.joinable cur id q = true → (s.proc q).sharePtr = some own) → ∀ c,
    ∃ s', s.joinBody c cur id = some (s', .joined cur p id r)

/-- With five free slots, five threads can be started and joined. -/
def FiveThreads (s : Kernel) (cur : Slot) (own : Page) : Prop :=
  5 ≤ s.unusedSlots.card → ∃ nps s₁, spawnAll cur own 5 s = some (nps, s₁) ∧ nps.Nodup ∧
    nps.length = 5 ∧
    (∀ np ∈ nps, (s₁.proc np).orderOfThread ≠ (s₁.proc cur).orderOfThread) ∧
    (∀ np ∈ nps, ∀ np' ∈ nps, np ≠ np' → (s₁.proc np).orderOfThread ≠ (s₁.proc np').orderOfThread) ∧
    ∀ v, ∀ np ∈ nps, (exitAll own v nps s₁).Joins cur own np (s₁.proc np).orderOfThread (v np)

/-- The registry of `own` holds `cur` and nobody else, and the process is nobody else. -/
structure Clean (s : Kernel) (cur : Slot) (own : Page) : Prop where
  alone : ∀ q, q ≠ cur → (s.proc q).sharePtr = some own →
    (s.proc q).state = .unused ∨ (s.proc q).state = .embryo
  flags : ∀ i, (s.shared own).isThere i = true ↔ i = (s.proc cur).orderOfThread
  entry : (s.shared own).threads (s.proc cur).orderOfThread = some cur

instance (s : Kernel) (cur : Slot) (own : Page) : Decidable (s.Clean cur own) :=
  decidable_of_iff ((∀ q, q ≠ cur → (s.proc q).sharePtr = some own →
      (s.proc q).state = .unused ∨ (s.proc q).state = .embryo) ∧
    (∀ i, (s.shared own).isThere i = true ↔ i = (s.proc cur).orderOfThread) ∧
    (s.shared own).threads (s.proc cur).orderOfThread = some cur)
    ⟨fun h => ⟨h.1, h.2.1, h.2.2⟩, fun h => ⟨h.alone, h.flags, h.entry⟩⟩

/-! ### One thread more -/

/-- What one `thread_create` did: `np` is a thread of the process with the id `i`. -/
structure Spawned (s : Kernel) (cur : Slot) (own : Page) (np : Slot) (i : Index) (s₁ : Kernel) :
    Prop where
  unused : (s.proc np).state = .unused
  others : ∀ q, q ≠ np → s₁.proc q = s.proc q
  state : (s₁.proc np).state = .runnable
  share : (s₁.proc np).sharePtr = (s.proc cur).sharePtr
  parent : (s₁.proc np).parent = (s.proc cur).parent
  master : (s₁.proc np).imMaster = false
  stack : (s₁.proc np).kstack ≠ none
  order : (s₁.proc np).orderOfThread = i
  flags : (s₁.shared own).isThere = update (s.shared own).isThere i true

variable {s s₁ : Kernel} {cur np q : Slot} {own : Page} {i : Index} {done nps : List Slot}

theorem spawned_of_spawn (h : s.spawn cur own = some (np, s₁)) (hcur : (s.proc cur).state ≠ .unused)
    (hi : freeIndex (s.shared own) = some i) : Spawned s cur own np i s₁ := by
  obtain ⟨⟨np', s'⟩, halloc, heq⟩ := Option.map_eq_some_iff.mp h
  obtain ⟨rfl, rfl⟩ := Prod.mk.inj heq
  obtain ⟨hunused, -, hs'⟩ := allocproc_eq halloc
  have hproc := allocproc_proc halloc
  have hne : cur ≠ np' := by
    rintro rfl
    exact hcur hunused
  have hshared : (s'.allocKstack np').shared own = s.shared own := by rw [hs']; rfl
  have hkcur : (s'.allocKstack np').proc cur = s.proc cur := by
    rw [allocKstack_proc, if_neg hne, hproc, if_neg hne]
  have horder : (s'.allocKstack np').newOrder np' own = i := by rw [newOrder, hshared, hi]; rfl
  refine ⟨hunused, fun q hq => ?_, ?_, ?_, ?_, ?_, ?_, ?_, ?_⟩
  · simp only [create_proc, if_neg hq, allocKstack_proc, hproc]
  · simp only [create_proc, if_true]
  · simp only [create_proc, if_true, hkcur]
  · simp only [create_proc, if_true, hkcur]
  · simp only [create_proc, if_true]
  · simp only [create_proc, if_true, allocKstack_proc]
    exact Option.some_ne_none _
  · simp only [create_proc, if_true, horder]
  · simp only [create_shared, hshared, hi, if_true]

theorem spawnAll_succ {n : Nat} (h : s.spawn cur own = some (np, s₁)) : spawnAll cur own (n + 1) s =
    (spawnAll cur own n s₁).map fun r => (np :: r.1, r.2) := by
  rw [spawnAll, h, Option.bind_some]

theorem spawn_isSome (h : 0 < s.unusedSlots.card) : ∃ np s₁, s.spawn cur own = some (np, s₁) := by
  obtain ⟨q, hq⟩ := Finset.card_pos.mp h
  obtain ⟨np, s₁, halloc⟩ := exists_allocproc ⟨q, (Finset.mem_filter.mp hq).2⟩
  simp [spawn, halloc]

theorem Spawned.unusedSlots_eq (h : Spawned s cur own np i s₁) :
    s₁.unusedSlots = s.unusedSlots.erase np := by
  ext q
  simp only [unusedSlots, Finset.mem_filter, Finset.mem_univ, true_and, Finset.mem_erase]
  by_cases hq : q = np
  · subst hq
    simp [h.state]
  · simp [h.others q hq, hq]

/-- The process is `cur` and the threads `done`, and the flags are theirs. -/
structure Crew (s : Kernel) (cur : Slot) (own : Page) (done : List Slot) : Prop where
  used : (s.proc cur).state ≠ .unused
  share : (s.proc cur).sharePtr = some own
  flags : ∀ i, (s.shared own).isThere i = true ↔
    i = (s.proc cur).orderOfThread ∨ ∃ np ∈ done, (s.proc np).orderOfThread = i
  apart : ∀ np ∈ done, (s.proc np).orderOfThread ≠ (s.proc cur).orderOfThread
  distinct : ∀ np ∈ done, ∀ np' ∈ done, np ≠ np' →
    (s.proc np).orderOfThread ≠ (s.proc np').orderOfThread
  thread : ∀ np ∈ done, (s.proc np).state ≠ .unused ∧ (s.proc np).sharePtr = some own ∧
    (s.proc np).parent = (s.proc cur).parent ∧ (s.proc np).imMaster = false ∧ (s.proc np).kstack ≠ none
  rest : ∀ q, q ≠ cur → q ∉ done → (s.proc q).sharePtr = some own →
    (s.proc q).state = .unused ∨ (s.proc q).state = .embryo

theorem Clean.crew (h : s.Clean cur own) (hcur : (s.proc cur).state ≠ .unused)
    (hshare : (s.proc cur).sharePtr = some own) : s.Crew cur own [] where
  used := hcur
  share := hshare
  flags := fun i => by simpa using h.flags i
  apart := by simp
  distinct := by simp
  thread := by simp
  rest := fun q hq _ => h.alone q hq

namespace Crew

theorem exists_free (h : s.Crew cur own done) (hlen : done.length ≤ 4) :
    ∃ i, freeIndex (s.shared own) = some i := by
  cases hfree : freeIndex (s.shared own) with
  | some i => exact ⟨i, rfl⟩
  | none =>
    let used := (s.proc cur).orderOfThread :: done.map fun np => (s.proc np).orderOfThread
    have hused : (Finset.univ : Finset Index) ⊆ used.toFinset := by
      intro i _
      have hi : (s.shared own).isThere i = true := by simpa using Fin.find?_eq_none_iff.mp hfree i
      simpa [used] using (h.flags i).mp hi
    have hcard := (Finset.card_le_card hused).trans (List.toFinset_card_le used)
    simp only [Finset.card_univ, Fintype.card_fin, used, List.length_cons, List.length_map] at hcard
    omega

theorem spawned (h : s.Crew cur own done) (hi : freeIndex (s.shared own) = some i)
    (hs : Spawned s cur own np i s₁) : s₁.Crew cur own (np :: done) := by
  have hcur : cur ≠ np := by
    rintro rfl
    exact h.used hs.unused
  have hdone : ∀ q ∈ done, q ≠ np := by
    rintro q hq rfl
    exact (h.thread q hq).1 hs.unused
  have hclear : (s.shared own).isThere i = false := by simpa using Fin.eq_true_of_find?_eq_some hi
  have hnot : ¬ (i = (s.proc cur).orderOfThread ∨ ∃ np ∈ done, (s.proc np).orderOfThread = i) := by
    rw [← h.flags i, hclear]
    exact Bool.false_ne_true
  rw [not_or] at hnot
  have hnew : ∀ q ∈ done, (s.proc q).orderOfThread ≠ i := fun q hq heq => hnot.2 ⟨q, hq, heq⟩
  have hproc : ∀ q ∈ done, s₁.proc q = s.proc q := fun q hq => hs.others q (hdone q hq)
  refine ⟨?_, ?_, fun j => ?_, fun q hq => ?_, fun q hq q' hq' hne => ?_, fun q hq => ?_,
    fun q hqc hqd => ?_⟩
  · rw [hs.others cur hcur]
    exact h.used
  · rw [hs.others cur hcur]
    exact h.share
  · have hold : (∃ q ∈ done, (s₁.proc q).orderOfThread = j) ↔
        ∃ q ∈ done, (s.proc q).orderOfThread = j :=
      exists_congr fun q => and_congr_right fun hq => by rw [hproc q hq]
    rw [hs.flags, hs.others cur hcur, List.exists_mem_cons_iff, hs.order, hold,
      update_apply, ← or_left_comm, ← h.flags j]
    by_cases hj : j = i
    · simp [hj]
    · simp [hj, Ne.symm hj]
  · rw [hs.others cur hcur]
    rcases List.mem_cons.mp hq with rfl | hq
    · rw [hs.order]
      exact hnot.1
    · rw [hproc q hq]
      exact h.apart q hq
  · rcases List.mem_cons.mp hq with heq | hold
    · rcases List.mem_cons.mp hq' with heq' | hold'
      · exact absurd (heq.trans heq'.symm) hne
      · rw [heq, hs.order, hproc q' hold']
        exact (hnew q' hold').symm
    · rcases List.mem_cons.mp hq' with heq' | hold'
      · rw [heq', hs.order, hproc q hold]
        exact hnew q hold
      · rw [hproc q hold, hproc q' hold']
        exact h.distinct q hold q' hold' hne
  · rw [hs.others cur hcur]
    rcases List.mem_cons.mp hq with rfl | hq
    · exact ⟨by rw [hs.state]; simp, hs.share.trans h.share, hs.parent, hs.master, hs.stack⟩
    · rw [hproc q hq]
      exact h.thread q hq
  · rw [List.mem_cons, not_or] at hqd
    rw [hs.others q hqd.1]
    exact h.rest q hqc hqd.2

theorem spawnAll (n : Nat) (h : s.Crew cur own done) (hlen : done.length + n ≤ 5)
    (hfree : n ≤ s.unusedSlots.card) :
    ∃ nps s₁, Kernel.spawnAll cur own n s = some (nps, s₁) ∧ nps.length = n ∧ nps.Nodup ∧
      (∀ q ∈ nps, (s.proc q).state = .unused) ∧ s₁.proc cur = s.proc cur ∧
      s₁.Crew cur own (nps.reverse ++ done) := by
  induction n generalizing s done with
  | zero => exact ⟨[], s, rfl, rfl, .nil, by simp, rfl, h⟩
  | succ n ih =>
    obtain ⟨i, hi⟩ := h.exists_free (by omega)
    obtain ⟨np, s', hspawn⟩ := @spawn_isSome s cur own (by omega)
    have hs := spawned_of_spawn hspawn h.used hi
    have hnp : np ∈ s.unusedSlots := by simp [unusedSlots, hs.unused]
    have hcard := Finset.card_erase_add_one hnp
    obtain ⟨nps, s₁, hall, hlength, hnodup, hunused, hcur, hcrew⟩ :=
      ih (h.spawned hi hs) (by simp; omega) (by rw [hs.unusedSlots_eq]; omega)
    have hnot : np ∉ nps := fun hmem => by
      have := hunused np hmem
      rw [hs.state] at this
      cases this
    refine ⟨np :: nps, s₁, ?_, by simp [hlength], List.nodup_cons.mpr ⟨hnot, hnodup⟩, fun q hq => ?_, ?_,
      ?_⟩
    · rw [spawnAll_succ hspawn, hall, Option.map_some]
    · rcases List.mem_cons.mp hq with heq | hold
      · rw [heq]
        exact hs.unused
      · have hne : q ≠ np := fun heq => hnot (heq ▸ hold)
        rw [← hs.others q hne]
        exact hunused q hold
    · rw [hcur, hs.others cur fun heq => h.used (heq ▸ hs.unused)]
    · simpa using hcrew

end Crew

/-! ### They exit and are joined -/

theorem joinBody_of_only {id : Nat} (hfound : s.joinable cur id np = true)
    (honly : ∀ q, s.joinable cur id q = true → q = np) (hstack : (s.proc np).kstack ≠ none)
    (hshare : (s.proc cur).sharePtr = some own) (c : Nat) :
    ∃ s', s.joinBody c cur id = some (s', .joined cur np id (s.proc np).retval) := by
  have hfind : Fin.find? (s.joinable cur id) = some np := by
    refine Fin.find?_eq_some_iff.mpr ⟨hfound, fun j hj => ?_⟩
    by_contra hjoin
    rw [Bool.not_eq_false] at hjoin
    rw [honly j hjoin] at hj
    exact lt_irrefl _ hj
  exact ⟨_, joinBody_of_find hfind hstack hshare⟩

/-- What the exits of others leave alone. -/
structure Lasting (x y : Proc) : Prop where
  share : y.sharePtr = x.sharePtr
  parent : y.parent = x.parent
  order : y.orderOfThread = x.orderOfThread
  master : y.imMaster = x.imMaster
  stack : y.kstack = x.kstack

theorem Lasting.trans {x y z : Proc} (h : Lasting x y) (h' : Lasting y z) : Lasting x z :=
  ⟨h'.share.trans h.share, h'.parent.trans h.parent, h'.order.trans h.order,
    h'.master.trans h.master, h'.stack.trans h.stack⟩

theorem wakeup1_lasting (s : Kernel) (ch : Chan) (q : Slot) :
    Lasting (s.proc q) ((s.wakeup1 ch).proc q) := by
  simp only [wakeup1, mapProc_proc]
  split <;> exact ⟨rfl, rfl, rfl, rfl, rfl⟩

theorem threadExit_lasting (s : Kernel) (np q : Slot) (own : Page) (v : Word) :
    Lasting (s.proc q) ((s.threadExit np own v).proc q) := by
  have h := wakeup1_lasting s (s.masterChan own) q
  rw [threadExit_proc]
  split
  · rename_i hq
    rw [hq] at h ⊢
    exact ⟨h.share, h.parent, h.order, h.master, h.stack⟩
  · exact h

theorem wakeup1_zombie_iff (s : Kernel) (ch : Chan) (q : Slot) :
    ((s.wakeup1 ch).proc q).state = .zombie ↔ (s.proc q).state = .zombie := by
  rcases (wakeup1_kept s q ch).state with h | ⟨hs, hr⟩
  · rw [h]
  · rw [hs, hr]
    simp

theorem exitAll_lasting (own : Page) (v : Slot → Word) (nps : List Slot) (s : Kernel) (q : Slot) :
    Lasting (s.proc q) ((exitAll own v nps s).proc q) := by
  induction nps generalizing s with
  | nil => exact ⟨rfl, rfl, rfl, rfl, rfl⟩
  | cons np nps ih => exact (threadExit_lasting s np q own (v np)).trans (ih _)

theorem exitAll_other (own : Page) (v : Slot → Word) (s : Kernel) (hq : q ∉ nps) :
    (((exitAll own v nps s).proc q).state = .zombie ↔ (s.proc q).state = .zombie) ∧
      ((exitAll own v nps s).proc q).retval = (s.proc q).retval := by
  induction nps generalizing s with
  | nil => exact ⟨.rfl, rfl⟩
  | cons np nps ih =>
    rw [List.mem_cons, not_or] at hq
    have hproc : (s.threadExit np own (v np)).proc q = (s.wakeup1 (s.masterChan own)).proc q := by
      rw [threadExit_proc, if_neg hq.1]
    have := ih (s.threadExit np own (v np)) hq.2
    rw [hproc, wakeup1_zombie_iff, (wakeup1_kept s q _).retval] at this
    exact this

theorem exitAll_mem (own : Page) (v : Slot → Word) (s : Kernel) (hq : q ∈ nps) :
    ((exitAll own v nps s).proc q).state = .zombie ∧
      ((exitAll own v nps s).proc q).retval = v q := by
  induction nps generalizing s with
  | nil => cases hq
  | cons np nps ih =>
    by_cases hmem : q ∈ nps
    · exact ih _ hmem
    · obtain rfl : q = np := (List.mem_cons.mp hq).resolve_right hmem
      obtain ⟨hz, hr⟩ := exitAll_other own v (s.threadExit q own (v q)) hmem
      rw [threadExit_proc, if_pos rfl] at hz hr
      exact ⟨hz.mpr rfl, hr⟩

/-- The threads of the crew exit, and each is the one its id finds. -/
theorem Crew.joins (h : s.Crew cur own nps) (hcur : (s.proc cur).imMaster = true) (v : Slot → Word)
    (hmem : ∀ q, q ∈ done ↔ q ∈ nps) (hnp : np ∈ nps) :
    (exitAll own v done s).Joins cur own np (s.proc np).orderOfThread (v np) := by
  obtain ⟨-, -, hparent, hmaster, hstack⟩ := h.thread np hnp
  have hlast := fun q => exitAll_lasting own v done s q
  obtain ⟨hz, hr⟩ := exitAll_mem own v s ((hmem np).mpr hnp)
  have hfound : (exitAll own v done s).joinable cur (s.proc np).orderOfThread np = true := by
    simp only [joinable, decide_eq_true_eq]
    refine ⟨by rw [(hlast np).order], hz, ?_, (hlast np).master.trans hmaster⟩
    rw [(hlast np).parent, (hlast cur).parent, hparent]
  have honly : ∀ q, (exitAll own v done s).joinable cur (s.proc np).orderOfThread q = true →
      ((exitAll own v done s).proc q).sharePtr = some own → q = np := by
    intro q hq hshare
    simp only [joinable, decide_eq_true_eq] at hq
    obtain ⟨horder, hqz, -, hqm⟩ := hq
    rw [(hlast q).share] at hshare
    rw [(hlast q).order, Fin.val_inj] at horder
    rw [(hlast q).master] at hqm
    have hqc : q ≠ cur := by
      rintro rfl
      rw [hcur] at hqm
      cases hqm
    -- a zombie of the process is one of the crew, and the ids tell them apart
    by_cases hqd : q ∈ nps
    · by_contra hne
      exact h.distinct q hqd np hnp hne horder
    · have hzombie := (exitAll_other own v s fun hq => hqd ((hmem q).mp hq)).1.mp hqz
      rcases h.rest q hqc hqd hshare with hs | hs
      · rw [hs] at hzombie
        cases hzombie
      · rw [hs] at hzombie
        cases hzombie
  refine ⟨hfound, hr, honly, fun hown c => ?_⟩
  rw [← hr]
  have hshare : ((exitAll own v done s).proc cur).sharePtr = some own := by
    rw [(hlast cur).share]
    exact h.share
  refine joinBody_of_only hfound (fun q hq => honly q hq (hown q hq)) ?_ hshare c
  rw [(hlast np).stack]
  exact hstack

theorem Clean.fiveThreads (h : s.Clean cur own) (hcur : (s.proc cur).state ≠ .unused)
    (hshare : (s.proc cur).sharePtr = some own) (hmaster : (s.proc cur).imMaster = true) :
    s.FiveThreads cur own := by
  intro hfree
  obtain ⟨nps, s₁, hall, hlen, hnodup, -, hsame, hcrew⟩ :=
    (h.crew hcur hshare).spawnAll 5 (by simp) hfree
  have hmem : ∀ q, q ∈ nps ↔ q ∈ nps.reverse ++ [] := by simp
  refine ⟨nps, s₁, hall, hnodup, hlen, fun np hnp => hcrew.apart np ((hmem np).mp hnp),
    fun np hnp np' hnp' => hcrew.distinct np ((hmem np).mp hnp) np' ((hmem np').mp hnp'),
    fun v np hnp => hcrew.joins (by rw [hsame]; exact hmaster) v hmem ((hmem np).mp hnp)⟩

end ThreadKernel.Kernel
