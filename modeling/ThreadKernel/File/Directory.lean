import ThreadKernel.File.Cwd

/-! The reference of the current directory.

In every run that keeps to `Undisturbed`, each process that has not exited has one
reference for its `cwd`, from the moment it is stored to the moment it is put, and it is
put once. `cwd` is null only when the one thread left has nothing to do with it any more.
Between the `iput` and the store of `sys_chdir` and of `exit`, and at no other point, `cwd`
points at an inode without a reference for it. -/
namespace ThreadKernel.Cwd

open Refcount Lts Function

namespace State

variable {s s' : State} {t q : Slot} {p np : Nat} {k k' : Call} {ip old : Inode} {e : Event}
  {op : Op} {v : Option Inode}

theorem world_setCwd (v : Option Inode) : (s.setCwd p v).world = s.world.setEntry p () v := by
  have hentry : (fun e : Nat × Unit => update s.cwd p v e.1) =
      update (fun e : Nat × Unit => s.cwd e.1) (p, ()) v := by
    funext e
    obtain ⟨p', ⟨⟩⟩ := e
    by_cases hp : p' = p
    · subst hp
      simp
    · simp [hp]
  exact congrArg (fun h => World.mk s.ref h s.live s.next s.thread) hentry

def Backed (s : State) (p : Nat) (ip : Inode) : Prop :=
  s.cwd p = some ip ∧ ∀ t, ∀ x ∈ s.thread t, x.1 = p → x.2.gap = none

instance (s : State) (p : Nat) (ip : Inode) : Decidable (s.Backed p ip) :=
  inferInstanceAs (Decidable (_ ∧ _))

/-- What a step does to the references of the `cwd`s. -/
inductive Effect (s s' : State) : Event → Prop where
  | quiet : (∀ p ip, s'.Backed p ip ↔ s.Backed p ip) → Effect s s' .quiet
  | put {p : Nat} {ip : Inode} : s.Backed p ip →
      (∀ p' ip', s'.Backed p' ip' ↔ s.Backed p' ip' ∧ p' ≠ p) → Effect s s' (.put p ip)
  | set {p : Nat} {ip : Inode} : (∀ ip', ¬ s.Backed p ip') →
      (∀ p' ip', s'.Backed p' ip' ↔ s.Backed p' ip' ∨ (p' = p ∧ ip' = ip)) → Effect s s' (.set p ip)

/-! ### Who may find `cwd` null -/

/-- A thread whose `cwd` is null is at the end of `exit` and the last of its process, and a
child that is to be started has its `cwd`. -/
structure Cleared (s : State) : Prop where
  null : ∀ {t p k}, s.thread t = some (p, k) → s.cwd p = none → k = .exitLeave
  left : ∀ {t p}, s.thread t = some (p, .exitLeave) →
    s.cwd p = none ∧ ∀ {q k}, s.thread q = some (p, k) → q = t
  made : ∀ {t p np}, s.thread t = some (p, .forkPublish np) → s.cwd np ≠ none

theorem setCall_cases {x : Nat × Call} (h : (s.setCall t p k).thread q = some x) :
    (q = t ∧ x = (p, k)) ∨ (q ≠ t ∧ s.thread q = some x) :=
  World.setCall_cases (w := s.world) h

/-- A thread that is not at the end of `exit` goes on to a point that is neither that nor
the end of `fork`. -/
theorem Cleared.setCall (hc : s.Cleared) (ht : s.thread t = some (p, k)) (hk : k ≠ .exitLeave)
    (hk' : k' ≠ .exitLeave) (hnew : ∀ np, k' ≠ .forkPublish np) : (s.setCall t p k').Cleared := by
  refine ⟨World.setCall_all (w := s.world) (fun hnone => absurd (hc.null ht hnone) hk) fun _ => hc.null, ?_, ?_⟩
  · intro q p' hq
    rcases setCall_cases hq with ⟨rfl, hx⟩ | ⟨-, hq⟩
    · exact absurd (congrArg Prod.snd hx).symm hk'
    · refine ⟨(hc.left hq).1, fun {q' k₁} hq' => ?_⟩
      rcases setCall_cases hq' with ⟨hqt, hx⟩ | ⟨-, hq'⟩
      · cases hx
        exact hqt.trans ((hc.left hq).2 ht)
      · exact (hc.left hq).2 hq'
  · intro q p' np hq
    rcases setCall_cases hq with ⟨rfl, hx⟩ | ⟨-, hq⟩
    · exact absurd (congrArg Prod.snd hx).symm (hnew np)
    · exact hc.made hq

theorem Cleared.spawn (hc : s.Cleared) (hp : s.cwd p ≠ none) : (s.setCall q p .idle).Cleared := by
  refine ⟨World.setCall_all (w := s.world) (fun hnone => absurd hnone hp) fun _ => hc.null, ?_, ?_⟩
  · intro q' p' hq'
    rcases setCall_cases hq' with ⟨rfl, hx⟩ | ⟨-, hold⟩
    · cases hx
    · refine ⟨(hc.left hold).1, fun {q'' k₁} hq'' => ?_⟩
      rcases setCall_cases hq'' with ⟨rfl, hx⟩ | ⟨-, hq''⟩
      · cases hx
        exact absurd (hc.left hold).1 hp
      · exact (hc.left hold).2 hq''
  · intro q' p' np hq'
    rcases setCall_cases hq' with ⟨rfl, hx⟩ | ⟨-, hq'⟩
    · cases hx
    · exact hc.made hq'

structure Inv (s : State) : Prop where
  world : s.world.Inv script
  cleared : s.Cleared
  calm : s.fault = none ∨ s.fault = some .iget

/-! ### Steps that leave every `cwd` alone -/

/-- Thread `t` goes on between points without a gap. -/
theorem backed_setCall (ht : s.thread t = some (p, k)) (hgap : k.gap = none) (hgap' : k'.gap = none)
    (p' : Nat) (ip : Inode) : (s.setCall t p k').Backed p' ip ↔ s.Backed p' ip := by
  refine and_congr_right fun _ => forall_congr' fun q => ?_
  by_cases hq : q = t
  · subst hq
    have hthread : (s.setCall q p k').thread q = some (p, k') := update_self ..
    simp [hthread, ht, hgap, hgap']
  · simp only [State.setCall, update_of_ne hq]

/-- Thread `t` goes on, and only counts change. -/
theorem Inv.moves (hi : s.Inv) (ht : s.thread t = some (p, k)) (hworld : s'.world.Inv script)
    (hthread : s'.thread = (s.setCall t p k').thread) (hcwd : s'.cwd = s.cwd)
    (hfault : s'.fault = s.fault) (hk : k ≠ .exitLeave) (hk' : k' ≠ .exitLeave)
    (hnew : ∀ np, k' ≠ .forkPublish np) (hgap : k.gap = none) (hgap' : k'.gap = none) :
    s'.Inv ∧ Effect s s' .quiet := by
  have hc := hi.cleared.setCall ht hk hk' hnew
  refine ⟨⟨hworld, ⟨?_, ?_, ?_⟩, hfault ▸ hi.calm⟩, .quiet fun p' ip' => ?_⟩
  · rw [hthread, hcwd]
    exact hc.null
  · rw [hthread, hcwd]
    exact hc.left
  · rw [hthread, hcwd]
    exact hc.made
  · rw [← backed_setCall ht hgap hgap']
    unfold Backed
    rw [hthread, hcwd]
    exact Iff.rfl

section
variable (hi : s.Inv) (ht : s.thread t = some (p, k)) (hk : k ≠ .exitLeave) (hgap : k.gap = none)
  {found : Inode → Call}
include hi ht hk hgap

theorem Inv.hold (hk' : k' ≠ .exitLeave) (hnew : ∀ np, k' ≠ .forkPublish np)
    (hgoes : script.Goes k k' []) : (s.setCall t p k').Inv ∧ Effect s (s.setCall t p k') .quiet :=
  hi.moves ht (hi.world.hold ht hgap hgoes) rfl rfl rfl hk hk' hnew hgap hgoes.gap

/-- `cwd` is read; it is not null, for the thread is not at the end of `exit`. -/
theorem Inv.readCwd (halone : s.world.Alone script t p ())
    (hk' : ∀ ip, found ip ≠ .exitLeave) (hnew : ∀ ip np, found ip ≠ .forkPublish np)
    (hgoes : ∀ ip, script.Goes k (found ip) [((), some ip)]) :
    (s.readCwd t p found).Inv ∧ Effect s (s.readCwd t p found) .quiet := by
  unfold State.readCwd
  split
  · rename_i ip hip
    have hworld : (s.setCall t p (found ip)).world.Inv script := by
      refine hi.world.look ht halone hgap ?_
      rw [show s.world.entry (p, ()) = some ip from hip]
      exact hgoes ip
    exact hi.moves ht hworld rfl rfl rfl hk (hk' ip) (hnew ip) hgap (hgoes ip).gap
  · rename_i hnone
    exact absurd (hi.cleared.null ht hnone) hk

section
variable (hk' : k' ≠ .exitLeave) (hnew : ∀ np, k' ≠ .forkPublish np) (hnext : script.Follows k k')
  (hseen : k'.seen ⊆ k.seen) (hgap' : k'.gap = none)
include hk' hnew hnext hseen hgap'

theorem Inv.idup (hrefs : k'.refs.Perm (ip :: k.refs)) :
    (s.idup t p ip k').Inv ∧ Effect s (s.idup t p ip k') .quiet :=
  hi.moves ht (hi.world.inc ht hnext hseen hgap hgap' hrefs) rfl rfl rfl hk hk' hnew hgap hgap'

theorem Inv.iput (hrefs : k.refs.Perm (ip :: k'.refs)) :
    (s.iput t p ip k').Inv ∧ Effect s (s.iput t p ip k') .quiet := by
  have hpos : 0 < s.ref ip := hi.world.pos_of_ref ht (hrefs.mem_iff.mpr List.mem_cons_self)
  rw [State.iput, if_neg (by omega)]
  exact hi.moves ht (hi.world.drop ht hnext hseen hgap hgap' hrefs) rfl rfl rfl hk hk' hnew hgap hgap'

end

omit hk hgap in
theorem Inv.ilock (hip : ip ∈ k.refs) : s.ilock ip s' = s' := by
  have hpos : 0 < s.ref ip := hi.world.pos_of_ref ht hip
  rw [State.ilock, if_neg (by omega)]

theorem Inv.iget {n : Nat} (hk' : ∀ ip, found ip ≠ .exitLeave)
    (hnew : ∀ ip np, found ip ≠ .forkPublish np) (hnext : ∀ ip, script.Follows k (found ip))
    (hseen : ∀ ip, (found ip).seen ⊆ k.seen) (hgap' : ∀ ip, (found ip).gap = none)
    (hrefs : ∀ ip, (found ip).refs.Perm (ip :: k.refs)) :
    (s.iget t p n found).Inv ∧ Effect s (s.iget t p n found) .quiet := by
  unfold State.iget
  split
  · rename_i ip hip
    exact hi.idup ht hk hgap (hk' ip) (hnew ip) (hnext ip) (hseen ip) (hgap' ip) (hrefs ip)
  · split
    · rename_i ip hip
      have hzero : s.ref ip = 0 := by
        simpa using Fin.eq_true_of_find?_eq_some hip
      have hworld := hi.world.alloc ht (hnext ip) hzero (hseen ip) hgap (hgap' ip) (hrefs ip)
      exact hi.moves ht hworld rfl rfl rfl hk (hk' ip) (hnew ip) hgap (hgap' ip)
    · exact ⟨⟨hi.world, ⟨hi.cleared.null, hi.cleared.left, hi.cleared.made⟩, .inr rfl⟩,
        .quiet fun _ _ => Iff.rfl⟩

end

/-! ### Steps that put a directory or store one -/

theorem Inv.no_gap (hi : s.Inv) (ht : s.thread t = some (p, k))
    (hseen : ((), v) ∈ k.seen) (hne : q ≠ t) {k₁ : Call} (hq : s.thread q = some (p, k₁)) :
    k₁.gap = none := by
  by_contra hgap
  obtain ⟨⟨⟩, hx⟩ := Option.ne_none_iff_exists'.mp hgap
  have hgap' : ((s.world.book script).hand q).gap = some (p, ()) := by
    rw [World.book_hand hq]
    exact congrArg (Option.map _) hx
  have hmem : (p, ()) ∈ ((s.world.book script).hand t).window :=
    Hand.mem_window.mpr ⟨v, World.mem_seen ht hseen⟩
  exact hi.world.sound.apart hne (hi.world.sound.gap hgap') hmem

theorem Inv.putCwd (hi : s.Inv) (ht : s.thread t = some (p, k)) (hk : k ≠ .exitLeave)
    (hk' : k' ≠ .exitLeave) (hnew : ∀ np, k' ≠ .forkPublish np) (hgap : k.gap = none)
    (hgap' : k'.gap = some ()) (hseen : ((), some old) ∈ k.seen) (hseen' : k'.seen ⊆ k.seen)
    (hwindow : () ∈ script.window k') (hrefs : k'.refs.Perm k.refs) (hnext : script.Follows k k') :
    (s.iput t p old k').Inv ∧ Effect s (s.iput t p old k') (.put p old) := by
  have hpos : 0 < s.ref old := by
    refine hi.world.pos_of_seen ht hseen ?_
    rw [show script.gap k = none from hgap]
    nofun
  have hcwd : s.cwd p = some old := hi.world.entry_of_seen ht hseen
  rw [State.iput, if_neg (by omega)]
  have hworld := hi.world.strip ht hnext hseen hseen' hwindow hgap hgap' hrefs
  have hc := hi.cleared.setCall ht hk hk' hnew
  refine ⟨⟨hworld, ⟨hc.null, hc.left, hc.made⟩, hi.calm⟩, .put ⟨hcwd, ?_⟩ fun p' ip' => ?_⟩
  · intro q x hx hp
    obtain ⟨p', k₁⟩ := x
    cases hp
    by_cases hq : q = t
    · subst hq
      cases ht.symm.trans hx
      exact hgap
    · exact hi.no_gap ht hseen hq hx
  · constructor
    · intro ⟨hcwd', hgaps⟩
      have hne : p' ≠ p := by
        intro heq
        have := hgaps t (p, k') (update_self ..) heq.symm
        rw [hgap'] at this
        cases this
      refine ⟨⟨hcwd', fun q x hx hp => ?_⟩, hne⟩
      by_cases hq : q = t
      · subst hq
        cases ht.symm.trans hx
        exact absurd hp.symm hne
      · exact hgaps q x ((update_of_ne hq _ _).trans hx) hp
    · intro ⟨⟨hcwd', hgaps⟩, hne⟩
      refine ⟨hcwd', fun q x hx hp => ?_⟩
      rcases setCall_cases (s := s) hx with ⟨rfl, rfl⟩ | ⟨-, hx⟩
      · exact absurd hp.symm hne
      · exact hgaps q x hx hp

/-- `t` stores in the `cwd` of `p₁`, which has no reference, and is the only one who can be at a
gap there. -/
theorem backed_setCwd (ht : s.thread t = some (p, k)) (hgap' : k'.gap = none)
    {p₁ : Nat} (hnot : ∀ ip, ¬ s.Backed p₁ ip) (hothers : ∀ {q x}, q ≠ t → s.thread q = some (p₁, x) → x.gap = none)
    (hself : p₁ ≠ p → k.gap = none) (p' : Nat) (ip : Inode) :
    ((s.setCall t p k').setCwd p₁ v).Backed p' ip ↔
      s.Backed p' ip ∨ (p' = p₁ ∧ v = some ip) := by
  by_cases hp : p' = p₁
  · subst hp
    have hcwd : ((s.setCall t p k').setCwd p' v).cwd p' = v := update_self ..
    rw [or_iff_right (hnot ip), Backed, hcwd, and_iff_right rfl]
    refine and_iff_left fun q x hx hxp => ?_
    cases hxp
    rcases setCall_cases hx with ⟨-, heq⟩ | ⟨hq, hold⟩
    · cases heq
      exact hgap'
    · exact hothers hq hold
  · have hcwd : ((s.setCall t p k').setCwd p₁ v).cwd p' = s.cwd p' := update_of_ne hp _ _
    rw [or_iff_left fun h => hp h.1, Backed, Backed, hcwd]
    refine and_congr_right fun _ => forall_congr' fun q => ?_
    by_cases hq : q = t
    · subst hq
      have hthread : ((s.setCall q p k').setCwd p₁ v).thread q = some (p, k') :=
        update_self ..
      simp only [hthread, ht, Option.mem_some_iff, forall_eq']
      refine imp_congr_right fun hpp => ?_
      rw [hgap', hself fun h => hp (hpp.symm.trans h.symm)]
    · simp only [State.setCall, State.setCwd, update_of_ne hq]

theorem Inv.chdirStore (hi : s.Inv) (ht : s.thread t = some (p, .chdirStore ip old)) :
    ((s.setCall t p .idle).setCwd p (some ip)).Inv ∧
      Effect s ((s.setCall t p .idle).setCwd p (some ip)) (.set p ip) := by
  have hnone : ∀ {q x}, q ≠ t → s.thread q = some (p, x) → x.gap = none :=
    fun hne hq => hi.no_gap ht List.mem_cons_self hne hq
  have hnot : ∀ ip', ¬ s.Backed p ip' := fun ip' h => nomatch h.2 t _ ht rfl
  have hc : (s.setCall t p .idle).Cleared := hi.cleared.setCall ht nofun nofun nofun
  refine ⟨⟨?_, ⟨?_, ?_, ?_⟩, hi.calm⟩, .set hnot fun p' ip' => ?_⟩
  · rw [world_setCwd]
    exact hi.world.close ht (.of_none rfl trivial) rfl nofun rfl (.refl _)
  · intro q p' k hq hnull
    by_cases hp : p' = p
    · subst hp
      simp [State.setCwd] at hnull
    · exact hc.null hq ((update_of_ne hp _ _).symm.trans hnull)
  · intro q p' hq
    obtain ⟨hnull, hlast⟩ := hc.left hq
    refine ⟨?_, hlast⟩
    have hp : p' ≠ p := by
      intro heq
      subst heq
      cases hi.cleared.null ht hnull
    exact (update_of_ne hp _ _).trans hnull
  · intro q p' np hq
    by_cases hp : np = p
    · subst hp
      simp [State.setCwd]
    · exact ne_of_eq_of_ne (update_of_ne hp _ _) (hc.made hq)
  · rw [backed_setCwd ht rfl hnot hnone fun h => absurd rfl h, Option.some_inj, eq_comm (a := ip)]

theorem Inv.exitStore (hi : s.Inv) (ht : s.thread t = some (p, .exitStore old))
    (hlast : ∀ q, s.world.sibling t p q = none) :
    ((s.setCall t p .exitLeave).setCwd p none).Inv ∧
      Effect s ((s.setCall t p .exitLeave).setCwd p none) .quiet := by
  have halone : ∀ {q x}, s.thread q = some (p, x) → q = t := by
    intro q x hq
    by_contra hne
    cases (hlast q).symm.trans (World.sibling_eq (w := s.world) hq hne)
  refine ⟨⟨?_, ⟨?_, ?_, ?_⟩, hi.calm⟩, .quiet fun p' ip' => ?_⟩
  · rw [world_setCwd]
    have hnext : script.Follows (.exitStore old) .exitLeave := .of_none rfl trivial
    exact hi.world.close ht hnext rfl nofun rfl (.refl _)
  · intro q p' k hq hnull
    rcases setCall_cases hq with ⟨-, hx⟩ | ⟨hne, hold⟩
    · cases hx
      rfl
    · have hp : p' ≠ p := by
        intro heq
        subst heq
        exact hne (halone hold)
      exact hi.cleared.null hold ((update_of_ne hp _ _).symm.trans hnull)
  · intro q p' hq
    rcases setCall_cases hq with ⟨rfl, hx⟩ | ⟨hne, hold⟩
    · cases hx
      refine ⟨update_self .., fun {q' k} hq' => ?_⟩
      rcases setCall_cases hq' with ⟨rfl, -⟩ | ⟨-, hq'⟩
      · rfl
      · exact halone hq'
    · have hp : p' ≠ p := by
        intro heq
        subst heq
        exact hne (halone hold)
      refine ⟨(update_of_ne hp _ _).trans (hi.cleared.left hold).1, fun {q' k} hq' => ?_⟩
      rcases setCall_cases hq' with ⟨-, hx⟩ | ⟨-, hq'⟩
      · cases hx
        exact absurd rfl hp
      · exact (hi.cleared.left hold).2 hq'
  · intro q p' np hq
    rcases setCall_cases hq with ⟨-, hx⟩ | ⟨-, hq⟩
    · cases hx
    · have hp : p ≠ np := (hi.world.framed.own hq rfl ht).1
      exact ne_of_eq_of_ne (update_of_ne hp.symm _ _) (hi.cleared.made hq)
  · have hnot : ∀ ip, ¬ s.Backed p ip := fun ip h => nomatch h.2 t _ ht rfl
    rw [backed_setCwd ht rfl hnot (fun hne hq => absurd (halone hq) hne) fun h => absurd rfl h]
    exact or_iff_left nofun

theorem Inv.forkStore (hi : s.Inv) (ht : s.thread t = some (p, .forkStore np old)) :
    ((s.setCall t p (.forkPublish np)).setCwd np (some old)).Inv ∧
      Effect s ((s.setCall t p (.forkPublish np)).setCwd np (some old)) (.set np old) := by
  obtain ⟨-, hempty⟩ := hi.world.framed.child ht rfl
  have hnull : s.cwd np = none := hempty () trivial
  have hnobody : ∀ {q p' x}, s.thread q = some (p', x) → p' ≠ np :=
    fun hq => (hi.world.framed.own ht rfl hq).1
  have hnot : ∀ ip', ¬ s.Backed np ip' := fun ip' h => nomatch hnull.symm.trans h.1
  refine ⟨⟨?_, ⟨?_, ?_, ?_⟩, hi.calm⟩, .set hnot fun p' ip' => ?_⟩
  · rw [world_setCwd]
    exact hi.world.fill ht ⟨fun {np'} hc => ⟨hc, nofun⟩, trivial⟩ rfl trivial id (List.nil_subset _)
      rfl rfl (.refl _)
  · intro q p' k hq hnone
    rcases setCall_cases hq with ⟨rfl, hx⟩ | ⟨-, hq⟩
    · cases hx
      have hp := (update_of_ne (hnobody ht) _ _).symm.trans hnone
      cases hi.cleared.null ht hp
    · exact hi.cleared.null hq ((update_of_ne (hnobody hq) _ _).symm.trans hnone)
  · intro q p' hq
    rcases setCall_cases hq with ⟨-, hx⟩ | ⟨-, hq⟩
    · cases hx
    · obtain ⟨hnone, hlast⟩ := hi.cleared.left hq
      refine ⟨(update_of_ne (hnobody hq) _ _).trans hnone, fun {q' k} hq' => ?_⟩
      rcases setCall_cases hq' with ⟨hqt, hx⟩ | ⟨-, hq'⟩
      · cases hx
        exact hqt.trans (hlast ht)
      · exact hlast hq'
  · intro q p' np' hq
    by_cases hnp : np' = np
    · subst hnp
      simp [State.setCwd]
    · rcases setCall_cases hq with ⟨-, hx⟩ | ⟨-, hq⟩
      · cases hx
        exact absurd rfl hnp
      · exact ne_of_eq_of_ne (update_of_ne hnp _ _) (hi.cleared.made hq)
  · rw [backed_setCwd ht rfl hnot (fun _ hq => absurd rfl (hnobody hq)) fun _ => rfl, Option.some_inj,
      eq_comm (a := old)]

/-! ### Threads and processes come and go -/

/-- Threads that are at no gap are gone. -/
theorem Inv.retires (hi : s.Inv) (hworld : s'.world.Inv script) (hcwd : s'.cwd = s.cwd)
    (hfault : s'.fault = s.fault)
    (hthread : ∀ q, s'.thread q = s.thread q ∨
      s'.thread q = none ∧ ∀ x ∈ s.thread q, x.2.gap = none) : s'.Inv ∧ Effect s s' .quiet := by
  have hold : ∀ {q x}, s'.thread q = some x → s.thread q = some x := by
    intro q x hq
    rcases hthread q with h | ⟨h, -⟩
    · exact h ▸ hq
    · cases h.symm.trans hq
  refine ⟨⟨hworld, ⟨?_, ?_, ?_⟩, hfault ▸ hi.calm⟩, .quiet fun p' ip' => ?_⟩
  · intro q p' k hq hnone
    exact hi.cleared.null (hold hq) (hcwd ▸ hnone)
  · intro q p' hq
    obtain ⟨hnone, hlast⟩ := hi.cleared.left (hold hq)
    exact ⟨hcwd ▸ hnone, fun hq' => hlast (hold hq')⟩
  · intro q p' np hq
    exact hcwd ▸ hi.cleared.made (hold hq)
  · unfold Backed
    rw [hcwd]
    refine and_congr_right fun _ => ⟨fun h q x hx hp => ?_, fun h q x hx => h q x (hold hx)⟩
    rcases hthread q with hsame | ⟨-, hgap⟩
    · exact h q x (hsame ▸ hx) hp
    · exact hgap x hx

theorem backed_spawn (hq : s.thread q = none) (p' : Nat) (ip : Inode) :
    (s.setCall q p .idle).Backed p' ip ↔ s.Backed p' ip := by
  refine and_congr_right fun _ => forall_congr' fun q' => ?_
  by_cases hqq : q' = q
  · subst hqq
    have hthread : (s.setCall q' p .idle).thread q' = some (p, .idle) := update_self ..
    simp [hthread, hq, Call.gap]
  · simp only [State.setCall, update_of_ne hqq]

theorem Inv.threadCreate (hi : s.Inv) (ht : s.thread t = some (p, .idle)) (hq : s.thread q = none) :
    (s.setCall q p .idle).Inv ∧ Effect s (s.setCall q p .idle) .quiet := by
  have hcwd : s.cwd p ≠ none := fun h => nomatch hi.cleared.null ht h
  refine ⟨⟨?_, hi.cleared.spawn hcwd, hi.calm⟩, .quiet (backed_spawn hq)⟩
  refine hi.world.spawn hq (hi.world.framed.home ht) ?_ rfl rfl rfl rfl trivial
  intro t' p' k' ht' hc
  exact (hi.world.framed.own ht' hc ht).1 rfl

theorem Inv.publish (hi : s.Inv) (ht : s.thread t = some (p, .forkPublish np))
    (hq : s.thread q = none) : ((s.setCall t p .idle).setCall q np .idle).Inv ∧
      Effect s ((s.setCall t p .idle).setCall q np .idle) .quiet := by
  have hne : q ≠ t := by
    intro heq
    subst heq
    cases ht.symm.trans hq
  have hq' : (s.setCall t p .idle).thread q = none := (update_of_ne hne _ _).trans hq
  have hgoes : script.Goes (.forkPublish np) .idle [] := .of_none nofun rfl (.refl _) rfl trivial
  refine ⟨⟨hi.world.publish ht rfl hq rfl hgoes rfl rfl rfl rfl rfl trivial, ?_, hi.calm⟩,
    .quiet fun p' ip' => ?_⟩
  · have hidle : (s.setCall t p .idle).Cleared := hi.cleared.setCall ht nofun nofun nofun
    exact hidle.spawn (hi.cleared.made ht)
  · rw [backed_spawn hq', backed_setCall ht rfl rfl]

theorem Inv.threadExit (hi : s.Inv) (ht : s.thread t = some (p, .idle)) :
    ({s with thread := update s.thread t none} : State).Inv ∧
      Effect s {s with thread := update s.thread t none} .quiet := by
  have hthread : ∀ q, update s.thread t none q = s.thread q ∨
      update s.thread t none q = none ∧ s.thread q = some (p, .idle) := by
    intro q
    by_cases hq : q = t
    · subst hq
      exact .inr ⟨update_self .., ht⟩
    · exact .inl (update_of_ne hq _ _)
  refine hi.retires (hi.world.retire (fun q => ?_) (fun _ => .inl rfl) fun _ _ => rfl) rfl rfl fun q => ?_
  · refine (hthread q).imp_right fun h => ⟨h.1, ?_⟩
    rw [show s.world.thread q = _ from h.2]
    exact Script.hand_eq_none rfl rfl rfl
  · refine (hthread q).imp_right fun h => ⟨h.1, fun x hx => ?_⟩
    cases h.2.symm.trans hx
    rfl

theorem Inv.exited {gone : List Slot} (hi : s.Inv) (ht : s.thread t = some (p, .exitLeave)) :
    (s.exited t p gone).Inv ∧ Effect s (s.exited t p gone) .quiet := by
  obtain ⟨hnone, hlast⟩ := hi.cleared.left ht
  have hthread : ∀ q, (s.exited t p gone).thread q = s.thread q ∧ q ≠ t ∨
      (s.exited t p gone).thread q = none ∧ s.thread q = some (p, .exitLeave) := by
    intro q
    simp only [State.exited]
    split
    · rename_i hq
      refine .inr ⟨rfl, ?_⟩
      rcases hq with rfl | ⟨-, hp⟩
      · exact ht
      · obtain ⟨⟨p', k⟩, hq', hpk⟩ := Option.map_eq_some_iff.mp hp
        subst hpk
        rw [hlast hq']
        exact ht
    · rename_i hq
      exact .inl ⟨rfl, fun h => hq (.inl h)⟩
  have hleft : ∀ {q p' k}, (s.exited t p gone).thread q = some (p', k) →
      s.thread q = some (p', k) ∧ p' ≠ p := by
    intro q p' k hq
    rcases hthread q with ⟨hsame, hne⟩ | ⟨hgone, -⟩
    · have hold := hsame.symm.trans hq
      refine ⟨hold, fun hp => ?_⟩
      subst hp
      exact hne (hlast hold)
    · cases hgone.symm.trans hq
  refine hi.retires (hi.world.retire (fun q => ?_) (fun p' => ?_) ?_) rfl rfl fun q => ?_
  · refine (hthread q).imp And.left fun h => ⟨h.1, ?_⟩
    rw [show s.world.thread q = _ from h.2]
    exact Script.hand_eq_none rfl rfl rfl
  · by_cases hp : p' = p
    · subst hp
      exact .inr ⟨fun _ => hnone, fun q k hq => (hleft hq).2 rfl⟩
    · exact .inl (update_of_ne hp _ _)
  · intro q p' k np hq hc
    have hnp := (hi.world.framed.own (hleft hq).1 hc ht).1
    exact update_of_ne hnp.symm _ _
  · refine (hthread q).imp And.left fun h => ⟨h.1, fun x hx => ?_⟩
    cases h.2.symm.trans hx
    rfl

theorem Inv.forkStart (hi : s.Inv) (ht : s.thread t = some (p, .idle))
    (halone : s.world.Alone script t p ()) :
    (s.forkStart t p).Inv ∧ Effect s (s.forkStart t p) .quiet := by
  unfold State.forkStart
  split
  · rename_i ip hip
    have hfresh : s.cwd s.next = none := hi.world.framed.fresh (x := ()) (le_refl s.next)
    have hcwd : update s.cwd s.next none = s.cwd := by
      rw [← hfresh, update_eq_self]
    rw [hcwd]
    refine hi.moves ht ?_ (Eq.refl (s.setCall t p (.forkDup s.next ip)).thread) rfl rfl nofun nofun nofun
      rfl rfl
    -- `cwd` is read, as if for a lookup, and then the child is made.
    have hlook : (s.setCall t p (.nameDup .other ip)).world.Inv script := by
      refine hi.world.look ht halone rfl ?_
      rw [show s.world.entry (p, ()) = some ip from hip]
      exact .of_none (fun _ hy => .inl hy) rfl (.refl _) rfl trivial
    have hself : (s.setCall t p (.nameDup .other ip)).world.thread t = some (p, .nameDup .other ip) :=
      update_self ..
    have hbirth : ((s.setCall t p (.nameDup .other ip)).world.birth t p (.forkDup s.next ip)).Inv script :=
      hlook.birth hself rfl (List.Subset.refl _) rfl (.refl _) rfl trivial
    have hthread : update (s.setCall t p (.nameDup .other ip)).world.thread t
        (some (p, .forkDup s.next ip)) = (s.setCall t p (.forkDup s.next ip)).thread :=
      update_idem ..
    unfold World.birth World.setCall at hbirth
    rw [hlook.framed.zeroed, hthread] at hbirth
    exact hbirth
  · rename_i hnone
    cases hi.cleared.null ht hnone

/-! ### Every step -/

theorem follows_fork (hk : k.child = some np) (hk' : k'.child = some np)
    (htodo : ∀ x, k'.todo x → k.todo x) : script.Follows k k' := by
  refine ⟨fun {np'} hc => ?_, trivial⟩
  cases hk'.symm.trans hc
  exact ⟨hk, htodo⟩

theorem eq_of_some {s₁ : State} {e₁ : Event} (h : some (s₁, e₁) = some (s', e)) : s₁ = s' ∧ e₁ = e :=
  Prod.mk.inj (Option.some.inj h)

theorem Inv.go (hi : s.Inv) (ht : s.thread t = some (p, k))
    (halone : k.reads .go = true → s.world.Alone script t p ())
    (hlast : k.clears = true → ∀ q, s.world.sibling t p q = none)
    (h : s.go t p k = some (s', e)) : s'.Inv ∧ Effect s s' e := by
  cases k with
  | nameDup k old =>
    cases h
    exact hi.idup ht nofun rfl nofun nofun (.of_none rfl trivial) (List.nil_subset _) rfl (.refl _)
  | walkPut k ip next =>
    cases next with
    | none | some next =>
      cases h
      exact hi.iput ht nofun rfl nofun nofun (.of_none rfl trivial) (List.nil_subset _) rfl (.refl _)
  | chdirRead ip =>
    cases h
    exact hi.readCwd ht nofun rfl (halone rfl) (fun _ => nofun) (fun _ => nofun)
      (fun _ => .of_none (fun _ hy => .inl hy) rfl (.refl _) rfl trivial)
  | chdirPut ip old | exitPut old =>
    cases h
    exact hi.putCwd ht nofun nofun nofun rfl rfl List.mem_cons_self (List.Subset.refl _)
      List.mem_cons_self (.refl _) (.of_none rfl trivial)
  | chdirStore ip old =>
    cases h
    exact hi.chdirStore ht
  | forkDup np old =>
    cases h
    exact hi.idup ht nofun rfl nofun nofun (follows_fork rfl rfl fun _ => id) (List.nil_subset _) rfl
      (.refl _)
  | forkStore np old =>
    cases h
    exact hi.forkStore ht
  | exitStore old =>
    cases h
    exact hi.exitStore ht (hlast rfl)
  | idle | walk | chdirCheck | forkPublish | exitLeave => cases h

theorem Inv.start (hi : s.Inv) (ht : s.thread t = some (p, .idle))
    (halone : Call.reads .idle op = true → s.world.Alone script t p ())
    (h : s.start t p op = some (s', e)) : s'.Inv ∧ Effect s s' e := by
  cases op with
  | threadCreate q =>
    simp only [State.start] at h
    split at h
    · rename_i hq
      cases h
      exact hi.threadCreate ht hq
    · cases h
  | threadExit =>
    cases h
    exact hi.threadExit ht
  | name k absolute =>
    cases absolute with
    | true =>
      obtain ⟨rfl, rfl⟩ := eq_of_some h
      exact hi.iget ht nofun rfl (fun _ => nofun) (fun _ => nofun) (fun _ => .of_none rfl trivial)
        (fun _ => List.nil_subset _) (fun _ => rfl) (fun _ => .refl _)
    | false =>
      cases h
      exact hi.readCwd ht nofun rfl (halone rfl) (fun _ => nofun) (fun _ => nofun)
        (fun _ => .of_none (fun _ hy => .inl hy) rfl (.refl _) rfl trivial)
  | fork =>
    cases h
    exact hi.forkStart ht (halone rfl)
  | exit =>
    cases h
    exact hi.readCwd ht nofun rfl (halone rfl) (fun _ => nofun) (fun _ => nofun)
      (fun _ => .of_none (fun _ hy => .inl hy) rfl (.refl _) rfl trivial)
  | elem | miss | last | dir | go | publish | leave => cases h

theorem Inv.lookup {k : Purpose} (hi : s.Inv) (ht : s.thread t = some (p, .walk k ip))
    (h : s.lookup t p k ip op = some s') : s'.Inv ∧ Effect s s' .quiet := by
  have hput : (s.setCall t p (.walkPut k ip none)).Inv ∧
      Effect s (s.setCall t p (.walkPut k ip none)) .quiet :=
    hi.hold ht nofun rfl nofun nofun (.of_none nofun rfl (.refl _) rfl trivial)
  cases op with
  | elem n =>
    simp only [State.lookup, hi.ilock ht List.mem_cons_self, Option.some.injEq] at h
    rw [← h]
    exact hi.iget ht nofun rfl (fun _ => nofun) (fun _ => nofun) (fun _ => .of_none rfl trivial)
      (fun _ => List.nil_subset _) (fun _ => rfl) (fun _ => .swap _ _ _)
  | miss =>
    simp only [State.lookup, hi.ilock ht List.mem_cons_self] at h
    cases h
    exact hput
  | last =>
    cases k with
    | chdir =>
      cases h
      exact hi.hold ht nofun rfl nofun nofun (.of_none nofun rfl (.refl _) rfl trivial)
    | other =>
      cases h
      exact hput
  | _ => cases h

theorem Inv.chdirCheck (hi : s.Inv) (ht : s.thread t = some (p, .chdirCheck ip))
    (h : s.act t p (.chdirCheck ip) op = some (s', e)) : s'.Inv ∧ Effect s s' e := by
  cases op with
  | dir ok =>
    cases ok with
    | true | false =>
      simp only [State.act, hi.ilock ht List.mem_cons_self] at h
      cases h
      exact hi.hold ht nofun rfl nofun nofun (.of_none nofun rfl (.refl _) rfl trivial)
  | _ => cases h

theorem Inv.step (hi : s.Inv) {l : (Slot × Op) × Event} (h : Guarded Taken Undisturbed s l s') :
    s'.Inv ∧ Effect s s' l.2 := by
  obtain ⟨⟨t, op⟩, e⟩ := l
  obtain ⟨hstep, hrule⟩ := h
  simp only [Taken, State.step] at hstep
  split at hstep
  · rename_i p k hfault ht
    simp only [Undisturbed, ht] at hrule
    obtain ⟨halone, hlast⟩ := hrule
    cases k with
    | idle => exact hi.start ht halone hstep
    | walk k ip =>
      obtain ⟨s₁, hlookup, heq⟩ := Option.map_eq_some_iff.mp hstep
      cases heq
      exact hi.lookup ht hlookup
    | chdirCheck ip => exact hi.chdirCheck ht hstep
    | forkPublish np =>
      cases op with
      | publish q =>
        simp only [State.act] at hstep
        split at hstep
        · rename_i hq
          cases hstep
          exact hi.publish ht hq
        · cases hstep
      | _ => cases hstep
    | exitLeave =>
      cases op with
      | leave gone =>
        cases hstep
        exact hi.exited ht
      | _ => cases hstep
    | _ =>
      simp only [State.act] at hstep
      split at hstep
      · rename_i hop
        subst hop
        exact hi.go ht halone hlast hstep
      · cases hstep
  · cases hstep

theorem boot_thread (q : Slot) : boot.thread q = none ∨ boot.thread q = some (0, .idle) := by
  simp only [boot]
  split
  · exact .inr rfl
  · exact .inl rfl

theorem boot_idle (hq : boot.thread q = some (p, k)) : p = 0 ∧ k = .idle := by
  rcases boot_thread q with h | h
  · cases h.symm.trans hq
  · cases h.symm.trans hq
    exact ⟨rfl, rfl⟩

theorem inv_boot : boot.Inv := by
  refine ⟨World.Inv.start (fun q => ?_) (fun {q p k} hq => ?_) (fun {p x} hp => ?_) ?_, ⟨?_, ?_, ?_⟩, .inl rfl⟩
  · rcases boot_thread q with hq | hq
    · rw [show boot.world.thread q = _ from hq]
    · rw [show boot.world.thread q = _ from hq]
      exact Script.hand_eq_none rfl rfl rfl
  · obtain ⟨rfl, rfl⟩ := boot_idle hq
    exact ⟨⟨Nat.one_pos, rfl⟩, trivial, rfl⟩
  · exact if_neg (Nat.ne_of_gt hp)
  · decide +kernel
  · intro q p k hq hnone
    obtain ⟨rfl, rfl⟩ := boot_idle hq
    cases hnone
  · intro q p hq
    cases (boot_idle hq).2
  · intro q p np hq
    cases (boot_idle hq).2

theorem backed_boot : boot.Backed p ip ↔ p = 0 ∧ ip = 0 := by
  have hgap : ∀ t, ∀ x ∈ boot.thread t, x.1 = p → x.2.gap = none := by
    intro t x hx _
    obtain ⟨p', k⟩ := x
    obtain ⟨-, rfl⟩ := boot_idle hx
    rfl
  rw [Backed, and_iff_left hgap]
  by_cases hp : p = 0
  · simp [boot, hp, eq_comm]
  · simp [boot, hp]

end State

/-! ### Runs -/

/-- How often `ip` has been stored in the `cwd` of `p`; the first process starts with one. -/
def sets (h : List ((Slot × Op) × Event)) (p : Nat) (ip : Inode) : Nat :=
  (h.map Prod.snd).count (.set p ip) + if p = 0 ∧ ip = 0 then 1 else 0

/-- How often `ip` has been put as the `cwd` of `p`. -/
def puts (h : List ((Slot × Op) × Event)) (p : Nat) (ip : Inode) : Nat :=
  (h.map Prod.snd).count (.put p ip)

/-- What has been stored has been put, but for the one that is there. -/
def Settled (h : List ((Slot × Op) × Event)) (s : State) : Prop :=
  ∀ p ip, sets h p ip = puts h p ip + if s.Backed p ip then 1 else 0

variable {h : List ((Slot × Op) × Event)} {s s' : State} {l : (Slot × Op) × Event}

theorem Settled.step (hs : Settled h s) (he : State.Effect s s' l.2) : Settled (l :: h) s' := by
  obtain ⟨a, e⟩ := l
  intro p ip
  have hold := hs p ip
  simp only [sets, puts, List.map_cons, List.count_cons] at hold ⊢
  cases he with
  | quiet hiff =>
    simp only [hiff p ip]
    simpa using hold
  | @put p' ip' hback hiff =>
    simp only [hiff p ip]
    by_cases hp : p' = p
    · subst hp
      by_cases hip : ip' = ip
      · subst hip
        simp [hback] at hold ⊢
        omega
      · have hnot : ¬ s.Backed p' ip := fun h => hip (Option.some.inj (hback.1.symm.trans h.1))
        simp [hnot, hip] at hold ⊢
        exact hold
    · simp [hp, Ne.symm hp] at hold ⊢
      exact hold
  | @set p' ip' hnot hiff =>
    simp only [hiff p ip]
    by_cases hp : p' = p
    · subst hp
      by_cases hip : ip' = ip
      · subst hip
        simp [hnot] at hold ⊢
        omega
      · simp [hnot, hip, Ne.symm hip] at hold ⊢
        exact hold
    · simp [hp, Ne.symm hp] at hold ⊢
      exact hold

theorem run_inv (hr : Run (Guarded Taken State.Undisturbed) State.boot h s) : s.Inv ∧ Settled h s := by
  refine hr.invariant (fun h s => s.Inv ∧ Settled h s) ⟨State.inv_boot, fun p ip => ?_⟩ ?_
  · simp [sets, puts, State.backed_boot]
  · intro h s l s' _ ⟨hi, hs⟩ hstep
    obtain ⟨hi', he⟩ := hi.step hstep
    exact ⟨hi', hs.step he⟩

namespace State

/-- The processes that have not exited whose `cwd` is `ip`. -/
def entries (s : State) (ip : Inode) : Nat := s.world.entries script ip

/-- The references that calls in progress have obtained and not yet stored or put. -/
def inProgress (s : State) (ip : Inode) : Nat := s.world.inProgress script ip

/-- The processes whose `cwd` is `ip` and has been put. -/
def owed (s : State) (ip : Inode) : Nat := s.world.owed script ip

theorem gap_full {k : Call} {x : Unit} (h : k.gap = some x) : ∃ ip, (x, some ip) ∈ k.seen := by
  cases k with
  | chdirStore ip old | exitStore old => exact ⟨old, List.mem_cons_self⟩
  | _ => cases h

end State

/-- In a run that keeps to `Undisturbed`, `cwd` is null only for a thread that has nothing to
do with it any more; every process that has not exited has one reference for it, but at the
two points where it has been put and not yet replaced; what was stored in it is put once;
and no null inode is followed, nor one without a reference. -/
theorem cwd_exact (hr : Run (Guarded Taken State.Undisturbed) State.boot h s) :
    (∀ t p k, s.thread t = some (p, k) → s.cwd p = none → k = .exitLeave) ∧
    ((∀ ip, s.ref ip = s.entries ip + s.inProgress ip) ↔
      ∀ t p k, s.thread t = some (p, k) → k.gap = none) ∧
    (∀ ip, s.ref ip + s.owed ip = s.entries ip + s.inProgress ip) ∧
    (∀ p ip, sets h p ip = puts h p ip + if s.Backed p ip then 1 else 0) ∧
    (s.fault = none ∨ s.fault = some .iget) := by
  obtain ⟨hi, hs⟩ := run_inv hr
  exact ⟨fun t p k => hi.cleared.null, hi.world.exact_iff State.gap_full, hi.world.exact, hs, hi.calm⟩

/-- `chdir("a")` up to the read of `cwd`, by thread `t`; `a` has inode number 5. -/
def Op.chdirs (t : Slot) : List (Slot × Op) :=
  [(t, .name .chdir false), (t, .go), (t, .elem 5), (t, .go), (t, .last), (t, .dir true)]

/-- Two threads: while one is in the middle of a path lookup the other changes the directory
and forks; the first ends, and the second exits. -/
theorem cwd_exact_exit : ∃ h s, Run (Guarded Taken State.Undisturbed) State.boot h s ∧
    s.cwd 0 = none ∧ s.cwd 1 = some 1 ∧ sets h 0 1 = 1 ∧ puts h 0 0 = 1 ∧ puts h 0 1 = 1 ∧
    (∀ ip, s.ref ip = s.entries ip + s.inProgress ip) ∧
    (∀ p ip, sets h p ip = puts h p ip + if s.Backed p ip then 1 else 0) ∧
    (s.fault = none ∨ s.fault = some .iget) := by
  have hrun : ∃ h s, Run (Guarded Taken State.Undisturbed) State.boot h s ∧
      s.cwd 0 = none ∧ s.cwd 1 = some 1 ∧ sets h 0 1 = 1 ∧ puts h 0 0 = 1 ∧
      puts h 0 1 = 1 ∧ ∀ t, ∀ x ∈ s.thread t, x.2.gap = none :=
    Run.exists_of_named State.Undisturbed
      ([(0, Op.threadCreate 1), (1, .name .other false), (1, .go), (1, .elem 5)] ++ Op.chdirs 0 ++
        [(0, Op.go), (1, .go), (0, .go), (0, .go), (0, .fork), (0, .go), (0, .go), (0, .publish 2),
        (1, .miss), (1, .go), (1, .threadExit), (0, .exit), (0, .go), (0, .go), (0, .leave [])])
      (by decide +kernel)
  obtain ⟨h, s, hr, h₀, h₁, hset, hput, hput', hgap⟩ := hrun
  obtain ⟨-, hiff, -, hsettled, hcalm⟩ := cwd_exact hr
  exact ⟨h, s, hr, h₀, h₁, hset, hput, hput', hiff.mpr fun t p k ht => hgap t (p, k) ht, hsettled, hcalm⟩

/-- Two threads that have been killed run `exit` side by side: one clears `cwd` and the other
calls `iput` with a null pointer. Two threads call `chdir`, and both put the old directory. -/
theorem shared_cwd_races :
    (∃ h s, Run Taken State.boot h s ∧ s.fault = some .null) ∧
    ∃ h s, Run Taken State.boot h s ∧ puts h 0 0 = 2 ∧ sets h 0 0 = 1 ∧ s.fault = some .under := by
  constructor
  · exact Run.exists_of_acts [(0, .threadCreate 1), (0, .exit), (0, .go), (0, .go), (1, .exit)]
      (by decide +kernel)
  · exact Run.exists_of_acts
      ((0, Op.threadCreate 1) :: (Op.chdirs 0 ++ Op.chdirs 1 ++ [(0, Op.go), (1, .go), (0, .go), (1, .go)]))
      (by decide +kernel)

end ThreadKernel.Cwd
