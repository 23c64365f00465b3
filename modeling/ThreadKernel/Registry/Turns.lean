import ThreadKernel.Registry.Pages

/-! What a move makes of one entry and of one page.

A move touches few entries and at most one page. `Turn` lists what may have become of a
given entry, with the event that goes with it, and `RegTurn` the same for the registry of
a page; an invariant that speaks of an entry or a page at a time is checked against these
lists and not against the moves. -/
namespace ThreadKernel

open Table Function

/-- The slot whose thread begins or ends. -/
@[simp] def Event.about : Event → Option Slot
  | .handedOut np | .created _ np _ _ => some np
  | .threadExited cur _ => some cur
  | .quiet | .forked _ _ | .exited _ | .waited _ _ _ | .joined _ _ _ _ | .killedOthers _ | .execed _ =>
    none

/-- What a move from `t` to `t'`, seen as `e`, did to the entry of `q`. -/
inductive Turn (t t' : Table) (e : Event) (q : Slot) : Prop where
  | same : e.about ≠ some q → t'.entry q = t.entry q → Turn t t' e q
  | handOut : e = .handedOut q → (t.entry q).phase = .free →
      t'.entry q = {t.entry q with phase := .embryo} → Turn t t' e q
  /-- Still being set up, or given up. -/
  | setUp : e.about ≠ some q → (t.entry q).phase.isEmbryo = true →
      ((t'.entry q).phase.isEmbryo = true ∨ (t'.entry q).phase = .free) → Turn t t' e q
  | publish {cur : Slot} {a : Page} : e = .forked cur q → (t.entry q).phase = .paged →
      (t.entry q).share = some a →
      t'.entry q = {t.entry q with phase := .live .user, order := 0, master := true} →
      t'.reg a = ⟨1, update (t.reg a).threads 0 (some q), fun i => i = 0⟩ → Turn t t' e q
  /-- With all flags set the registry stays as it is. -/
  | create {cur : Slot} {a : Page} {i : Index} : e = .created cur q a i →
      (t.entry q).phase.isEmbryo = true → (t.entry cur).phase = .live .user →
      (t.entry cur).share = some a →
      t'.entry q =
        {t.entry q with phase := .live .user, share := some a, order := i, master := false} →
      (((t.reg a).free = some i ∧ t'.reg a = (t.reg a).add i q) ∨ (t.reg a).free = none) → Turn t t' e q
  | threadExit {v : Word} : e = .threadExited q v → (t.entry q).phase = .live .user →
      t'.entry q = {t.entry q with phase := .zombie, retval := v} → Turn t t' e q
  | exit {cur : Slot} {a : Page} : e = .exited cur → (t.entry cur).phase = .live .user →
      (t.entry cur).share = some a → (t.entry q).share = some a → t' = t.killed a → Turn t t' e q
  | reap : e.about ≠ some q → (t.entry q).phase = .zombie →
      t'.entry q = {t.entry q with phase := .free} → Turn t t' e q
  | join : e.about ≠ some q → (t.entry q).phase = .zombie →
      t'.entry q = ⟨.free, none, 0, false, 0⟩ → Turn t t' e q
  | freed {cur : Slot} {a : Page} : e = .killedOthers cur → t.Victim cur a q →
      t'.entry q = {t.entry q with phase := .free, share := none, order := 0, retval := 0} →
      Turn t t' e q
  | enterExec {init : Bool} : e = .killedOthers q →
      (t.entry q).phase = .live (if init then .boot else .user) →
      t'.entry q = {t.entry q with phase := .live (.exec init)} → Turn t t' e q
  | commit {init : Bool} : e = .execed q → (t.entry q).phase = .live (.exec init) →
      t'.entry q = {t.entry q with phase := .live .user, master := true} → Turn t t' e q
  | leaveExec {init : Bool} : e.about ≠ some q → (t.entry q).phase = .live (.exec init) →
      t'.entry q = {t.entry q with phase := .live (if init then .boot else .user)} → Turn t t' e q

/-- What it did to the registry of page `a`. -/
inductive RegTurn (t t' : Table) (e : Event) (a : Page) : Prop where
  | same : t'.reg a = t.reg a → RegTurn t t' e a
  | blank : a = t.next → RegTurn t t' e a
  | publish {cur np : Slot} : e = .forked cur np → (t.entry np).phase = .paged →
      (t.entry np).share = some a → RegTurn t t' e a
  | add {cur np : Slot} {i : Index} : e = .created cur np a i → (t.entry cur).phase = .live .user →
      (t.entry cur).share = some a → (t.reg a).free = some i → t'.reg a = (t.reg a).add i np →
      RegTurn t t' e a
  | clear {cur : Slot} : (t.entry cur).phase = .live .user → (t.entry cur).share = some a →
      (t'.entry cur).phase = .zombie → t'.reg a = (t.reg a).clear (t.entry cur).order →
      RegTurn t t' e a
  | join {cur p : Slot} {i : Nat} {v : Word} : e = .joined cur p i v → (t.entry cur).share = some a →
      (t.entry p).phase = .zombie → (t'.entry p).phase = .free →
      t'.reg a = {t.reg a with count := (t.reg a).count - 1} → RegTurn t t' e a
  | reap {cur child : Slot} {pid : Word} (gone : Slot → Prop) [DecidablePred gone] :
      e = .waited cur child pid → (t.entry child).share = some a →
      (∀ q, gone q → (t.entry q).phase = .zombie ∧ ∃ i, (t.reg a).threads i = some q) →
      (∀ q, gone q → (t'.entry q).phase = .free) →
      t'.reg a = {t.reg a with count := (t.reg a).count - (Finset.univ.filter gone).card} →
      RegTurn t t' e a

variable {t t' : Table} {e : Event} {q np : Slot} {a : Page}

theorem not_alive_killed : ¬ (t.killed a).Alive a := by
  intro ⟨q, hlive, hshare⟩
  by_cases hq : (t.entry q).share = some a
  · simp only [Live, killed, if_pos hq] at hlive
    cases hlive
  · simp only [killed, if_neg hq] at hshare
    exact hq hshare

/-- A live proc of a page was one before, or is a child just published, or a new thread. -/
theorem Turn.member (ht : Turn t t' e q) (hq : t'.Member q a) :
    (t.Member q a ∧ (t'.entry q).order = (t.entry q).order ∧
      ((t'.entry q).master = (t.entry q).master ∨ e = .execed q)) ∨
    (∃ cur, e = .forked cur q ∧ (t.entry q).phase = .paged ∧ (t.entry q).share = some a ∧
      (t'.entry q).order = 0 ∧
      t'.reg a = ⟨1, update (t.reg a).threads 0 (some q), fun i => i = 0⟩) ∨
    (∃ cur i, e = .created cur q a i ∧ (t.entry cur).phase = .live .user ∧
      (t.entry cur).share = some a ∧ (t.entry q).phase.isEmbryo = true ∧ (t'.entry q).order = i ∧
      (t'.entry q).master = false ∧
      (((t.reg a).free = some i ∧ t'.reg a = (t.reg a).add i q) ∨ (t.reg a).free = none)) := by
  obtain ⟨hlive, hshare⟩ := hq
  unfold Live at hlive
  cases ht with
  | same _ hentry =>
    rw [hentry] at hlive hshare ⊢
    exact .inl ⟨⟨hlive, hshare⟩, rfl, .inl rfl⟩
  | setUp _ _ hnew =>
    rw [Phase.not_live_of_setUp hnew] at hlive
    cases hlive
  | publish he hpaged hnpa hentry hreg =>
    simp only [hentry] at hshare
    obtain rfl := Option.some.inj (hnpa.symm.trans hshare)
    exact .inr (.inl ⟨_, he, hpaged, hnpa, by rw [hentry], hreg⟩)
  | create he hembryo hcur hcura hentry hreg =>
    simp only [hentry] at hshare
    obtain rfl := Option.some.inj hshare
    exact .inr (.inr ⟨_, _, he, hcur, hcura, hembryo, by rw [hentry], by rw [hentry], hreg⟩)
  | exit _ _ _ hb hkilled =>
    simp only [hkilled, killed, if_pos hb] at hlive
    cases hlive
  | handOut _ _ hentry | threadExit _ _ hentry | reap _ _ hentry | join _ _ hentry
  | freed _ _ hentry =>
    simp only [hentry] at hlive
    cases hlive
  | commit he hphase hentry =>
    simp only [hentry] at hshare
    exact .inl ⟨⟨by rw [Live, hphase]; rfl, hshare⟩, by rw [hentry], .inr he⟩
  | enterExec _ hphase hentry | leaveExec _ hphase hentry =>
    simp only [hentry] at hshare
    exact .inl ⟨⟨by rw [Live, hphase]; rfl, hshare⟩, by rw [hentry], .inl (by rw [hentry])⟩

theorem Turn.of_set (habout : ∀ q ∈ e.about, q = np)
    (hentry : ∀ q, q ≠ np → t'.entry q = t.entry q) (h : Turn t t' e np) (q : Slot) :
    Turn t t' e q := by
  by_cases hq : q = np
  · rw [hq]
    exact h
  · exact .same (fun h => hq (habout q h)) (hentry q hq)

theorem RegTurn.of_set (hreg : ∀ b, b ≠ a → t'.reg b = t.reg b) (h : RegTurn t t' e a)
    (b : Page) : RegTurn t t' e b := by
  by_cases hb : b = a
  · rw [hb]
    exact h
  · exact .same (hreg b hb)

theorem Move.turn (hm : Move t e t') (q : Slot) : Turn t t' e q := by
  cases hm with
  | stay | alloc => exact .same (by simp) rfl
  | handOut hnp =>
    exact .of_set (by simp) (fun _ hq => by simp [set_entry, hq]) (.handOut rfl hnp (by simp)) q
  | page hnp =>
    exact .of_set (by simp) (fun _ hq => by simp [set_entry, hq])
      (.setUp (by simp) hnp (.inl (by simp [Phase.isEmbryo]))) q
  | drop hnp | createFail hcur hnp =>
    exact .of_set (by simp) (fun _ hq => by simp [set_entry, hq])
      (.setUp (by simp) hnp (.inr (by simp))) q
  | publish hnp hshare =>
    exact .of_set (by simp) (fun _ hq => by simp [set_entry, hq])
      (.publish rfl hnp hshare (by simp) (by simp)) q
  | create hcur hshare hnp hfree =>
    exact .of_set (by simp) (fun _ hq => by simp [set_entry, hq])
      (.create rfl hnp hcur hshare (by simp) (.inl ⟨hfree, by simp⟩)) q
  | createFull hcur hshare hnp hfree =>
    exact .of_set (by simp) (fun _ hq => by simp [set_entry, hq])
      (.create rfl hnp hcur hshare (by simp) (.inr hfree)) q
  | threadExit hcur hshare =>
    exact .of_set (by simp) (fun _ hq => by simp [set_entry, hq]) (.threadExit rfl hcur (by simp)) q
  | @exit cur a hcur hshare =>
    by_cases hq : (t.entry q).share = some a
    · exact .exit rfl hcur hshare hq rfl
    · exact .same (by simp) (by simp only [killed, if_neg hq])
  | @reap _ _ _ _ _ gone _ _ _ _ hgone _ =>
    by_cases hq : gone q
    · exact .reap (by simp) (hgone q hq).1 (by simp only [setReg_entry, reaped, if_pos hq])
    · exact .same (by simp) (by simp only [setReg_entry, reaped, if_neg hq])
  | join _ _ hp =>
    exact .of_set (by simp) (fun _ hq => by simp [set_entry, hq]) (.join (by simp) hp (by simp)) q
  | @killOthers cur a init hcur hshare =>
    by_cases hq : q = cur
    · subst hq
      exact .enterExec rfl hcur (by simp)
    · by_cases hv : t.Victim cur a q
      · exact .freed rfl hv (by simp only [set_entry, if_neg hq, Table.freed, if_pos hv])
      · exact .same (by simp) (by simp only [set_entry, if_neg hq, Table.freed, if_neg hv])
  | commit hcur =>
    exact .of_set (by simp) (fun _ hq => by simp [set_entry, hq]) (.commit rfl hcur (by simp)) q
  | execFail hcur =>
    exact .of_set (by simp) (fun _ hq => by simp [set_entry, hq])
      (.leaveExec (by simp) hcur (by simp)) q

theorem Move.regTurn (hm : Move t e t') (a : Page) : RegTurn t t' e a := by
  cases hm with
  | stay | alloc | handOut | drop | createFull | createFail | exit | killOthers | commit | execFail =>
    exact .same rfl
  | page => exact .of_set (fun _ hb => by simp [setReg_reg, hb]) (.blank rfl) a
  | publish hnp hshare =>
    exact .of_set (fun _ hb => by simp [setReg_reg, hb]) (.publish rfl hnp hshare) a
  | create hcur hshare hnp hfree =>
    exact .of_set (fun _ hb => by simp [setReg_reg, hb]) (.add rfl hcur hshare hfree (by simp)) a
  | threadExit hcur hshare =>
    exact .of_set (fun _ hb => by simp [setReg_reg, hb]) (.clear hcur hshare (by simp) (by simp)) a
  | @reap _ _ b _ _ gone _ _ _ hshare hgone hn =>
    refine .of_set (a := b) (fun _ hb => by simp [setReg_reg, hb, reaped]) ?_ a
    refine .reap gone rfl hshare hgone (fun q hq => ?_) (by rw [setReg_same, hn])
    simp only [setReg_entry, reaped, if_pos hq]
  | @join _ _ b _ hshare hp =>
    exact .of_set (fun _ hb => by simp [setReg_reg, hb])
      (.join rfl hshare hp (by simp) (setReg_same _ b _)) a

end ThreadKernel
