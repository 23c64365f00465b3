import ThreadKernel.Registry.Refine
import ThreadKernel.Registry.Pages

/-! Every step of the kernel is a move of the registry machine. -/
namespace ThreadKernel

open Kernel Abs Function

variable {s s' : Kernel} {t : Table} {c : Nat} {e : Event} {op : Op} {cur np : Slot} {own : Page}
  {k : Ctx}
  {s₁ : Kernel} {x : Proc} {y : Entry}

/-! ### The scheduler -/

theorem enter_abs (ha : Abs s t) (h : Enter s c cur s₁) : Abs s₁ t := by
  cases h with
  | call => exact ha
  | wake hm hp hr hloop =>
    refine ha.switchIn (c := c) (k := .user) hp (fun x => {x with state := .running, chan := .addr 0})
      ((ha.agree cur).carry rfl rfl rfl rfl ?_) rfl (fun c' => setCpu_cpu s c c' _) ?_ rfl rfl ?_ ?_
    · exact (ha.agree cur).live_iff.mpr (.inl hp)
    · funext q
      simp only [setProc_proc, setCpu_proc]
      split
      · simp
      · rfl
    · rw [Proc.stage, hr]
      rcases hloop with rfl | ⟨t, rfl⟩ <;> rfl
    · intro np h
      cases h

/-- A proc is put to sleep or preempted with its code saved. -/
theorem away_abs (hi : Sound s) (ha : Abs s t) {m : Mode} (hc : s.cpu c = ⟨some cur, m⟩)
    (hm : m.ctx = some k) (f : Proc → Proc)
    (hkeep : Agree (f (s.proc cur)) (t.entry cur)) (r : Resume)
    (hcontext : (f (s.proc cur)).context = some r)
    (hr : r.stage = k.stage ∧ ∀ k', r.ctx = some k' → k' = k) :
    Abs ((s.setProc cur f).sched c cur) t := by
  have hphase : (t.entry cur).phase = .live k.stage := ha.phase_on hc hm
  have := ha.switchOut hi hc f (t.entry cur) hkeep (fun _ => ?_) (fun k' hk' => ?_)
  · rwa [Table.set_self] at this
  · rw [hphase, Proc.stage, hcontext]
    exact congrArg _ hr.1.symm
  · have hctx := (ctx_eq_some.mp hk').2
    rw [hcontext] at hctx
    rw [hm, hr.2 k' hctx]

theorem body_sim (hi : Sound s) (ha : Abs s t) (hc : s.cpu c = ⟨some cur, .run .user⟩)
    (h : Body s c cur e s') : ∃ t', Move t e t' ∧ Abs s' t' := by
  have hcur : (t.entry cur).phase = .live .user := ha.phase_on hc rfl
  have hrelease : ∀ {s₁ : Kernel} {t₁ : Table}, Abs s₁ t₁ → s₁.cpu = s.cpu →
      (t₁.entry cur).phase = .live .user → Abs (s₁.release c .user) t₁ := by
    intro s₁ t₁ ha₁ hcpu hphase
    have hrel : (s₁.release c .user).cpu c = ⟨some cur, .run .user⟩ := by
      rw [release_cpu, if_pos rfl, hcpu, hc]
    refine ha₁.recode c rfl (fun c' hc' => ?_) (fun p k hp hk => ?_) (fun k np hk hnp => ?_) rfl rfl
    · rw [release_cpu, if_neg hc']
    · rw [hrel] at hp hk
      cases hp
      cases hk
      exact hphase
    · rw [hrel] at hk
      cases hk
      cases hnp
  cases h with
  | @reaped child own hfind hown =>
    obtain ⟨-, hzombie, hmaster⟩ : (s.proc child).parent = some cur ∧
        (s.proc child).state = .zombie ∧ (s.proc child).imMaster = true := by
      have := Fin.eq_true_of_find?_eq_some hfind
      simpa only [waitable, decide_eq_true_eq] using this
    have hrest := (reapFold s cur own child (List.finRange 6)).1
    have hunlisted : ¬ Listed s cur own (List.finRange 6) := fun hl => by
      have hz := hl.1
      rw [hi.on hc] at hz
      cases hz
    refine ⟨_, .reap (n := ((s.reap child own).shared own).numOfThread)
      (fun q => Listed s q own (List.finRange 6)) ((ha.agree child).zombie_iff.mpr hzombie)
      ((ha.agree child).master.trans hmaster) ((ha.agree child).share.trans hown) ?_ ?_,
      hrelease (ha.table hi hrest.cpu (fun q => ?_) (fun q => ?_) (fun a => ?_) ?_) hrest.cpu ?_⟩
    · rintro q ⟨hz, -, i, -, hi⟩
      exact ⟨(ha.agree q).zombie_iff.mpr hz, i, by rw [ha.reg]; exact hi⟩
    · rw [ha.reg]
      exact reapFold_count s child own (List.finRange 6)
    · rw [Table.setReg_entry, Table.reaped]
      by_cases hl : Listed s q own (List.finRange 6)
      · rw [reap_listed hl]
        simp only [if_pos hl]
        exact (ha.agree q).carry rfl rfl rfl rfl rfl
      · simp only [if_neg hl]
        rcases (reapFold s q own child (List.finRange 6)).2.2 hl with h | ⟨-, h⟩
        · rw [reap, h]
          exact ha.agree q
        · rw [reap, h]
          exact (ha.agree q).carry rfl rfl rfl rfl (ha.agree q).phase
    · rw [Table.setReg_entry, Table.reaped]
      by_cases hl : Listed s q own (List.finRange 6)
      · refine .gone (by rw [hl.1]; simp) (by rw [hl.1]; simp) ?_
        rw [reap_listed hl]
        rintro (h | h) <;> cases h
      · simp only [if_neg hl]
        rcases (reapFold s q own child (List.finRange 6)).2.2 hl with h | ⟨-, h⟩
        · exact .same (by rw [reap, h]) (by rw [reap, h]) rfl
        · exact .same (by rw [reap, h]) (by rw [reap, h]) rfl
    · rw [Table.setReg_reg]
      split
      · rename_i h
        rw [h, ha.reg]
        simp only [SharedData.toReg, reap, hrest.threads, hrest.isThere]
      · rename_i h
        show t.reg a = _
        rw [ha.reg, reap, hrest.other a h]
    · show t.next = _
      rw [ha.next, reap, hrest.nextPage]
    · rw [Table.setReg_entry, Table.reaped]
      simp only [if_neg hunlisted]
      exact hcur
  | @joined p i own stack hfind hstack hown =>
    obtain ⟨horder, hzombie, -, hmaster⟩ : ((s.proc p).orderOfThread : Nat) = i ∧
        (s.proc p).state = .zombie ∧ (s.proc p).parent = (s.proc cur).parent ∧
        (s.proc p).imMaster = false := by
      have := Fin.eq_true_of_find?_eq_some hfind
      simpa only [joinable, decide_eq_true_eq] using this
    have hne : cur ≠ p := by
      rintro rfl
      rw [hi.on hc] at hzombie
      cases hzombie
    have hmove := Move.join (t := t) hcur ((ha.agree cur).share.trans hown)
      ((ha.agree p).zombie_iff.mpr hzombie) ((ha.agree p).master.trans hmaster)
    rw [(ha.agree p).order, (ha.agree p).retval, horder] at hmove
    refine ⟨_, hmove, hrelease (ha.one hi (fun q => joinReap_proc s p q own) rfl ⟨rfl, rfl, rfl, rfl, rfl⟩
      (.gone ?_ ?_ (by rintro (h | h) <;> cases h)) rfl (fun a => ?_) ha.next) rfl ?_⟩
    · rw [hzombie]
      simp
    · rw [hzombie]
      simp
    · rw [Table.setReg_reg, joinReap_shared]
      split
      · rw [ha.reg]
        rfl
      · exact ha.reg a
    · rw [Table.setReg_entry, Table.set_entry, if_neg hne]
      exact hcur
  | failed => exact ⟨t, .stay, hrelease ha rfl hcur⟩
  | @asleep r hr =>
    refine ⟨t, .stay, away_abs hi ha hc rfl
      (fun x => {x with chan := .proc cur, state := .sleeping, context := some r}) ?_ r rfl ?_⟩
    · exact (ha.agree cur).carry rfl rfl rfl rfl
        (by rw [hcur]; rfl)
    · rcases hr with rfl | ⟨i, rfl⟩
      · exact ⟨rfl, fun k' h => by cases h⟩
      · exact ⟨rfl, fun k' h => by cases h⟩

/-! ### exit, thread_exit and exec -/

theorem threadExit_abs {v : Word} (hi : Sound s) (ha : Abs s t)
    (hc : s.cpu c = ⟨some cur, .run .user⟩) :
    Abs ((s.threadExit cur own v).sched c cur)
      ((t.setReg own ((t.reg own).clear (t.entry cur).order)).set cur
        {t.entry cur with phase := .zombie, retval := v}) := by
  have hkept := fun q => wakeup1_kept s q (s.masterChan own)
  -- the wakeup and the flag first, then the proc goes
  let s₁ := (s.wakeup1 (s.masterChan own)).setShared own fun d =>
    {d with isThere := update d.isThere (s.proc cur).orderOfThread false}
  have hi₁ : Sound s₁ := hi.table rfl fun q => .inl (hkept q)
  have ha₁ : Abs s₁ (t.setReg own ((t.reg own).clear (t.entry cur).order)) := by
    refine ha.table hi rfl (fun q => (ha.agree q).kept (hkept q)) (fun q => .kept (hkept q) rfl)
      (fun a => ?_) ha.next
    rw [Table.setReg_reg, setShared_shared]
    split
    · rw [ha.reg, (ha.agree cur).order]
      rfl
    · exact ha.reg a
  refine ha₁.switchOut hi₁ hc (fun x => {x with state := .zombie, retval := v}) _ ?_ ?_ ?_
  · have := ha₁.agree cur
    exact ⟨this.share, this.order, this.master, rfl, rfl⟩
  · rintro (h | h) <;> cases h
  · intro k hk
    rcases (ctx_eq_some.mp hk).1 with h | h <;> cases h

/-- `exit` by `cur` once it has made zombies of the others. -/
def Table.siblingsKilled (t : Table) (cur : Slot) (a : Page) : Table :=
  {t with entry := fun q =>
    if (t.entry q).share = some a ∧ q ≠ cur then {t.entry q with phase := .zombie} else t.entry q}

section
variable (hi : Sound s) (ha : Abs s t)
include hi ha

theorem exit_abs (hc : s.cpu c = ⟨some cur, .run .user⟩)
    (hown : (s.proc cur).sharePtr = some own) (hg : Apart s (.exited cur)) :
    Abs ((s.exit cur).sched c cur) (t.killed own) := by
  have hkept := fun q => exiting_kept s cur q
  have hcpu : (s.exiting cur).cpu = s.cpu := by simp [exiting]
  have hshared : (s.exiting cur).shared = s.shared := by simp [exiting]
  have hnext : (s.exiting cur).nextPage = s.nextPage := by simp [exiting]
  have hshare : ∀ q, ((s.exiting cur).proc q).sharePtr = ((s.exiting cur).proc cur).sharePtr ↔
      (t.entry q).share = some own := by
    intro q
    rw [(hkept q).sharePtr, (hkept cur).sharePtr, hown, (ha.agree q).share]
  have hbusy : ∀ q, q ≠ cur → (t.entry q).share = some own →
      ((s.exiting cur).proc q).state ≠ .running ∧ ((s.exiting cur).proc q).state ≠ .embryo := by
    intro q hq hqown
    obtain ⟨hrun, hembryo⟩ := hg q hq (by rw [← (ha.agree q).share, hqown, hown])
    rcases (hkept q).state with h | ⟨-, h⟩
    · rw [h]
      exact ⟨hrun, hembryo⟩
    · rw [h]
      simp
  have hi₁ : Sound (s.exiting cur) := hi.table hcpu fun q => .inl (hkept q)
  have ha₁ : Abs (s.exiting cur) t :=
    ha.table hi hcpu (fun q => (ha.agree q).kept (hkept q)) (fun q => .kept (hkept q) rfl)
      (fun a => by rw [ha.reg, hshared]) (by rw [ha.next, hnext])
  have hi₂ : Sound ((s.exiting cur).killSiblings cur) := killSiblings_sound hi hg
  rw [exit_eq]
  generalize s.exiting cur = s₁ at *
  -- the siblings first, then the caller goes
  have ha₂ : Abs (s₁.killSiblings cur) (t.siblingsKilled cur own) := by
    refine ha₁.table hi₁ rfl (fun q => ?_) (fun q => ?_) ha₁.reg ha₁.next
    · simp only [killSiblings, mapProc_proc, hshare, Table.siblingsKilled]
      split
      · exact (ha₁.agree q).carry rfl rfl rfl rfl rfl
      · exact ha₁.agree q
    · simp only [killSiblings, mapProc_proc, hshare, Table.siblingsKilled]
      split
      · rename_i h
        exact .gone (hbusy q h.2 h.1).1 (hbusy q h.2 h.1).2 (by rintro (h | h) <;> cases h)
      · exact .same rfl rfl rfl
  have hcur : (t.entry cur).share = some own := (hshare cur).mp rfl
  have hfinal := ha₂.switchOut hi₂ (p := cur) (c := c) (m := .run .user)
    (by show s₁.cpu c = _; rw [hcpu, hc]) (fun x => {x with state := .zombie})
    {t.entry cur with phase := .zombie} ?_ ?_ ?_
  · convert hfinal using 1
    simp only [Table.killed, Table.siblingsKilled, Table.set, Table.mk.injEq, and_self, and_true]
    funext q
    by_cases hq : q = cur
    · subst hq
      rw [update_self, if_pos hcur]
    · simp [hq]
  · have := ha₂.agree cur
    simp only [Table.siblingsKilled, ne_eq, not_true_eq_false, and_false, if_false] at this
    exact this.carry rfl rfl rfl rfl rfl
  · rintro (h | h) <;> cases h
  · intro k hk
    rcases (ctx_eq_some.mp hk).1 with h | h <;> cases h

theorem exec_abs {init : Bool}
    (hc : s.cpu c = ⟨some cur, .run k⟩) (hown : (s.proc cur).sharePtr = some own)
    (hkill : s.killOtherThreads cur own = some s₁) (hg : Apart s (.killedOthers cur)) :
    Abs (s₁.goto c (.execing init))
      ((t.freed (t.Victim cur own)).set cur {t.entry cur with phase := .live (.exec init)}) := by
  obtain ⟨hrest, hsame, hproc⟩ := killOtherThreads_eq s cur own hkill
  have hvictim : ∀ q, Victim s cur q own (List.finRange 6) ↔ t.Victim cur own q := by
    intro q
    simp [Victim, Table.Victim, ha.reg, SharedData.toReg]
  have hbusy : ∀ q, t.Victim cur own q → (s.proc q).state ≠ .running ∧ (s.proc q).state ≠ .embryo := by
    rintro q ⟨hne, i, hi, ht⟩
    rw [ha.reg] at hi ht
    exact hg own hown i hi q ht hne
  have hi₁ : Sound s₁ := by
    refine hi.table hrest.cpu fun q => ?_
    by_cases hv : t.Victim cur own q
    · rw [(hproc q).1 ((hvictim q).mpr hv)]
      exact .inr (.inr ⟨(hbusy q hv).1, (hbusy q hv).2, .inr rfl⟩)
    · rw [(hproc q).2 fun h => hv ((hvictim q).mp h)]
      exact .inl (.refl _)
  have ha₁ : Abs s₁ (t.freed (t.Victim cur own)) := by
    refine ha.table hi hrest.cpu (fun q => ?_) (fun q => ?_) (fun a => ?_) ?_
    · simp only [Table.freed]
      by_cases hv : t.Victim cur own q
      · rw [(hproc q).1 ((hvictim q).mpr hv), if_pos hv]
        exact ⟨rfl, rfl, (ha.agree q).master, rfl, rfl⟩
      · rw [(hproc q).2 fun h => hv ((hvictim q).mp h), if_neg hv]
        exact ha.agree q
    · simp only [Table.freed]
      by_cases hv : t.Victim cur own q
      · rw [(hproc q).1 ((hvictim q).mpr hv)]
        exact .gone (hbusy q hv).1 (hbusy q hv).2 (by rintro (h | h) <;> cases h)
      · rw [(hproc q).2 fun h => hv ((hvictim q).mp h), if_neg hv]
        exact .same rfl rfl rfl
    · show t.reg a = _
      rw [ha.reg]
      by_cases h : a = own
      · rw [h, hsame]
      · rw [hrest.other a h]
    · show t.next = _
      rw [ha.next, hrest.nextPage]
  have hnot : ¬ t.Victim cur own cur := fun h => h.1 rfl
  refine ha₁.restage hi₁ (k := k) (by rw [hrest.cpu, hc]) rfl _ ?_ rfl
  have := ha₁.agree cur
  simp only [Table.freed, if_neg hnot] at this
  refine this.carry rfl rfl rfl rfl ?_
  have hrun : (s₁.proc cur).state = .running := hi₁.running (c := c) (by rw [hrest.cpu, hc])
  rw [hrun]
  rfl

/-! ### Slots in the making -/

theorem own_abs (hc : s.cpu c = ⟨some cur, .run k⟩)
    (hk : k.target = some np) (hstage : k.stage = .user) :
    (s.proc np).state = .embryo ∧ (t.entry np).phase.isEmbryo = true ∧ Sound (s.goto c .user) ∧
      Abs (s.goto c .user) t ∧ ∀ h k₁, (s.goto c .user).code h = some k₁ → k₁.target ≠ some np := by
  have hctx : (s.cpu c).mode.ctx = some k := by rw [hc]; rfl
  obtain ⟨hembryo, hothers⟩ := hi.own hctx hk
  refine ⟨hembryo, (ha.agree np).embryo_iff.mpr hembryo, hi.goto k hctx (.inl rfl),
    ha.goto hc hstage.symm (fun np h => by cases h), fun h k₁ hcode => ?_⟩
  by_cases hh : h = .cpu c
  · subst hh
    have hmode : ((s.goto c .user).cpu c).mode.ctx = some k₁ := hcode
    rw [Kernel.goto, setCpu_cpu, if_pos rfl] at hmode
    cases hmode
    simp [Ctx.target]
  · refine hothers h k₁ hh ?_
    cases h with
    | cpu c' =>
      have hne : c' ≠ c := fun heq => hh (by rw [heq])
      have hmode : ((s.goto c .user).cpu c').mode.ctx = some k₁ := hcode
      rwa [Kernel.goto, setCpu_cpu, if_neg hne] at hmode
    | slot q => exact hcode

/-- A call ends with `np` published or given up. -/
theorem settle_abs (hc : s.cpu c = ⟨some cur, .run k⟩)
    (hk : k.target = some np) (hstage : k.stage = .user) {t' : Table}
    (hproc : ∀ q, s₁.proc q = if q = np then x else s.proc q) (hcpu : s₁.cpu = s.cpu)
    (hentry : t'.entry = update t.entry np y) (hagree : Agree x y)
    (hx : x.Waiting → y.phase = .live .user ∧ x.context = some (.release .user))
    (hreg : ∀ a, t'.reg a = (s₁.shared a).toReg) (hnext : t'.next = s₁.nextPage) :
    Abs (s₁.goto c .user) t' := by
  obtain ⟨hembryo, -, hi₁, ha₁, hfree⟩ := own_abs hi ha hc hk hstage
  refine ha₁.advance hi₁ ?_ hfree hembryo hproc hentry hagree hx hreg hnext
  simp only [Kernel.goto, setCpu, hcpu]

theorem create_abs (hc : s.cpu c = ⟨some cur, .run (.createFinish np)⟩)
    (hown : (s.proc cur).sharePtr = some own) :
    ∃ t', Move t (.created cur np own ((s.create cur np own).proc np).orderOfThread) t' ∧
      Abs ((s.create cur np own).goto c .user) t' := by
  have hcur := ha.phase_on hc rfl
  have hshare : (t.entry cur).share = some own := (ha.agree cur).share.trans hown
  obtain ⟨-, hphase, -⟩ := own_abs hi ha hc rfl rfl
  have hready : (s.proc np).context = some (.release .user) :=
    hi.ready (h := .cpu c) (by show (s.cpu c).mode.ctx = _; rw [hc]; rfl) rfl
  have hindex : (t.reg own).free = freeIndex (s.shared own) := by
    rw [ha.reg]
    rfl
  have horder : ((s.create cur np own).proc np).orderOfThread = s.newOrder np own := by
    rw [create_proc, if_pos rfl]
  have hnext : t.next = (s.create cur np own).nextPage := by rw [ha.next, create_nextPage]
  rw [horder]
  cases hf : freeIndex (s.shared own) with
  | some i =>
    have hnew : s.newOrder np own = i := by rw [newOrder, hf]; rfl
    rw [hnew]
    refine ⟨_, .create hcur hshare hphase (hindex.trans hf), settle_abs hi ha hc rfl rfl
      (fun q => create_proc s cur np q own) (create_cpu ..) rfl ?_ (fun _ => ⟨rfl, hready⟩) (fun a => ?_)
      hnext⟩
    · rw [hnew]
      exact ⟨hown.symm, rfl, rfl, (ha.agree np).retval, rfl⟩
    · rw [Table.setReg_reg, create_shared]
      simp only [hf]
      split
      · rw [ha.reg]
        rfl
      · exact ha.reg a
  | none =>
    have hnew : s.newOrder np own = (t.entry np).order := by
      rw [newOrder, hf, (ha.agree np).order]
      rfl
    rw [hnew]
    refine ⟨_, .createFull hcur hshare hphase (hindex.trans hf), settle_abs hi ha hc rfl rfl
      (fun q => create_proc s cur np q own) (create_cpu ..) rfl ?_ (fun _ => ⟨rfl, hready⟩) (fun a => ?_)
      hnext⟩
    · rw [hnew]
      exact ⟨hown.symm, rfl, rfl, (ha.agree np).retval, rfl⟩
    · rw [Table.set_reg, create_shared]
      simp only [hf]
      exact ha.reg a

theorem giveUp_abs (hc : s.cpu c = ⟨some cur, .run k⟩)
    (hk : k.target = some np) (hstage : k.stage = .user)
    (hproc : ∀ q, s₁.proc q = if q = np then x else s.proc q) (hagree : Agree x y)
    (hx : x.state = .unused) (hcpu : s₁.cpu = s.cpu) (hshared : s₁.shared = s.shared)
    (hnext : s₁.nextPage = s.nextPage) : Abs (s₁.goto c .user) (t.set np y) := by
  refine settle_abs hi ha hc hk hstage hproc hcpu rfl hagree (fun hw => ?_) (fun a => ?_) ?_
  · rcases hw with h | h <;> rw [hx] at h <;> cases h
  · rw [Table.set_reg, hshared]
    exact ha.reg a
  · rw [Table.set_next, hnext]
    exact ha.next

theorem case_sim (h : Case s c op e s') (hg : Apart s e) :
    ∃ t', Move t e t' ∧ Abs s' t' := by
  cases h with
  | acquire => exact ⟨t, .stay, ha.unload (m := .scan 0) rfl rfl rfl rfl rfl⟩
  | letGo => exact ⟨t, .stay, ha.unload (m := .idle) rfl rfl rfl rfl rfl⟩
  | @resume i p k hm hp hr =>
    refine ⟨t, .stay, ha.switchIn (c := c) (k := k) hp (fun x => {x with state := .running})
      ((ha.agree p).carry rfl rfl rfl rfl ((ha.agree p).live_iff.mpr (.inl hp))) rfl (fun c' => ?_)
      rfl rfl rfl ?_ (fun np hnp => ctx_eq_some.mpr ⟨.inl hp, ?_⟩)⟩
    · rw [release_cpu]
      simp only [setProc_cpu, setCpu_cpu, if_true]
      split <;> rfl
    · rw [Proc.stage, hr]
      rfl
    · rw [hr]
      rfl
  | @awake i p k hm hp hr =>
    refine ⟨t, .stay, ha.switchIn (c := c) (k := k) hp
      (fun x => {x with state := .running, chan := .addr 0})
      ((ha.agree p).carry rfl rfl rfl rfl ((ha.agree p).live_iff.mpr (.inl hp))) rfl (fun c' => ?_)
      ?_ rfl rfl ?_ (fun np hnp => ctx_eq_some.mpr ⟨.inl hp, ?_⟩)⟩
    · rw [release_cpu]
      simp only [setProc_cpu, setCpu_cpu, if_true]
      split <;> rfl
    · funext q
      simp only [release_proc, setProc_proc, setCpu_proc]
      split
      · simp
      · rfl
    · rw [Proc.stage, hr]
      rfl
    · rw [hr]
      rfl
  | body henter hbody =>
    obtain ⟨hi₁, hc⟩ := enter_sound hi henter
    exact body_sim hi₁ (enter_abs ha henter) hc hbody
  | @tick cur k hc =>
    refine ⟨t, .stay, ha.recode c rfl (fun c' hc' => ?_) (fun p k₁ hp hk => ?_)
      (fun k₁ np hk hnp => ?_) rfl rfl⟩
    · rw [setCpu_cpu, if_neg hc']
    · rw [setCpu_cpu, if_pos rfl] at hp hk
      cases hp
      cases hk
      exact ha.phase_on hc rfl
    · rw [setCpu_cpu, if_pos rfl] at hk
      cases hk
      exact ha.paged (h := .cpu c) (by show (s.cpu c).mode.ctx = _; rw [hc]; rfl) hnp
  | @yield p k hc hl =>
    refine ⟨t, .stay, away_abs hi ha hc rfl
      (fun x => {x with state := .runnable, context := some (.release k)}) ?_ (.release k) rfl
      ⟨rfl, fun k' h => (Option.some.inj h).symm⟩⟩
    exact (ha.agree p).carry rfl rfl rfl rfl
      ((ha.agree p).live_iff.mpr (.inr (.inl (hi.on hc))))
  | @sleep cur k ch hc hl =>
    refine ⟨t, .stay, away_abs hi ha hc rfl
      (fun x => {x with chan := ch, state := .sleeping, context := some (.slept k)}) ?_ (.slept k) rfl
      ⟨rfl, fun k' h => (Option.some.inj h).symm⟩⟩
    exact (ha.agree cur).carry rfl rfl rfl rfl
      ((ha.agree cur).live_iff.mpr (.inr (.inl (hi.on hc))))
  | @wakeup ch =>
    exact ⟨t, .stay, ha.table hi rfl (fun q => (ha.agree q).kept (wakeup1_kept s q ch))
      (fun q => .kept (wakeup1_kept s q ch) rfl) ha.reg ha.next⟩
  | stay => exact ⟨t, .stay, ha⟩
  | @alloc cur np s₁ k hc halloc hk =>
    have hproc := allocproc_proc halloc
    obtain ⟨hunused, -, rfl⟩ := allocproc_eq halloc
    refine ⟨_, .handOut ((ha.agree np).free_iff.mpr hunused), Abs.goto (k := .user)
      (ha.one hi hproc rfl ((ha.agree np).carry rfl rfl rfl rfl rfl)
        (.gone ?_ ?_ (by rintro (h | h) <;> cases h)) rfl ha.reg ha.next) hc ?_ (fun n hn => ?_)⟩
    · rw [hunused]
      simp
    · rw [hunused]
      simp
    · rcases hk with rfl | rfl <;> rfl
    · rcases hk with rfl | rfl <;> cases hn
  | @allocKstack cur np k k' hc hk =>
    have hctx : (s.cpu c).mode.ctx = some k := by rw [hc]; rfl
    have hembryo : (s.proc np).state = .embryo :=
      hi.embryo (h := .cpu c) hctx (by rcases hk with ⟨rfl, -⟩ | ⟨rfl, -⟩ <;> rfl)
    refine ⟨_, .alloc, Abs.goto (k := k) (ha.one hi (allocKstack_proc s np) (update_eq_self ..).symm
      ((ha.agree np).carry rfl rfl rfl rfl (ha.agree np).phase) (.embryo hembryo hembryo (.inl rfl)) rfl ha.reg
      (congrArg (· + 1) ha.next)) hc ?_ (fun n hn => ?_)⟩
    · rcases hk with ⟨rfl, rfl⟩ | ⟨rfl, rfl⟩ <;> rfl
    · rcases hk with ⟨-, rfl⟩ | ⟨-, rfl⟩ <;> cases hn
  | @abandon cur np k stack hc hk _ =>
    have htarget : k.target = some np := by rcases hk with rfl | rfl | rfl <;> rfl
    have hstage : k.stage = .user := by rcases hk with rfl | rfl | rfl <;> rfl
    obtain ⟨-, hphase, -⟩ := own_abs hi ha hc htarget hstage
    refine ⟨_, .drop hphase, giveUp_abs hi ha hc htarget hstage
      (fun q => abandon_proc s np q stack) ((ha.agree np).carry rfl rfl rfl rfl rfl) rfl rfl rfl rfl⟩
  | @forkPage cur np hc =>
    obtain ⟨hembryo, hphase, -⟩ := own_abs hi ha hc rfl rfl
    refine ⟨_, .page hphase, Abs.goto (k := .forkPage np)
      (ha.one hi (forkPage_proc s np) rfl ?_ (.embryo hembryo hembryo (.inr rfl)) rfl (fun a => ?_)
        (congrArg (· + 1) ha.next)) hc rfl (fun n hn => ?_)⟩
    · exact ⟨by rw [ha.next], (ha.agree np).order, (ha.agree np).master, (ha.agree np).retval,
        by rw [hembryo]; rfl⟩
    · rw [forkPage_shared, ← ha.next]
      rw [Table.setReg_reg]
      split
      · rfl
      · exact ha.reg a
    · cases hn
      rw [Table.setReg_entry, Table.set_same]
  | @forkCopy cur np own hc hown =>
    obtain ⟨hembryo, -⟩ := own_abs hi ha hc rfl rfl
    refine ⟨_, .alloc, Abs.goto (k := .forkCopy np)
      (ha.one hi (fun q => forkCopy_proc s cur np q own) (update_eq_self ..).symm
        ((ha.agree np).carry rfl rfl rfl rfl (ha.agree np).phase) (.embryo hembryo hembryo (.inl rfl)) rfl
        (fun a => ?_) (congrArg (· + 1) ha.next)) hc rfl (fun n hn => ?_)⟩
    · show t.reg a = _
      rw [forkCopy_shared, ha.reg]
      split
      · rename_i h
        rw [h]
        rfl
      · rfl
    · cases hn
      exact ha.paged (h := .cpu c) (by show (s.cpu c).mode.ctx = _; rw [hc]; rfl) rfl
  | @forkCopyFail cur np hc =>
    obtain ⟨-, hphase, -⟩ := own_abs hi ha hc rfl rfl
    exact ⟨_, .drop hphase, giveUp_abs hi ha hc rfl rfl (forkCopyFail_proc s np)
      ((ha.agree np).carry rfl rfl rfl rfl rfl) rfl rfl rfl rfl⟩
  | @forkPublish cur np own hc hown =>
    have hctx : (s.cpu c).mode.ctx = some (.forkPublish np) := by rw [hc]; rfl
    refine ⟨_, .publish (ha.paged (h := .cpu c) hctx rfl) ((ha.agree np).share.trans hown),
      settle_abs hi ha hc rfl rfl (fun q => forkPublish_proc s np q own) rfl rfl
        ⟨(ha.agree np).share, rfl, rfl, (ha.agree np).retval, rfl⟩
        (fun _ => ⟨rfl, hi.ready (h := .cpu c) hctx rfl⟩) (fun a => ?_) ha.next⟩
    rw [Table.setReg_reg, forkPublish_shared]
    split
    · rw [ha.reg]
      rfl
    · exact ha.reg a
  | create hc hown => exact create_abs hi ha hc hown
  | @createFail cur np own hc hown =>
    have hcur : (t.entry cur).phase = .live .user := ha.phase_on hc rfl
    obtain ⟨-, hphase, -⟩ := own_abs hi ha hc rfl rfl
    refine ⟨_, .createFail hcur hphase,
      giveUp_abs hi ha hc rfl rfl (createFail_proc s cur np) ?_ rfl rfl rfl rfl⟩
    exact ⟨(ha.agree cur).share, (ha.agree np).order, (ha.agree np).master, (ha.agree np).retval, rfl⟩
  | @threadExit cur own v hc hown =>
    exact ⟨_, .threadExit (ha.phase_on hc rfl) ((ha.agree cur).share.trans hown),
      threadExit_abs hi ha hc⟩
  | @exit cur own hc hown hinit =>
    exact ⟨_, .exit (ha.phase_on hc rfl) ((ha.agree cur).share.trans hown),
      exit_abs hi ha hc hown hg⟩
  | @kill p =>
    exact ⟨t, .stay, ha.table hi rfl (fun q => (ha.agree q).kept (kill_kept s p q))
      (fun q => .kept (kill_kept s p q) rfl) ha.reg ha.next⟩
  | killLeak =>
    exact ⟨t, .stay, ha.table hi rfl ha.agree (fun q => .same rfl rfl rfl) ha.reg ha.next⟩
  | @exec cur own s₁ k init hc hown hkill hk =>
    refine ⟨_, @Move.killOthers t cur own init ?_ ((ha.agree cur).share.trans hown),
      exec_abs hi ha hc hown hkill hg⟩
    rw [ha.phase_on hc rfl]
    rcases hk with ⟨rfl, rfl⟩ | ⟨rfl, rfl⟩ <;> rfl
  | @execCommit cur own init hc hown =>
    have hphase : (t.entry cur).phase = .live (.exec init) := ha.phase_on hc rfl
    have hrun : (s.proc cur).state = .running := hi.on hc
    have hi₁ : Sound (s.execCommit cur own) := execCommit_sound hi
    have ha₁ : Abs (s.execCommit cur own)
        {t.set cur {t.entry cur with master := true} with next := t.next + 1} := by
      have hold := ha.agree cur
      refine ha.one hi (fun q => execCommit_proc s cur q own) rfl
        ⟨hold.share, hold.order, rfl, hold.retval, hold.phase⟩ (.same rfl rfl rfl) rfl (fun a => ?_)
        (congrArg (· + 1) ha.next)
      show t.reg a = _
      rw [execCommit_shared, ha.reg]
      split
      · rename_i h
        rw [h]
        rfl
      · rfl
    have hagree : Agree ((s.execCommit cur own).proc cur)
        {t.entry cur with phase := .live .user, master := true} := by
      rw [execCommit_proc, if_pos rfl]
      exact ⟨(ha.agree cur).share, (ha.agree cur).order, rfl, (ha.agree cur).retval, by rw [hrun]; rfl⟩
    have : Abs ((s.execCommit cur own).goto c .user) _ :=
      ha₁.restage hi₁ (c := c) (k := .execing init) hc rfl _ hagree rfl
    refine ⟨_, .commit hphase ((ha.agree cur).share.trans hown), ?_⟩
    convert this using 1
    simp only [Table.set, update_idem]
  | @execFail cur own k init hc hown hk =>
    have hphase : (t.entry cur).phase = .live (.exec init) := ha.phase_on hc rfl
    have hrun : (s.proc cur).state = .running := hi.on hc
    refine ⟨_, .execFail hphase ((ha.agree cur).share.trans hown), ha.restage hi hc ?_ _ ?_ ?_⟩
    · rcases hk with ⟨rfl, -⟩ | ⟨rfl, -⟩ <;> rfl
    · exact (ha.agree cur).carry rfl rfl rfl rfl (by rw [hrun]; rfl)
    · rcases hk with ⟨rfl, rfl⟩ | ⟨rfl, rfl⟩ <;> rfl

end

/-! ### Runs -/

/-- The table `userinit` leaves. -/
def Table.boot : Table where
  entry := fun p =>
    if p = 0 then ⟨.live .boot, some 1, 0, false, 0⟩ else ⟨.free, none, 0, false, 0⟩
  reg := fun a =>
    if a = 1 then ⟨1, update (fun _ => none) 0 (some 0), fun i => i = 0⟩ else .blank
  next := 3

namespace Table

variable {q : Slot} {a : Page}

theorem boot_entry (h : q ≠ 0) : boot.entry q = ⟨.free, none, 0, false, 0⟩ := by
  simp only [boot, if_neg h]

theorem boot_share (h : (boot.entry q).share = some a) : q = 0 ∧ a = 1 := by
  by_cases hq : q = 0
  · subst hq
    exact ⟨rfl, (Option.some.inj h).symm⟩
  · rw [boot_entry hq] at h
    cases h

theorem boot_phase (h : (boot.entry q).phase ≠ .free) : q = 0 := by
  by_contra hq
  exact h (by rw [boot_entry hq])

theorem boot_pages : Pages boot where
  own := fun {q} hq => by
    obtain rfl := boot_phase (q := q) (by rw [hq]; simp)
    cases hq
  fresh := fun hq => by
    obtain ⟨-, rfl⟩ := boot_share hq
    decide

end Table

theorem boot_abs : Abs boot Table.boot where
  agree := fun q => by
    by_cases hq : q = 0
    · subst hq
      exact ⟨rfl, rfl, rfl, rfl, rfl⟩
    · simp only [boot, Table.boot, if_neg hq]
      exact ⟨rfl, rfl, rfl, rfl, rfl⟩
  cpu := fun h => by cases h
  saved := fun {p} hp => by
    by_cases hq : p = 0
    · subst hq
      rfl
    · simp only [boot, if_neg hq] at hp
      rcases hp with h | h <;> cases h
  paged := fun hk hp => by
    have := Ctx.target_of_paged hp
    rw [boot_code hk] at this
    cases this
  reg := fun a => by
    simp only [boot, Table.boot]
    split <;> rfl
  next := rfl

/-- A rule on kernel steps carries over to moves, along runs that also keep `Apart`. -/
theorem run_sim {rule : Kernel → Event → Prop} {ruleT : Table → Event → Prop}
    (hrule : ∀ s t e, Sound s → Abs s t → rule s e → Apart s e ∧ ruleT t e) {h : List Event}
    (hr : Lts.Run (Lts.Guarded Step rule) boot h s) :
    ∃ t, Lts.Run (Lts.Guarded Move ruleT) Table.boot h t ∧ Sound s ∧ Abs s t := by
  refine hr.simulate (fun s t => Sound s ∧ Abs s t) ⟨boot_sound, boot_abs⟩ ?_
  rintro s t e s' ⟨hi, ha⟩ ⟨⟨c, op, hs⟩, hg⟩
  obtain ⟨hapart, hruleT⟩ := hrule s t e hi ha hg
  obtain ⟨t', hmove, ha'⟩ := case_sim hi ha (step_case hs) hapart
  exact ⟨t', ⟨hmove, hruleT⟩, hi.step (step_case hs) hapart, ha'⟩

end ThreadKernel
