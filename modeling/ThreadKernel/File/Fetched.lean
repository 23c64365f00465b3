import ThreadKernel.File.Sorted

/-! What `argfd` returns stays open.

Every step that keeps to `Quiet` leaves the structs `Sorted`, and what files and calls
keep open is open: an inode has the references that are told of it, and an end of a pipe
that somebody has is not closed. -/
namespace ThreadKernel.File

open Refcount Lts Function

namespace Files

variable {s s' : Files} {t q : Slot} {p : Nat} {k k' : Call} {op : Op} {f : FileId} {fd : Fd}
  {e : Event}
  {table' : State} {ip : Nat} {kind : Kind} {l : Local} {a : Act}

/-! ### Steps of the tables -/

theorem setTable_here (hs : s.Sorted) (hturn : Turn s.table table' t p k op k') (hne : q ≠ t) :
    (s.setTable table').here q = s.here q ∧ (s.setTable table').got q = s.got q := by
  simp only [setTable]
  split
  · rename_i hnone
    rcases hturn.others q hne with heq | ⟨-, p', hnew⟩
    · rw [heq] at hnone
      rw [(hs.vacant hnone).1, (hs.vacant hnone).2]
      exact ⟨rfl, rfl⟩
    · rw [hnew] at hnone
      cases hnone
  · exact ⟨rfl, rfl⟩

/-- A thread that is in no call and uses no file has nothing from `argfd`. -/
theorem Sorted.got_idle (hs : s.Sorted) (ht : s.table.thread t = some (p, .idle))
    (hdoing : ∀ kind fd f b, (s.here t).doing ≠ .uses kind fd f b) : s.got t = none := by
  cases hgot : s.got t with
  | none => rfl
  | some x =>
    obtain ⟨-, -, -, ⟨kind, fd, b, huses⟩ | ⟨p', k', ht', hk⟩⟩ := hs.got hgot
    · exact absurd huses (hdoing kind fd x.f b)
    · rw [ht] at ht'
      cases ht'
      cases hk

/-- What a step of the table leaves of what the thread has from `argfd`. -/
theorem Sorted.gotAfter (hs : s.Sorted) (hturn : Turn s.table s'.table t p k op k')
    (hbase : s'.table.Inv) (hstep : s.table.step (t, op) = some (s'.table, e))
    (hfetches : ∀ fd ∈ k.fetches op, ∀ f, s.table.ofile (p, fd) = some f → (s.desc f).object ≠ none)
    (hgen : ∀ f, s.table.ref f ≠ 0 → s'.gen f = s.gen f)
    (hdesc : ∀ f, (s.desc f).object ≠ none → s'.table.ref f ≠ 0 → s'.desc f = s.desc f)
    {x : Got} (hx : s.gotAfter t p k op s'.table = some x) :
    s'.gen x.f = x.gen ∧ s'.desc x.f = x.desc ∧ x.desc.object ≠ none ∧ k'.fetched = some x.f := by
  have hcalm := hs.base.calm
  -- `dup` and `close` have just called `argfd`
  have hfetch : ∀ fd (found : FileId → Call), k.fetches op = some fd →
      s'.table = s.table.test t p fd found .idle → (∀ f, (found f).fetched = some f) →
      (s.table.ofile (p, fd)).map (fun f => (⟨f, s.gen f, s.desc f⟩ : Got)) = some x →
      s'.gen x.f = x.gen ∧ s'.desc x.f = x.desc ∧ x.desc.object ≠ none ∧ k'.fetched = some x.f := by
    intro fd found hfd htest hfound hmap
    obtain ⟨f, hentry, rfl⟩ := Option.map_eq_some_iff.mp hmap
    have hobject := hfetches fd hfd f hentry
    have href : s.table.ref f ≠ 0 := fun hzero => hobject (object_of_none (hs.zero hzero))
    have hk' : k' = found f := by
      have hnext := hturn.next
      rw [htest, State.test, hentry] at hnext
      simp only [State.setCall, update_self] at hnext
      cases hnext
      rfl
    have href' : s'.table.ref f = s.table.ref f := by
      rw [htest, State.test, hentry]
      rfl
    refine ⟨hgen f href, hdesc f hobject (by rw [href']; exact href), hobject, ?_⟩
    rw [hk']
    exact hfound f
  unfold Files.gotAfter at hx
  split at hx
  · rename_i fd
    refine hfetch fd (.fdalloc (.dup fd) · 0) rfl ?_ (fun _ => rfl) hx
    simp only [State.step, hcalm, hturn.own, State.act, State.start] at hstep
    exact (Prod.mk.inj (Option.some.inj hstep)).1.symm
  · rename_i fd
    refine hfetch fd (.closeClear fd) rfl ?_ (fun _ => rfl) hx
    simp only [State.step, hcalm, hturn.own, State.act, State.start] at hstep
    exact (Prod.mk.inj (Option.some.inj hstep)).1.symm
  · obtain ⟨hgot, hfetched⟩ := Option.filter_eq_some_iff.mp hx
    rw [hturn.next] at hfetched
    have hk' : k'.fetched = some x.f := by simpa using hfetched
    obtain ⟨hgen', hdesc', hobject, -⟩ := hs.got hgot
    have href' : s'.table.ref x.f ≠ 0 :=
      Nat.ne_of_gt (hbase.pos_of_ready hturn.next (Call.ready_of_fetched hk'))
    refine ⟨?_, ?_, hobject, hk'⟩
    · rw [hgen x.f (Nat.ne_of_gt (hs.got_pos hgot))]
      exact hgen'
    · rw [hdesc x.f (hdesc' ▸ hobject) href']
      exact hdesc'

/-- What the thread has from `argfd` is there as long as the call needs it. -/
theorem Sorted.gotAfter_fetched (hs : s.Sorted)
    (hturn : Turn s.table table' t p k op k') (hf : k'.fetched = some f) :
    ∃ x, s.gotAfter t p k op table' = some x ∧ x.f = f := by
  rcases hturn.fetched f hf with hold | ⟨rfl, fd, rfl | rfl, hentry⟩
  · obtain ⟨x, hx, hxf⟩ := hs.fetched hturn.own hold
    refine ⟨x, ?_, hxf⟩
    have hidle : k ≠ .idle := by
      intro heq
      rw [heq] at hold
      cases hold
    unfold Files.gotAfter
    split
    · exact absurd rfl hidle
    · exact absurd rfl hidle
    · simp [hx, hturn.next, hf, hxf]
  · exact ⟨_, by simp [Files.gotAfter, hentry]; rfl, rfl⟩
  · exact ⟨_, by simp [Files.gotAfter, hentry]; rfl, rfl⟩

/-- A step of the table by a thread that may take it. -/
structure Taking (s : Files) (t : Slot) (p : Nat) (k : Call) (op : Op) (e : Event) (table' : State)
    (k' : Call) : Prop where
  doing : (s.here t).doing = .table
  step : s.table.step (t, op) = some (table', e)
  turn : Turn s.table table' t p k op k'
  base : table'.Inv
  fetches : ∀ fd ∈ k.fetches op, ¬ s.Filled t p fd ∧
    ∀ f, s.table.ofile (p, fd) = some f → (s.desc f).object ≠ none
  drops : ∀ fd ∈ k.drops op, ¬ s.InUse t p fd

/-- What may happen to the structs and to the locals of the thread. -/
structure Fitting (s s' : Files) (t : Slot) (k : Call) (op : Op) (k' : Call) : Prop where
  desc : ∀ f, s'.desc f = s.desc f ∨ f ∈ k.raw ∧ (s'.desc f).object ≠ none ∨ s'.table.ref f = 0
  zero : ∀ f, s'.table.ref f = 0 → (s'.desc f).type = .none
  raw : ∀ f ∈ k'.raw, s'.desc f = s.desc f
  piped : ∀ f ∈ (k.outcome op).files, (s'.desc f).object ≠ none
  fill : ∀ fd f, (s'.here t).doing = .fill fd f → k.outcome op = .opened f fd ∧ s'.desc = s.desc
  stores : ∀ f fd, k.outcome op = .opened f fd → (s'.here t).doing = .fill fd f
  uses : ∀ kind fd f b, (s'.here t).doing ≠ .uses kind fd f b

theorem Sorted.shift (hs : s.Sorted) (ht : Taking s t p k op e s'.table k')
    (hf : Fitting s s' t k op k') (hgen : s'.gen = (s.setTable s'.table).gen)
    (hhere : ∀ q, q ≠ t → s'.here q = (s.setTable s'.table).here q)
    (hgot : s'.got = update (s.setTable s'.table).got t (s.gotAfter t p k op s'.table))
    (hcalm : s'.panic = none) : Shift s s' t p k op k' := by
  have hdoing : ∀ fd f, (s.here t).doing ≠ .fill fd f := by
    intro fd f hfill
    rw [ht.doing] at hfill
    cases hfill
  have hgen' : ∀ f, s.table.ref f ≠ 0 → s'.gen f = s.gen f := by
    intro f hne
    rw [hgen]
    simp [setTable, hne]
  have hdesc : ∀ f, (s.desc f).object ≠ none → s'.table.ref f ≠ 0 → s'.desc f = s.desc f := by
    intro f hobject href
    rcases hf.desc f with heq | ⟨hraw, -⟩ | hzero
    · exact heq
    · exact absurd (object_of_none (hs.raw ht.turn.own hraw).2) hobject
    · exact absurd hzero href
  refine ⟨ht.turn, ht.base, fun q hne => ?_, hgen', fun f => ?_, hf.zero, hf.raw, hf.piped,
    ht.fetches, ht.drops, fun fd f hfill => absurd hfill (hdoing fd f), fun fd f hfill => ?_,
    hf.stores, fun kind fd f b huses => absurd huses (hf.uses kind fd f b), fun x hx => ?_,
    fun f hf => ?_, hcalm⟩
  · obtain ⟨hh, hg⟩ := setTable_here hs ht.turn hne
    rw [hhere q hne, hgot, update_of_ne hne]
    exact ⟨hh, hg⟩
  · rcases hf.desc f with heq | ⟨hraw, hobject⟩ | hzero
    · exact .inl heq
    · exact .inr (.inl ⟨.inl hraw, hobject⟩)
    · exact .inr (.inr hzero)
  · obtain ⟨hopened, hsame⟩ := hf.fill fd f hfill
    obtain ⟨rfl, rfl⟩ := Call.eq_of_opened hopened
    have hstep := ht.step
    simp only [State.step, hs.base.calm, ht.turn.own, State.act, State.go] at hstep
    have htable := (Prod.mk.inj (Option.some.inj hstep)).1
    have hnext := ht.turn.next
    rw [← htable] at hnext ⊢
    simp only [State.setFile, State.setCall, update_self, Origin.stored] at hnext
    cases hnext
    exact ⟨rfl, rfl, update_self .., rfl, by rw [hsame]⟩
  · rw [hgot, update_self] at hx
    obtain ⟨h₁, h₂, h₃, h₄⟩ := hs.gotAfter ht.turn ht.base ht.step
      (fun fd hfd => (ht.fetches fd hfd).2) hgen' hdesc hx
    exact ⟨h₁, h₂, h₃, .inr h₄⟩
  · rw [hgot, update_self]
    exact hs.gotAfter_fetched ht.turn hf

/-- A struct without a reference has no type, but right after `fileclose`. -/
theorem Taking.zero (ht : Taking s t p k op e table' k') (hs : s.Sorted)
    (href : table'.ref f = 0) : (s.desc f).type = .none ∨ k.outcome op = .dropped f := by
  by_cases hzero : s.table.ref f = 0
  · exact .inl (hs.zero hzero)
  · rcases ht.turn.ref f with heq | ⟨h0, -⟩ | ⟨-, hpos⟩ | hdropped
    · exact absurd (heq ▸ href) hzero
    · exact absurd h0 hzero
    · omega
    · exact .inr hdropped

section
variable {table' : State} {d : Doing}

theorem setDoing_here_of_ne (hne : q ≠ t) : (s.setDoing t d).here q = s.here q := by
  simp only [setDoing, update_of_ne hne]

@[simp] theorem setDoing_doing : ((s.setDoing t d).here t).doing = d := by
  simp only [setDoing, update_self]

section
variable {o : Outcome}

/-- The structs, the pipes and the locals of the thread are all that changes. -/
theorem settle_same : (s.settle t o).table = s.table ∧ (s.settle t o).gen = s.gen ∧
    (s.settle t o).got = s.got ∧ (s.settle t o).panic = s.panic := by
  cases o with
  | dropped f =>
    simp only [settle, closed]
    split <;> exact ⟨rfl, rfl, rfl, rfl⟩
  | _ => exact ⟨rfl, rfl, rfl, rfl⟩

@[simp] theorem settle_table : (s.settle t o).table = s.table := settle_same.1

theorem settle_here_of_ne (hne : q ≠ t) : (s.settle t o).here q = s.here q := by
  cases o with
  | nothing | piped => rfl
  | opened => exact setDoing_here_of_ne hne
  | finished => simp only [settle, abandon, update_of_ne hne]
  | dropped f =>
    simp only [settle, closed]
    split
    · exact setDoing_here_of_ne hne
    · rfl

theorem not_fill_or_uses {d : Doing} (h : d = .table ∨ ∃ o, d = .release o) :
    (∀ fd f, d ≠ .fill fd f) ∧ ∀ kind fd f b, d ≠ .uses kind fd f b := by
  rcases h with rfl | ⟨o, rfl⟩ <;> exact ⟨nofun, nofun⟩

/-- A call that is told of nothing else goes on as before, or has something to release. -/
theorem settle_doing (ho : ∀ f fd, o ≠ .opened f fd) (hdoing : (s.here t).doing = .table) :
    ((s.settle t o).here t).doing = .table ∨ ∃ x, ((s.settle t o).here t).doing = .release x := by
  cases o with
  | nothing | piped => exact .inl hdoing
  | opened f fd => exact absurd rfl (ho f fd)
  | finished =>
    simp only [settle, abandon, update_self]
    cases (s.here t).ip with
    | none => exact .inl hdoing
    | some ip => exact .inr ⟨_, rfl⟩
  | dropped f =>
    simp only [settle, closed]
    split
    · simp only [setDoing_doing]
      cases (s.desc f).object with
      | none => exact .inl hdoing
      | some x => exact .inr ⟨x, rfl⟩
    · exact .inl hdoing

end

/-- Only a pipe and the last `fileclose` change a struct. -/
theorem settle_desc {o : Outcome} (hpiped : o.files = []) (hdropped : o ≠ .dropped f ∨ s.table.ref f ≠ 0) :
    (s.settle t o).desc f = s.desc f := by
  cases o with
  | nothing | opened | finished => rfl
  | piped => cases hpiped
  | dropped f₁ =>
    simp only [settle, closed]
    split
    · rename_i hzero
      refine update_of_ne (fun heq => ?_) _ _
      subst heq
      exact hdropped.elim (fun h => h rfl) (fun h => h hzero)
    · rfl

theorem settle_dropped (hzero : s.table.ref f = 0) :
    ((s.settle t (.dropped f)).desc f).type = .none := by
  simp [settle, closed, hzero]

section

variable (ht : Taking s t p k op e table' k')
include ht

theorem setTable_doing : ((s.moved t p k op table').here t).doing = .table := by
  simp [moved, setTable, ht.turn.next, ht.doing]

theorem Taking.piped (hs : s.Sorted) {f0 f1 : FileId} (ho : k.outcome op = .piped f0 f1) :
    Fitting s ((s.moved t p k op table').settle t (.piped f0 f1)) t k op k' := by
  obtain ⟨rfl, rfl⟩ := Call.eq_of_piped ho
  have hk' : k' = .fdalloc (.pipeRead f1) f0 0 := by
    have hstep := ht.step
    have hnext := ht.turn.next
    simp only [State.step, hs.base.calm, ht.turn.own, State.act] at hstep
    rw [← (Prod.mk.inj (Option.some.inj hstep)).1] at hnext
    simp only [State.setCall, update_self] at hnext
    cases hnext
    rfl
  subst hk'
  have hobject : ∀ f, f = f0 ∨ f = f1 →
      (((s.moved t p (.pipePage f0 f1) (.page true) table').settle t (.piped f0 f1)).desc f).object ≠
        none := by
    intro f hf
    simp only [settle, pipealloc, update_apply]
    split
    · simp [Desc.object]
    · rename_i hne
      rw [if_pos (hf.resolve_right hne)]
      simp [Desc.object]
  have hsame : ∀ f, f ≠ f0 → f ≠ f1 →
      ((s.moved t p (.pipePage f0 f1) (.page true) table').settle t (.piped f0 f1)).desc f =
        s.desc f := by
    intro f h0 h1
    simp [settle, pipealloc, h0, h1, moved, setTable]
  have hmem : ∀ f, f = f0 ∨ f = f1 → f ∈ (Call.pipePage f0 f1).raw := by
    intro f hf
    simpa [Call.raw] using hf
  obtain ⟨hfill, huses⟩ := not_fill_or_uses (.inl (setTable_doing ht))
  refine ⟨fun f => ?_, fun f href => ?_, (by rintro _ ⟨⟩), fun f hf => hobject f ?_,
    fun fd f hf => absurd hf (hfill fd f), (by rintro _ _ ⟨⟩), huses⟩
  · by_cases hf : f = f0 ∨ f = f1
    · exact .inr (.inl ⟨hmem f hf, hobject f hf⟩)
    · push Not at hf
      exact .inl (hsame f hf.1 hf.2)
  · rw [settle_table] at href
    by_cases hf : f = f0 ∨ f = f1
    · have hpos := ht.base.pos_of_ready ht.turn.next (f := f) (by simpa [Call.ready, Origin.ready] using hf)
      exact absurd href (Nat.ne_of_gt hpos)
    · push Not at hf
      rw [hsame f hf.1 hf.2]
      rcases ht.zero hs href with htype | hdropped
      · exact htype
      · cases hdropped
  · rw [ho] at hf
    simpa [Outcome.files] using hf

theorem Taking.fitting (hs : s.Sorted) :
    Fitting s ((s.moved t p k op table').settle t (k.outcome op)) t k op k' := by
  have hdoing := setTable_doing ht
  by_cases hpiped : ∃ f0 f1, k.outcome op = .piped f0 f1
  · obtain ⟨f0, f1, ho⟩ := hpiped
    have hfit := ht.piped hs ho
    rw [← ho] at hfit
    exact hfit
  · have hfiles : (k.outcome op).files = [] := by
      cases ho : k.outcome op with
      | piped f0 f1 => exact absurd ⟨f0, f1, ho⟩ hpiped
      | _ => rfl
    have hdesc : ∀ f, k.outcome op ≠ .dropped f ∨ table'.ref f ≠ 0 →
        ((s.moved t p k op table').settle t (k.outcome op)).desc f = s.desc f :=
      fun f h => settle_desc (s := s.moved t p k op table') hfiles h
    refine ⟨fun f => ?_, fun f href => ?_, fun f hf => hdesc f (.inr ?_), fun f hf => ?_,
      fun fd f hfill => ?_, fun f fd ho => ?_, fun kind fd f b huses => ?_⟩
    · by_cases href : table'.ref f = 0
      · exact .inr (.inr (by rw [settle_table]; exact href))
      · exact .inl (hdesc f (.inr href))
    · rw [settle_table] at href
      by_cases hdropped : k.outcome op = .dropped f
      · rw [hdropped]
        exact settle_dropped href
      · rw [hdesc f (.inl hdropped)]
        exact (ht.zero hs href).resolve_right hdropped
    · rcases ht.turn.raw f hf with ⟨hraw, heq⟩ | ⟨-, hone⟩
      · rw [heq, (hs.raw ht.turn.own hraw).1]
        exact Nat.one_ne_zero
      · rw [hone]
        exact Nat.one_ne_zero
    · rw [hfiles] at hf
      cases hf
    · cases ho : k.outcome op with
      | opened f' fd' =>
        rw [ho] at hfill
        simp only [settle, setDoing_doing] at hfill
        cases hfill
        exact ⟨rfl, rfl⟩
      | _ =>
        exact absurd hfill
          ((not_fill_or_uses (settle_doing (o := k.outcome op) (by simp [ho]) hdoing)).1 fd f)
    · rw [ho]
      exact setDoing_doing
    · cases ho : k.outcome op with
      | opened f' fd' =>
        rw [ho] at huses
        simp only [settle, setDoing_doing] at huses
        cases huses
      | _ => exact (not_fill_or_uses (settle_doing (o := k.outcome op) (by simp [ho]) hdoing)).2 _ _ _ _ huses

theorem Taking.sorted (hs : s.Sorted) :
    ((s.moved t p k op table').settle t (k.outcome op)).Sorted := by
  have ht' : Taking s t p k op e ((s.moved t p k op table').settle t (k.outcome op)).table k' := by
    rw [settle_table]
    exact ht
  refine (hs.shift ht' (ht.fitting hs) ?_ (fun q hne => ?_) ?_ ?_).sorted hs
  · rw [settle_table, settle_same.2.1]
    rfl
  · rw [settle_table, settle_here_of_ne hne]
    rfl
  · rw [settle_table, settle_same.2.2.1]
    rfl
  · rw [settle_same.2.2.2]
    exact hs.calm

end

end

/-! ### Steps beside the tables -/

section

variable (hs : s.Sorted) (ht : s.table.thread t = some (p, k))
include hs ht

/-- The table is as it was, and so are the structs, but for one that the thread has filled. -/
theorem Sorted.beside (htable : s'.table = s.table) (hgen : s'.gen = s.gen) (hcalm : s'.panic = none)
    (hhere : ∀ q, q ≠ t → s'.here q = s.here q ∧ s'.got q = s.got q)
    (hdesc : ∀ f, s'.desc f = s.desc f ∨
      (∃ fd, (s.here t).doing = .fill fd f) ∧ (s'.desc f).object ≠ none)
    (hfilled : ∀ fd f, (s.here t).doing = .fill fd f → (s'.desc f).object ≠ none)
    (hfill : ∀ fd f, (s'.here t).doing ≠ .fill fd f)
    (huses : ∀ kind fd f b, (s'.here t).doing = .uses kind fd f b → k = .idle ∧
      s.table.ofile (p, fd) = some f ∧
      (∀ q k, s.table.thread q = some (p, k) →
        fd ∉ k.transit ∧ (q ≠ t → (s.here q).doing.fills fd = false)) ∧
      ∃ x, s'.got t = some x ∧ x.f = f)
    (hgot : ∀ x, s'.got t = some x → s'.gen x.f = x.gen ∧ s'.desc x.f = x.desc ∧
      x.desc.object ≠ none ∧
      ((∃ kind fd b, (s'.here t).doing = .uses kind fd x.f b) ∨ k.fetched = some x.f))
    (hfetched : k.fetched = none ∨ s'.got t = s.got t) : s'.Sorted := by
  obtain ⟨houtcome, hfetches, hdrops⟩ := @Call.exit_eq k
  have hturn : Turn s.table s'.table t p k .exit k := by
    rw [htable]
    exact .refl ht
  have hshift : Shift s s' t p k .exit k := by
    refine ⟨hturn, by rw [htable]; exact hs.base, hhere, fun f _ => by rw [hgen], fun f => ?_,
      fun f href => ?_, fun f hf => ?_, by simp [houtcome, Outcome.files], by simp [hfetches],
      by simp [hdrops], hfilled, fun fd f h => absurd h (hfill fd f), by simp [houtcome], ?_, hgot,
      fun f hf => ?_, hcalm⟩
    · rcases hdesc f with heq | ⟨hf, hobject⟩
      · exact .inl heq
      · exact .inr (.inl ⟨.inr hf, hobject⟩)
    · rw [htable] at href
      rcases hdesc f with heq | ⟨⟨fd, hf⟩, -⟩
      · rw [heq]
        exact hs.zero href
      · obtain ⟨-, -, -, hone, -⟩ := hs.fill hf
        omega
    · rcases hdesc f with heq | ⟨⟨fd, hfd⟩, -⟩
      · exact heq
      · obtain ⟨p', ht', -⟩ := hs.fill hfd
        rw [ht] at ht'
        cases ht'
        cases hf
    · intro kind fd f b hdoing
      obtain ⟨rfl, hentry, hfree, hx⟩ := huses kind fd f b hdoing
      rw [htable]
      refine ⟨p, ht, hentry, fun q k' hq => ⟨(hfree q k' hq).1, ?_⟩, hx⟩
      by_cases hqt : q = t
      · rw [hqt, hdoing]
        rfl
      · rw [(hhere q hqt).1]
        exact (hfree q k' hq).2 hqt
    · rcases hfetched with hnone | heq
      · rw [hnone] at hf
        cases hf
      · rw [heq]
        exact hs.fetched ht hf
  exact hshift.sorted hs

theorem Sorted.fill_step {omode : Nat} (hhere : s.here t = ⟨some ip, .fill fd f⟩) :
    (s.fill t f ip omode).Sorted := by
  have hdoing : (s.here t).doing = .fill fd f := by rw [hhere]
  obtain ⟨p', ht', -⟩ := hs.fill hdoing
  rw [ht] at ht'
  cases ht'
  have hgot : s.got t = none := hs.got_idle ht (by rw [hdoing]; nofun)
  refine hs.beside ht rfl rfl hs.calm (fun q hne => ⟨?_, rfl⟩) (fun f' => ?_) (fun fd' f' hf' => ?_)
    (fun fd' f' hf' => ?_) (fun kind fd' f' b hf' => ?_) (fun x hx => ?_) (.inl rfl)
  · simp only [Files.fill, update_of_ne hne]
  · by_cases hf : f' = f
    · subst hf
      exact .inr ⟨⟨fd, hdoing⟩, by simp [Files.fill, Desc.object]⟩
    · exact .inl (by simp only [Files.fill, update_of_ne hf])
  · rw [hdoing] at hf'
    cases hf'
    simp [Files.fill, Desc.object]
  · simp [Files.fill, Local.none] at hf'
  · simp [Files.fill, Local.none] at hf'
  · rw [show s.got t = some x from hx] at hgot
    cases hgot

theorem Sorted.release_step {o : Object}
    (hdoing : (s.here t).doing = .release o) : ((s.dropObject o).setDoing t .table).Sorted := by
  have hsame : (s.dropObject o).table = s.table ∧ (s.dropObject o).gen = s.gen ∧
      (s.dropObject o).panic = s.panic ∧ (s.dropObject o).here = s.here ∧
      (s.dropObject o).got = s.got ∧ (s.dropObject o).desc = s.desc := by
    cases o <;> exact ⟨rfl, rfl, rfl, rfl, rfl, rfl⟩
  obtain ⟨htable, hgen, hpanic, hhere, hgot, hdesc⟩ := hsame
  refine hs.beside ht htable hgen (hpanic.trans hs.calm) (fun q hne => ?_)
    (fun f => .inl (by rw [← hdesc]; rfl)) (fun fd f hf => ?_) (fun fd f hf => ?_)
    (fun kind fd f b hf => ?_) (fun x hx => ?_) (.inr (congrFun hgot t))
  · rw [setDoing_here_of_ne hne, hhere]
    exact ⟨rfl, by rw [← hgot]; rfl⟩
  · rw [hdoing] at hf
    cases hf
  · rw [setDoing_doing] at hf
    cases hf
  · rw [setDoing_doing] at hf
    cases hf
  · have hx' : s.got t = some x := by
      rw [← hgot]
      exact hx
    obtain ⟨h₁, h₂, h₃, ⟨kind, fd, b, huses⟩ | ⟨p', k', ht', hk⟩⟩ := hs.got hx'
    · rw [hdoing] at huses
      cases huses
    · rw [ht] at ht'
      cases ht'
      refine ⟨?_, ?_, h₃, .inr hk⟩
      · rw [← h₁, ← hgen]
        rfl
      · rw [← h₂, ← hdesc]
        rfl

theorem Sorted.use_step {b : Bool} (hdoing : (s.here t).doing = .uses kind fd f b) :
    (s.finish t).Sorted ∧ (s.setDoing t (.uses kind fd f true)).Sorted := by
  obtain ⟨p', ht', hentry, hfree, x, hx, hxf⟩ := hs.uses hdoing
  rw [ht] at ht'
  cases ht'
  have hno : ∀ fd' f', (s.here t).doing ≠ .fill fd' f' := by
    intro fd' f' hf
    rw [hdoing] at hf
    cases hf
  constructor
  · refine hs.beside ht rfl rfl hs.calm (fun q hne => ?_) (fun f => .inl rfl)
      (fun fd f hf => absurd hf (hno fd f)) (fun fd f hf => ?_) (fun kind fd f b hf => ?_)
      (fun x hx => ?_) (.inl rfl)
    · refine ⟨setDoing_here_of_ne hne, ?_⟩
      simp only [finish, update_of_ne hne]
    · simp only [finish, setDoing_doing] at hf
      cases hf
    · simp only [finish, setDoing_doing] at hf
      cases hf
    · simp only [finish, update_self] at hx
      cases hx
  · refine hs.beside ht rfl rfl hs.calm (fun q hne => ⟨setDoing_here_of_ne hne, rfl⟩)
      (fun f => .inl rfl) (fun fd f hf => absurd hf (hno fd f)) (fun fd f hf => ?_)
      (fun kind' fd' f' b' hf => ?_) (fun y hy => ?_) (.inl rfl)
    · rw [setDoing_doing] at hf
      cases hf
    · rw [setDoing_doing] at hf
      cases hf
      exact ⟨rfl, hentry, fun q k' hq => ⟨(hfree q k' hq).1, fun _ => (hfree q k' hq).2⟩, x, hx, hxf⟩
    · obtain ⟨h₁, h₂, h₃, -⟩ := hs.got hy
      have hyf : y.f = f := by
        rw [show s.got t = some y from hy] at hx
        cases hx
        exact hxf
      refine ⟨h₁, h₂, h₃, .inl ⟨kind, fd, true, ?_⟩⟩
      rw [setDoing_doing, hyf]

end

theorem not_fills (h : ¬ s.Filled t p fd) (hq : s.table.thread q = some (p, k)) (hne : q ≠ t) :
    (s.here q).doing.fills fd = false := by
  by_contra hfills
  refine h ⟨q, ?_, by simpa using hfills⟩
  rw [World.sibling_eq (show s.table.world.thread q = _ from hq) hne]
  rfl

section
variable (hs : s.Sorted)
include hs

theorem Sorted.fetch_step (ht : s.table.thread t = some (p, .idle))
    (hhere : s.here t = .none) (hentry : s.table.ofile (p, fd) = some f) (hfilled : ¬ s.Filled t p fd)
    (htransit : ∀ q, ∀ k ∈ s.table.world.sibling t p q, fd ∉ k.transit) :
    (s.fetch t kind fd f).Sorted := by
  have hdoing : (s.here t).doing = .table := by
    rw [hhere]
    rfl
  have hfree : ∀ q k, s.table.thread q = some (p, k) →
      fd ∉ k.transit ∧ (q ≠ t → (s.here q).doing.fills fd = false) := by
    intro q k hq
    by_cases hqt : q = t
    · subst hqt
      rw [ht] at hq
      cases hq
      exact ⟨nofun, fun hne => absurd rfl hne⟩
    · exact ⟨htransit q k (World.sibling_eq hq hqt), not_fills hfilled hq⟩
  have hobject : (s.desc f).object ≠ none := by
    refine hs.object_of_entry ht hentry fun q k hq => ⟨fun hgap => ?_, ?_⟩
    · exact (hfree q k hq).1 (Call.transit_of_gap hgap)
    · by_cases hqt : q = t
      · rw [hqt, hdoing]
        rfl
      · exact (hfree q k hq).2 hqt
  refine hs.beside ht rfl rfl hs.calm (fun q hne => ⟨setDoing_here_of_ne hne, ?_⟩)
    (fun f => .inl rfl) (fun fd' f' hf => ?_) (fun fd' f' hf => ?_) (fun kind' fd' f' b hf => ?_)
    (fun x hx => ?_) (.inl rfl)
  · simp only [Files.fetch, update_of_ne hne]
  · rw [hdoing] at hf
    cases hf
  · simp only [Files.fetch, setDoing_doing] at hf
    cases hf
  · simp only [Files.fetch, setDoing_doing] at hf
    cases hf
    exact ⟨rfl, hentry, hfree, _, update_self .., rfl⟩
  · simp only [Files.fetch, update_self] at hx
    cases hx
    exact ⟨rfl, rfl, hobject, .inl ⟨kind, fd, false, by simp only [Files.fetch, setDoing_doing]⟩⟩

theorem Sorted.access_step (ht : s.table.thread t = some (p, k))
    (hdoing : (s.here t).doing = .uses kind fd f false) : (s.access t kind fd f).Sorted := by
  obtain ⟨hfinish, hinside⟩ := hs.use_step ht hdoing
  obtain ⟨-, -, -, -, x, hx, rfl⟩ := hs.uses hdoing
  obtain ⟨-, hdesc, hobject, -⟩ := hs.got hx
  have htype : (s.desc x.f).type ≠ .none := by
    intro hnone
    rw [← hdesc, object_of_none hnone] at hobject
    exact hobject rfl
  unfold access
  split
  · exact hfinish
  · exact hinside

theorem Taking.opens (ht : Taking s t p .idle .opens e table' k')
    (hl : l.doing = .table ∨ ∃ o, l.doing = .release o) : (s.opening t ip table' l).Sorted := by
  have hgot : s.got t = none := hs.got_idle ht.turn.own (by rw [ht.doing]; nofun)
  obtain ⟨hfill, huses⟩ := not_fill_or_uses hl
  have hshift : Shift s (s.opening t ip table' l) t p .idle .opens k' := by
    refine hs.shift ht ⟨fun f => .inl rfl, fun f href => ?_, fun f _ => rfl, fun f hf => ?_,
      fun fd f hf => ?_, nofun, fun kind fd f b hf => ?_⟩ rfl (fun q hne => ?_) ?_ hs.calm
    · exact (ht.zero hs href).resolve_right nofun
    · cases hf
    · simp only [opening, update_self] at hf
      exact absurd hf (hfill fd f)
    · simp only [opening, update_self] at hf
      exact huses kind fd f b hf
    · exact update_of_ne hne _ _
    · have hafter : s.gotAfter t p .idle .opens table' = (s.setTable table').got t := by
        simp [Files.gotAfter, hgot, setTable]
      exact (hafter ▸ update_eq_self t (s.setTable table').got).symm
  exact hshift.sorted hs

/-- Threads are no more that have nothing in hand and fill nothing. -/
theorem Sorted.gone (hbase : s'.table.Inv)
    (hthread : ∀ q, s'.table.thread q = s.table.thread q ∨ s'.table.thread q = none ∧
      ∀ p k, s.table.thread q = some (p, k) → k.gap = none ∧
        ∀ fd f, s'.table.Counted p fd f → (s.here q).doing ≠ .fill fd f)
    (hofile : s'.table.ofile = s.table.ofile) (href : s'.table.ref = s.table.ref)
    (hlive : ∀ p, s'.table.live p = true → s.table.live p = true)
    (hdesc : s'.desc = s.desc) (hgen : s'.gen = s.gen) (hcalm : s'.panic = none)
    (hhere : ∀ q, if s'.table.thread q = none then s'.here q = .none ∧ s'.got q = none
      else s'.here q = s.here q ∧ s'.got q = s.got q) : s'.Sorted := by
  have hback : ∀ {q p k}, s'.table.thread q = some (p, k) →
      s.table.thread q = some (p, k) ∧ s'.here q = s.here q ∧ s'.got q = s.got q := by
    intro q p k hq
    have hh := hhere q
    rw [if_neg (by rw [hq]; nofun)] at hh
    rcases hthread q with heq | ⟨hnone, -⟩
    · exact ⟨heq ▸ hq, hh⟩
    · rw [hnone] at hq
      cases hq
  have halive : ∀ {q}, s'.here q ≠ .none ∨ s'.got q ≠ none → ∃ p k, s'.table.thread q = some (p, k) := by
    intro q hne
    cases hq : s'.table.thread q with
    | some x => exact ⟨x.1, x.2, rfl⟩
    | none =>
      have hh := hhere q
      rw [if_pos hq] at hh
      exact (hne.elim (fun h => h hh.1) (fun h => h hh.2)).elim
  have hdoing : ∀ {q d}, (s'.here q).doing = d → d ≠ .table → (s.here q).doing = d ∧
      s'.table.thread q = s.table.thread q ∧ s'.got q = s.got q := by
    intro q d hd hne
    obtain ⟨p, k, hq⟩ := halive (q := q) (.inl fun h => hne (by rw [← hd, h]; rfl))
    obtain ⟨hq', hh, hg⟩ := hback hq
    exact ⟨by rw [← hh]; exact hd, hq.trans hq'.symm, hg⟩
  refine ⟨hbase, fun {q} hq => ?_, fun {f} hf => ?_, fun {p fd f} hc => ?_, fun {t p k f} ht hf => ?_,
    fun {t p k f} ht hf => ?_, fun {t fd f} hf => ?_, fun {t kind fd f b} hf => ?_, fun {t x} hx => ?_,
    fun {t p k f} ht hf => ?_, hcalm⟩
  · have hh := hhere q
    rw [if_pos hq] at hh
    exact hh
  · rw [hdesc]
    exact hs.zero (href ▸ hf)
  · have hlt := hs.base.lt_next (hofile ▸ hc.entry)
    have hc' : s.table.Counted p fd f := by
      refine ⟨⟨hlt, hlive p hc.live.2⟩, hofile ▸ hc.entry, fun q k hq hgap => ?_⟩
      rcases hthread q with heq | ⟨-, hidle⟩
      · exact hc.gap q k (heq ▸ hq) hgap
      · rw [(hidle p k hq).1] at hgap
        cases hgap
    rw [hdesc]
    rcases hs.entry hc' with hobject | ⟨q, k, hq, hfill⟩
    · exact .inl hobject
    · rcases hthread q with heq | ⟨-, hidle⟩
      · refine .inr ⟨q, k, heq ▸ hq, ?_⟩
        rw [(hback (heq ▸ hq)).2.1]
        exact hfill
      · exact absurd hfill ((hidle p k hq).2 fd f hc)
  · rw [hdesc]
    exact hs.ready (hback ht).1 hf
  · rw [hdesc, href]
    exact hs.raw (hback ht).1 hf
  · obtain ⟨hf', hq, -⟩ := hdoing hf nofun
    obtain ⟨p, ht, hentry, hone, htype, hothers⟩ := hs.fill hf'
    rw [hq, hofile, href, hdesc]
    refine ⟨p, ht, hentry, hone, htype, fun q k hq' => ?_⟩
    obtain ⟨hold, hh, -⟩ := hback hq'
    rw [hh]
    exact hothers q k hold
  · obtain ⟨hf', hq, hg⟩ := hdoing hf nofun
    obtain ⟨p, ht, hentry, hfree, hgot⟩ := hs.uses hf'
    rw [hq, hofile, hg]
    refine ⟨p, ht, hentry, fun q k hq' => ?_, hgot⟩
    obtain ⟨hold, hh, -⟩ := hback hq'
    rw [hh]
    exact hfree q k hold
  · obtain ⟨p, k, hq⟩ := halive (q := t) (.inr (by rw [hx]; nofun))
    obtain ⟨hold, hh, hg⟩ := hback hq
    rw [hg] at hx
    rw [hgen, hdesc, hh, hq, ← hold]
    exact hs.got hx
  · rw [(hback ht).2.2]
    exact hs.fetched (hback ht).1 hf

theorem Sorted.moved_gone (hbase : table'.Inv)
    (hnone : table'.thread t = none) (hafter : s.gotAfter t p k op table' = none)
    (hthread : ∀ q, table'.thread q = s.table.thread q ∨ table'.thread q = none ∧
      ∀ p k, s.table.thread q = some (p, k) → k.gap = none ∧
        ∀ fd f, table'.Counted p fd f → (s.here q).doing ≠ .fill fd f)
    (hofile : table'.ofile = s.table.ofile) (href : table'.ref = s.table.ref)
    (hlive : ∀ p, table'.live p = true → s.table.live p = true) :
    (s.moved t p k op table').Sorted := by
  refine hs.gone hbase hthread hofile href hlive rfl ?_ hs.calm (fun q => ?_)
  · funext f
    simp only [moved, setTable, href]
    split
    · rename_i h
      exact absurd h.1 h.2
    · rfl
  · simp only [moved, setTable, hafter]
    by_cases hq : table'.thread q = none
    · simp only [hq, if_true, true_and]
      by_cases hqt : q = t
      · rw [hqt, update_self]
      · rw [update_of_ne hqt, if_pos hq]
    · have hqt : q ≠ t := by
        intro heq
        exact hq (heq ▸ hnone)
      simp only [hq, if_false, true_and, update_of_ne hqt]

theorem Sorted.leave_step {i : Nat} {gone : List Slot}
    (ht : s.table.thread t = some (p, .exitTest i)) (hbase : (s.table.exited t p gone).Inv)
    (hempty : ∀ fd, s.table.ofile (p, fd) = none)
    (hidle : ∀ q, ∀ k ∈ s.table.world.sibling t p q, k = .idle) :
    (s.moved t p (.exitTest i) (.leave gone) (s.table.exited t p gone)).Sorted := by
  have hnone : (s.table.exited t p gone).thread t = none := by
    simp [State.exited]
  have hgap : ∀ q p' k', q = t ∨ (q ∈ gone ∧ (s.table.thread q).map Prod.fst = some p) →
      s.table.thread q = some (p', k') → p' = p ∧ k'.gap = none := by
    intro q p' k' hq hq'
    by_cases hqt : q = t
    · subst hqt
      rw [ht] at hq'
      cases hq'
      exact ⟨rfl, rfl⟩
    · obtain ⟨-, hp⟩ := hq.resolve_left hqt
      rw [hq'] at hp
      obtain rfl := Option.some.inj hp
      rw [hidle q k' (World.sibling_eq hq' hqt)]
      exact ⟨rfl, rfl⟩
  refine hs.moved_gone hbase hnone (by simp [Files.gotAfter, hnone]) (fun q => ?_) rfl rfl ?_
  · by_cases hq : q = t ∨ (q ∈ gone ∧ (s.table.thread q).map Prod.fst = some p)
    · refine .inr ⟨if_pos hq, fun p' k' hq' => ?_⟩
      obtain ⟨rfl, hnogap⟩ := hgap q p' k' hq hq'
      refine ⟨hnogap, fun fd f hc => ?_⟩
      have hentry : s.table.ofile (p', fd) = some f := hc.entry
      rw [hempty fd] at hentry
      cases hentry
    · exact .inl (if_neg hq)
  · intro p' hlive
    by_cases hp : p' = p
    · simp [State.exited, hp] at hlive
    · simpa [State.exited, hp] using hlive

end

theorem reads_of_fetches (h : k.fetches op = some fd) :
    k.reads op = some fd ∧ k.gap = none ∧ ∀ gone, op ≠ .leave gone := by
  cases k with
  | idle => cases op <;> cases h <;> exact ⟨rfl, rfl, nofun⟩
  | forkTest | exitTest =>
    cases op with
    | go => exact ⟨h, rfl, nofun⟩
    | _ => cases h
  | _ => cases op <;> cases h

theorem Sorted.taking (hs : s.Sorted) (ht : s.table.thread t = some (p, k))
    (hdoing : (s.here t).doing = .table) (hstep : s.table.step (t, op) = some (table', e))
    (hquiet : s.Quiet (t, .table op)) (hturn : Turn s.table table' t p k op k') (hbase : table'.Inv) :
    Taking s t p k op e table' k' := by
  simp only [Quiet, ht] at hquiet
  obtain ⟨hrule, hfetches, hdrops⟩ := hquiet
  refine ⟨hdoing, hstep, hturn, hbase, fun fd hfd => ⟨hfetches fd hfd, fun f hentry => ?_⟩, hdrops⟩
  obtain ⟨hreads, hgap, hop⟩ := reads_of_fetches hfd
  have halone : s.table.world.Alone script t p fd := by
    simp only [State.Undisturbed, ht] at hrule
    cases op with
    | leave gone => exact absurd rfl (hop gone)
    | _ => exact hrule fd hreads
  refine hs.object_of_entry ht hentry fun q k₁ hq => ?_
  by_cases hqt : q = t
  · subst hqt
    rw [ht] at hq
    cases hq
    rw [hgap, hdoing]
    exact ⟨(by simp), rfl⟩
  · refine ⟨fun hgap' => ?_, not_fills (hfetches fd hfd) hq hqt⟩
    exact halone q k₁ (World.sibling_eq hq hqt)
      (Call.window_of_transit (Call.transit_of_gap hgap'))

theorem Sorted.table_step (hs : s.Sorted) (ht : s.table.thread t = some (p, k))
    (hdoing : (s.here t).doing = .table) (hstep : s.table.step (t, op) = some (table', e))
    (hquiet : s.Quiet (t, .table op)) :
    ((s.moved t p k op table').settle t (k.outcome op)).Sorted := by
  have hrule : s.table.Undisturbed ((t, op), e) := by
    simp only [Quiet, ht] at hquiet
    exact hquiet.1
  have hbase : table'.Inv := hs.base.step (l := ((t, op), e)) ⟨hstep, hrule⟩
  rcases hs.base.turn ht hstep hbase.calm with ⟨k', hturn⟩ | ⟨rfl, rfl, htable⟩ |
    ⟨gone, i, rfl, rfl, htable⟩
  · exact (hs.taking ht hdoing hstep hquiet hturn hbase).sorted hs
  · have hnone : table'.thread t = none := by
      rw [htable]
      exact update_self ..
    refine hs.moved_gone hbase hnone (by simp [Files.gotAfter, hnone]) (fun q => ?_) ?_ ?_ ?_
    · by_cases hqt : q = t
      · subst hqt
        refine .inr ⟨hnone, fun p' k' hq => ?_⟩
        rw [ht] at hq
        cases hq
        refine ⟨rfl, fun fd f _ hfill => ?_⟩
        rw [hdoing] at hfill
        cases hfill
      · rw [htable]
        exact .inl (update_of_ne hqt _ _)
    · rw [htable]
    · rw [htable]
    · rw [htable]
      exact fun _ h => h
  · simp only [State.Undisturbed, ht] at hrule
    subst htable
    exact hs.leave_step ht hbase hrule.1 fun q k hq => (hrule.2 q k hq).2

theorem Sorted.opens_step (hs : s.Sorted)
    (ht : s.table.thread t = some (p, .idle)) (hhere : s.here t = .none)
    (hstep : s.table.step (t, .opens) = some (table', e))
    (hl : l.doing = .table ∨ ∃ o, l.doing = .release o) : (s.opening t ip table' l).Sorted := by
  have hdoing : (s.here t).doing = .table := by
    rw [hhere]
    rfl
  have hrule : s.table.Undisturbed ((t, .opens), e) := by
    simp only [State.Undisturbed, ht]
    rintro _ ⟨⟩
  have hbase : table'.Inv := hs.base.step (l := ((t, .opens), e)) ⟨hstep, hrule⟩
  rcases hs.base.turn ht hstep hbase.calm with ⟨k', hturn⟩ | ⟨h, -⟩ | ⟨gone, i, h, -⟩
  · exact Taking.opens hs ⟨hdoing, hstep, hturn, hbase, (by rintro _ ⟨⟩), (by rintro _ ⟨⟩)⟩ hl
  · cases h
  · cases h

/-! ### Every step -/

/-- The ways in which a thread can take a step. -/
inductive Case (s : Files) (t : Slot) (p : Nat) : Call → Act → Files → Prop where
  | table {k : Call} {op : Op} {table' : State} {e : Event} : (s.here t).doing = .table →
      s.table.step (t, op) = some (table', e) →
      Case s t p k (.table op) ((s.moved t p k op table').settle t (k.outcome op))
  | opens {ip : Nat} {table' : State} {e : Event} {l : Local} : s.here t = .none →
      s.table.step (t, .opens) = some (table', e) →
      l = ⟨none, .release (.inode ip)⟩ ∨ l = ⟨some ip, .table⟩ →
      Case s t p .idle (.opens ip) (s.opening t ip table' l)
  | fill {k : Call} {omode ip : Nat} {fd : Fd} {f : FileId} : s.here t = ⟨some ip, .fill fd f⟩ →
      Case s t p k (.fill omode) (s.fill t f ip omode)
  | release {k : Call} {o : Object} : (s.here t).doing = .release o →
      Case s t p k .release ((s.dropObject o).setDoing t .table)
  | fetch {kind : Kind} {fd : Fd} {f : FileId} : s.here t = .none →
      s.table.ofile (p, fd) = some f →
      Case s t p .idle (.fetch kind fd) (s.fetch t kind fd f)
  | refused {kind : Kind} {fd : Fd} : Case s t p .idle (.fetch kind fd) s
  | access {k : Call} {kind : Kind} {fd : Fd} {f : FileId} :
      (s.here t).doing = .uses kind fd f false → Case s t p k .access (s.access t kind fd f)
  | finish {k : Call} {kind : Kind} {fd : Fd} {f : FileId} :
      (s.here t).doing = .uses kind fd f true → Case s t p k .finish (s.finish t)

theorem step_case (h : s.Step (t, a) s') :
    ∃ p k, s.table.thread t = some (p, k) ∧ Case s t p k a s' := by
  unfold Step step at h
  split at h
  · rename_i p k _ _ ht
    refine ⟨p, k, ht, ?_⟩
    cases a with
    | table op =>
      simp only [act] at h
      split at h
      · rename_i hif
        obtain ⟨⟨table', e⟩, hstep, rfl⟩ := Option.map_eq_some_iff.mp h
        exact .table hif.1 hstep
      · cases h
    | opens ip =>
      simp only [act] at h
      split at h
      · rename_i hif
        obtain ⟨hhere, rfl⟩ := hif
        obtain ⟨⟨table', e⟩, hstep, rfl⟩ := Option.map_eq_some_iff.mp h
        refine .opens hhere hstep ?_
        split
        · exact .inl rfl
        · exact .inr rfl
      · cases h
    | fill omode =>
      simp only [act] at h
      split at h
      · cases h
        exact .fill ‹_›
      · cases h
    | release =>
      simp only [act] at h
      split at h
      · cases h
        exact .release ‹_›
      · cases h
    | fetch kind fd =>
      simp only [act] at h
      split at h
      · rename_i hif
        obtain ⟨hhere, rfl⟩ := hif
        split at h
        · cases h
          exact .fetch hhere ‹_›
        · cases h
          exact .refused
      · cases h
    | access =>
      simp only [act] at h
      split at h
      · cases h
        exact .access ‹_›
      · cases h
    | finish =>
      simp only [act] at h
      split at h
      · cases h
        exact .finish ‹_›
      · cases h
  · cases h

theorem Sorted.step (hs : s.Sorted) (ht : s.table.thread t = some (p, k))
    (h : Case s t p k a s') (hquiet : s.Quiet (t, a)) : s'.Sorted := by
  cases h with
  | table hdoing hstep => exact hs.table_step ht hdoing hstep hquiet
  | opens hhere hstep hl =>
    refine hs.opens_step ht hhere hstep ?_
    rcases hl with rfl | rfl
    · exact .inr ⟨_, rfl⟩
    · exact .inl rfl
  | fill hhere => exact hs.fill_step ht hhere
  | release hdoing => exact hs.release_step ht hdoing
  | fetch hhere hentry =>
    simp only [Quiet, ht] at hquiet
    exact hs.fetch_step ht hhere hentry hquiet.1 hquiet.2
  | refused => exact hs
  | access hdoing => exact hs.access_step ht hdoing
  | finish hdoing => exact (hs.use_step ht hdoing).1

theorem sorted_boot : boot.Sorted where
  base := State.inv_boot
  vacant := fun _ => ⟨rfl, rfl⟩
  zero := fun _ => rfl
  entry := fun hc => nomatch hc.entry
  ready := fun {t p k f} ht hf => by
    simp only [boot, State.boot] at ht
    split at ht <;> cases ht
    cases hf
  raw := fun {t p k f} ht hf => by
    simp only [boot, State.boot] at ht
    split at ht <;> cases ht
    cases hf
  fill := nofun
  uses := nofun
  got := nofun
  fetched := fun {t p k f} ht hf => by
    simp only [boot, State.boot] at ht
    split at ht <;> cases ht
    cases hf
  calm := rfl

end Files

end ThreadKernel.File
