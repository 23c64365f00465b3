import ThreadKernel.File.Fetched

/-! What files keep open is open.

An open file holds a reference to its inode or an end of its pipe, and so do a call of
`open` that has not filled its struct yet and a `fileclose` that has still to drop what
it has found. Nothing is held that is not there: an inode has a reference for each of its
holders, and an end of a pipe has one holder at most and is open while it has one. -/
namespace ThreadKernel.File

open Refcount Lts Function

inductive Holder where
  | file (f : FileId)
  | opening (t : Slot)
  | closing (t : Slot)
  deriving DecidableEq, Fintype

def Doing.object : Doing → Option Object
  | .release o => some o
  | .table | .fill _ _ | .uses _ _ _ _ => none

namespace Files

def holds (s : Files) : Holder → Option Object
  | .file f => if s.table.ref f = 0 then none else (s.desc f).object
  | .opening t => (s.here t).ip.map .inode
  | .closing t => (s.here t).doing.object

/-- How many holders the object allows for. -/
def room (s : Files) : Object → Nat
  | .inode ip => s.iref ip
  | .side i writable => if (s.pipe i).isOpen writable then 1 else 0

structure Owned (s : Files) : Prop where
  held : ∀ o, holders s.holds o ≤ s.room o
  present : ∀ {i writable}, (s.pipe i).isOpen writable = true → (s.pipe i).present = true
  fresh : ∀ {i writable}, s.nextPipe ≤ i → (s.pipe i).isOpen writable = false

variable {s s' : Files} {t q : Slot} {p : Nat} {k k' : Call} {op : Op} {f : FileId} {fd : Fd}
  {e : Event}
  {table' : State} {o : Object} {w : Bool} {d : Doing} {h : Holder} {ip : Nat}

/-! ### The end of a pipe -/

theorem close_isOpen (x : Pipe) (w w' : Bool) :
    (x.close w).isOpen w' = (x.isOpen w' && decide (w' ≠ w)) := by
  obtain ⟨present, readopen, writeopen⟩ := x
  revert present readopen writeopen w w'
  decide

theorem close_present {x : Pipe} {w' : Bool} (hx : x.present = true)
    (h : (x.close w).isOpen w' = true) : (x.close w).present = true := by
  obtain ⟨present, readopen, writeopen⟩ := x
  revert present readopen writeopen w w'
  decide

/-! ### Steps of the tables -/

theorem holds_setTable (hs : s.Sorted) (h : Holder) :
    (s.setTable table').holds h = s.holds h ∨ (s.setTable table').holds h = none := by
  cases h with
  | file f =>
    simp only [holds, setTable]
    by_cases href' : table'.ref f = 0
    · exact .inr (if_pos href')
    · by_cases href : s.table.ref f = 0
      · exact .inr (by simp [object_of_none (hs.zero href)])
      · exact .inl (by simp only [href, href'])
  | opening q | closing q =>
    simp only [holds, setTable]
    split
    · exact .inr rfl
    · exact .inl rfl

theorem holds_moved (hs : s.Sorted) (h : Holder) :
    (s.moved t p k op table').holds h = s.holds h ∨ (s.moved t p k op table').holds h = none :=
  holds_setTable hs h

/-- Holders have what they had, or nothing, and there is as much room. -/
theorem Owned.less (ho : s.Owned) (hholds : ∀ h, s'.holds h = s.holds h ∨ s'.holds h = none)
    (hiref : s'.iref = s.iref) (hpipe : s'.pipe = s.pipe) (hnext : s'.nextPipe = s.nextPipe) :
    s'.Owned where
  held := fun o => by
    have hroom : s'.room o = s.room o := by
      cases o <;> simp [room, hiref, hpipe]
    rw [hroom]
    refine le_trans (holders_mono fun h hh => ?_) (ho.held o)
    rcases hholds h with heq | hnone
    · exact heq ▸ hh
    · rw [hnone] at hh
      cases hh
  present := by
    rw [hpipe]
    exact ho.present
  fresh := by
    rw [hpipe, hnext]
    exact ho.fresh

/-- One holder passes its object on. -/
theorem Owned.pass {a b : Holder} (ho : s.Owned) (hne : a ≠ b) (ha : s'.holds a = none)
    (hb : s.holds b = none) (hb' : s'.holds b = s.holds a)
    (hrest : ∀ h, h ≠ a → h ≠ b → s'.holds h = s.holds h ∨ s'.holds h = none)
    (hiref : s'.iref = s.iref) (hpipe : s'.pipe = s.pipe) (hnext : s'.nextPipe = s.nextPipe) :
    s'.Owned where
  held := fun o => by
    have hroom : s'.room o = s.room o := by
      cases o <;> simp [room, hiref, hpipe]
    rw [hroom]
    exact le_trans (holders_pass hne ha hb hb' hrest o) (ho.held o)
  present := by
    rw [hpipe]
    exact ho.present
  fresh := by
    rw [hpipe, hnext]
    exact ho.fresh

theorem holds_closing_of_table (h : (s.here t).doing = .table) : s.holds (.closing t) = none := by
  rw [holds, h]
  rfl

theorem holds_setDoing (hne : h ≠ .closing t) :
    (s.setDoing t d).holds h = s.holds h := by
  cases h with
  | file f => rfl
  | opening q =>
    by_cases hq : q = t
    · subst hq
      simp [holds, setDoing]
    · simp [holds, setDoing_here_of_ne hq]
  | closing q =>
    have hq : q ≠ t := fun heq => hne (by rw [heq])
    simp [holds, setDoing_here_of_ne hq]

theorem moved_here (ht : Taking s t p k op e table' k') : (s.moved t p k op table').here t = s.here t := by
  simp [moved, setTable, ht.turn.next]

section
variable (ho : s.Owned)
include ho

theorem Owned.opened (hs : s.Sorted) :
    ((s.moved t p k op table').setDoing t (.fill fd f)).Owned := by
  refine ho.less (fun h => ?_) rfl rfl rfl
  by_cases hh : h = .closing t
  · subst hh
    exact .inr (by simp [holds, Doing.object])
  · rw [holds_setDoing hh]
    exact holds_moved hs h

theorem Owned.finished (hs : s.Sorted) (ht : Taking s t p k op e table' k') :
    ((s.moved t p k op table').abandon t).Owned := by
  have hhere := moved_here ht
  cases hip : (s.here t).ip with
  | none =>
    have hsame : (s.moved t p k op table').abandon t = s.moved t p k op table' := by
      have hkeep := update_eq_self t (s.moved t p k op table').here
      rw [hhere] at hkeep
      simp only [abandon, hhere, hip, Option.elim_none, hkeep]
    rw [hsame]
    exact ho.less (holds_moved hs) rfl rfl rfl
  | some ip =>
    have hnew : ((s.moved t p k op table').abandon t).here =
        update (s.moved t p k op table').here t ⟨none, .release (.inode ip)⟩ := by
      simp [abandon, hhere, hip]
    refine ho.pass (a := .opening t) (b := .closing t) (by simp) ?_ (holds_closing_of_table ht.doing) ?_
      (fun h ha hb => ?_) rfl rfl rfl
    · simp [holds, hnew]
    · simp [holds, hnew, hip, Doing.object]
    · have hmoved := @holds_moved s t p k op table' hs h
      cases h with
      | file f => exact hmoved
      | opening q =>
        have hq : q ≠ t := fun heq => ha (by rw [heq])
        simp only [holds, hnew, update_of_ne hq]
        exact hmoved
      | closing q =>
        have hq : q ≠ t := fun heq => hb (by rw [heq])
        simp only [holds, hnew, update_of_ne hq]
        exact hmoved

theorem Owned.dropped (hs : s.Sorted) (ht : Taking s t p k op e table' k')
    (hk : k.outcome op = .dropped f) : ((s.moved t p k op table').closed t f).Owned := by
  have hpos : 0 < s.table.ref f := by
    rcases Call.refs_or_ready_of_dropped hk with hrefs | hready
    · exact hs.base.world.pos_of_ref ht.turn.own hrefs
    · exact hs.base.pos_of_ready ht.turn.own hready
  have hdoing : (s.moved t p k op table').here t = s.here t := moved_here ht
  unfold closed
  split
  · rename_i hzero
    have hrest : ∀ h, h ≠ .file f → h ≠ .closing t →
        ({(s.moved t p k op table').setDoing t (((s.moved t p k op table').desc f).object.elim
            ((s.moved t p k op table').here t).doing .release) with
          desc := update (s.moved t p k op table').desc f
            {(s.moved t p k op table').desc f with type := .none}} : Files).holds h =
          (s.moved t p k op table').holds h := by
      intro h hf hb
      have hset := holds_setDoing (s := s.moved t p k op table')
        (d := ((s.moved t p k op table').desc f).object.elim
          ((s.moved t p k op table').here t).doing .release) hb
      cases h with
      | file f' =>
        have hne : f' ≠ f := fun heq => hf (by rw [heq])
        simp only [holds, update_of_ne hne]
        rfl
      | opening q => exact hset
      | closing q => exact hset
    refine ho.pass (a := .file f) (b := .closing t) nofun ?_ (holds_closing_of_table ht.doing) ?_
      (fun h ha hb => ?_) rfl rfl rfl
    · exact if_pos hzero
    · have hobject : (s.moved t p k op table').desc f = s.desc f := rfl
      simp only [holds, setDoing_doing, hobject, hdoing, ht.doing, Nat.ne_of_gt hpos, if_false]
      cases (s.desc f).object with
      | none => rfl
      | some o => rfl
    · rw [hrest h ha hb]
      exact holds_moved hs h
  · exact ho.less (holds_moved hs) rfl rfl rfl

theorem Owned.pipealloc (f0 f1 : FileId) : (s.pipealloc f0 f1).Owned := by
  have hfree : ∀ h w, s.holds h ≠ some (.side s.nextPipe w) := by
    intro h w hh
    have hpos := holders_pos hh
    have hle := ho.held (.side s.nextPipe w)
    simp only [room, ho.fresh (le_refl s.nextPipe), Bool.false_eq_true, if_false] at hle
    omega
  -- what a holder has is what it had, or an end of the new pipe
  have hholds : ∀ h o, (s.pipealloc f0 f1).holds h = some o → s.holds h = some o ∨
      ∃ w, o = .side s.nextPipe w ∧ h = .file (if w then f1 else f0) := by
    intro h o hh
    cases h with
    | file f =>
      simp only [holds, Files.pipealloc, update_apply] at hh ⊢
      split at hh
      · cases hh
      · rename_i hzero
        split at hh
        · rename_i hf
          cases hh
          exact .inr ⟨true, rfl, by rw [hf]; rfl⟩
        · split at hh
          · rename_i hf
            cases hh
            exact .inr ⟨false, rfl, by rw [hf]; rfl⟩
          · exact .inl (by rw [if_neg hzero]; exact hh)
    | opening q => exact .inl hh
    | closing q => exact .inl hh
  refine ⟨fun o => ?_, fun {i w} h => ?_, fun {i w} hi => ?_⟩
  · by_cases hnew : ∃ w, o = .side s.nextPipe w
    · obtain ⟨w, rfl⟩ := hnew
      have hroom : (s.pipealloc f0 f1).room (.side s.nextPipe w) = 1 := by
        cases w <;> simp [room, Files.pipealloc, Pipe.isOpen]
      rw [hroom]
      refine holders_le_one (b := .file (if w then f1 else f0)) fun h hh => ?_
      rcases hholds h _ hh with hold | ⟨w', heq, rfl⟩
      · exact absurd hold (hfree h w)
      · cases heq
        rfl
    · have hroom : (s.pipealloc f0 f1).room o = s.room o := by
        cases o with
        | inode ip => rfl
        | side i w =>
          have hi : i ≠ s.nextPipe := fun heq => hnew ⟨w, by rw [heq]⟩
          simp [room, Files.pipealloc, hi]
      rw [hroom]
      refine le_trans (holders_mono fun h hh => ?_) (ho.held o)
      exact (hholds h o hh).resolve_right fun hw => hnew (hw.imp fun _ => And.left)
  · by_cases hi : i = s.nextPipe
    · simp [Files.pipealloc, hi]
    · simp only [Files.pipealloc, update_of_ne hi] at h ⊢
      exact ho.present h
  · have hne : i ≠ s.nextPipe := Nat.ne_of_gt hi
    simp only [Files.pipealloc, update_of_ne hne]
    exact ho.fresh (Nat.le_of_succ_le hi)

theorem Owned.settle (hs : s.Sorted) (ht : Taking s t p k op e table' k') :
    ((s.moved t p k op table').settle t (k.outcome op)).Owned := by
  have hmoved : (s.moved t p k op table').Owned := ho.less (holds_moved hs) rfl rfl rfl
  cases hk : k.outcome op with
  | nothing => exact hmoved
  | piped f0 f1 => exact hmoved.pipealloc f0 f1
  | opened f fd => exact ho.opened hs
  | finished => exact ho.finished hs ht
  | dropped f => exact ho.dropped hs ht hk

/-! ### Every step -/

theorem Owned.opening {l : Local} (hs : s.Sorted)
    (hl : l = ⟨none, .release (.inode ip)⟩ ∨ l = ⟨some ip, .table⟩) :
    (s.opening t ip table' l).Owned := by
  have hothers : ∀ h, h ≠ .opening t → h ≠ .closing t →
      (s.opening t ip table' l).holds h = (s.setTable table').holds h := by
    intro h ho hc
    cases h with
    | file f => rfl
    | opening q =>
      have hq : q ≠ t := fun heq => ho (by rw [heq])
      simp [holds, Files.opening, hq]
    | closing q =>
      have hq : q ≠ t := fun heq => hc (by rw [heq])
      simp [holds, Files.opening, hq]
  -- the holder is the call, or what is left of it
  obtain ⟨a, ha, hrest⟩ : ∃ a, (s.opening t ip table' l).holds a = some (.inode ip) ∧
      ∀ h, h ≠ a → (s.opening t ip table' l).holds h = s.holds h ∨
        (s.opening t ip table' l).holds h = none := by
    rcases hl with rfl | rfl
    · refine ⟨.closing t, by simp [holds, Files.opening, Doing.object], fun h hh => ?_⟩
      by_cases ho : h = .opening t
      · exact .inr (by simp [holds, Files.opening, ho])
      · rw [hothers h ho hh]
        exact holds_setTable hs h
    · refine ⟨.opening t, by simp [holds, Files.opening], fun h hh => ?_⟩
      by_cases hc : h = .closing t
      · exact .inr (by simp [holds, Files.opening, hc, Doing.object])
      · rw [hothers h hh hc]
        exact holds_setTable hs h
  refine ⟨fun o => ?_, ho.present, ho.fresh⟩
  have hroom : (s.opening t ip table' l).room o =
      s.room o + if some (Object.inode ip) = some o then 1 else 0 := by
    cases o with
    | inode ip' =>
      by_cases hip : ip' = ip
      · simp [room, Files.opening, hip]
      · simp [room, Files.opening, hip, Ne.symm hip]
    | side i w => rfl
  have hle := holders_change a hrest o
  have hold := ho.held o
  rw [ha] at hle
  omega

theorem Owned.fill {omode : Nat} (hs : s.Sorted) (hhere : s.here t = ⟨some ip, .fill fd f⟩) :
    (s.fill t f ip omode).Owned := by
  have hdoing : (s.here t).doing = .fill fd f := by rw [hhere]
  obtain ⟨p, -, -, hone, htype, -⟩ := hs.fill hdoing
  refine ho.pass (a := .opening t) (b := .file f) nofun ?_ ?_ ?_ (fun h ha hb => ?_) rfl rfl rfl
  · simp [holds, Files.fill, Local.none]
  · simp [holds, object_of_none htype]
  · simp [holds, Files.fill, hone, hhere, Desc.object]
  · cases h with
    | file f' =>
      have hne : f' ≠ f := fun heq => hb (by rw [heq])
      exact .inl (by simp [holds, Files.fill, hne])
    | opening q =>
      have hq : q ≠ t := fun heq => ha (by rw [heq])
      exact .inl (by simp [holds, Files.fill, hq])
    | closing q =>
      by_cases hq : q = t
      · exact .inr (by simp [holds, Files.fill, hq, Local.none, Doing.object])
      · exact .inl (by simp [holds, Files.fill, hq])

end

/-- There is room for the other holders when one lets go. -/
theorem room_dropObject {o' : Object} (hle : holders s.holds o' ≤ s.room o') {n : Nat}
    (hn : n + (if o = o' then 1 else 0) ≤ holders s.holds o') : n ≤ (s.dropObject o).room o' := by
  cases o with
  | inode ip =>
    cases o' with
    | inode ip' =>
      by_cases hip : ip = ip'
      · subst hip
        simp only [room, dropObject, update_self, if_true] at hn hle ⊢
        omega
      · simp only [room, dropObject, update_of_ne (Ne.symm hip)] at hle ⊢
        omega
    | side i w => exact le_trans (Nat.le_of_add_right_le hn) hle
  | side i w =>
    cases o' with
    | inode ip => exact le_trans (Nat.le_of_add_right_le hn) hle
    | side i' w' =>
      by_cases hi : i' = i
      · subst hi
        simp only [room, dropObject, update_self, close_isOpen] at hle ⊢
        by_cases hw : w' = w
        · subst hw
          simp only [if_true] at hn
          split at hle <;> simp <;> omega
        · simp only [hw, ne_eq, not_false_eq_true, decide_true, Bool.and_true]
          omega
      · simp only [room, dropObject, update_of_ne hi] at hle ⊢
        omega

theorem Owned.release (ho : s.Owned) (hdoing : (s.here t).doing = .release o) :
    ((s.dropObject o).setDoing t .table).Owned := by
  have hsame : (s.dropObject o).holds = s.holds ∧ (s.dropObject o).nextPipe = s.nextPipe := by
    cases o <;> exact ⟨rfl, rfl⟩
  refine ⟨fun o' => ?_, fun {i w} h => ?_, fun {i w} hi => ?_⟩
  · have hle := holders_change (O := Object) (.closing t) (fun h hh =>
      .inl ((holds_setDoing (s := s.dropObject o) (d := .table) hh).trans (congrFun hsame.1 h))) o'
    have ha : s.holds (.closing t) = some o := by
      rw [holds, hdoing]
      rfl
    have ha' : ((s.dropObject o).setDoing t .table).holds (.closing t) = none := by
      simp [holds, Doing.object]
    rw [ha, ha'] at hle
    simp only [Option.some.injEq, reduceCtorEq, if_false, Nat.add_zero] at hle
    exact room_dropObject (ho.held o') hle
  · cases o with
    | inode ip => exact ho.present h
    | side j w' =>
      by_cases hi : i = j
      · subst hi
        have hopen : (s.pipe i).isOpen w = true := by
          simp only [dropObject, setDoing, update_self, close_isOpen] at h
          simp_all
        simp only [dropObject, setDoing, update_self] at h ⊢
        exact close_present (ho.present hopen) h
      · simp only [dropObject, setDoing, update_of_ne hi] at h ⊢
        exact ho.present h
  · have hfresh : (s.pipe i).isOpen w = false := ho.fresh (hsame.2 ▸ hi)
    cases o with
    | inode ip => exact hfresh
    | side j w' =>
      by_cases hij : i = j
      · subst hij
        simp only [dropObject, setDoing, update_self, close_isOpen, hfresh]
        rfl
      · simp only [dropObject, setDoing, update_of_ne hij]
        exact hfresh

theorem Owned.use (ho : s.Owned) (hd : d.object = none) : (s.setDoing t d).Owned := by
  refine ho.less (fun h => ?_) rfl rfl rfl
  by_cases hh : h = .closing t
  · rw [hh]
    exact .inr (by simp [holds, hd])
  · exact .inl (holds_setDoing hh)

theorem Owned.step {a : Act} (ho : s.Owned) (hs : s.Sorted) (ht : s.table.thread t = some (p, k))
    (h : Case s t p k a s') (hquiet : s.Quiet (t, a)) : s'.Owned := by
  cases h with
  | @table _ op table' e hdoing hstep =>
    have hrule : s.table.Undisturbed ((t, op), e) := by
      simp only [Quiet, ht] at hquiet
      exact hquiet.1
    have hbase : table'.Inv := hs.base.step (l := ((t, op), e)) ⟨hstep, hrule⟩
    rcases hs.base.turn ht hstep hbase.calm with ⟨k', hturn⟩ | ⟨rfl, rfl, -⟩ | ⟨gone, i, rfl, rfl, -⟩
    · exact ho.settle hs (hs.taking ht hdoing hstep hquiet hturn hbase)
    · exact ho.less (holds_moved hs) rfl rfl rfl
    · exact ho.less (holds_moved hs) rfl rfl rfl
  | opens hhere hstep hl => exact ho.opening hs hl
  | fill hhere => exact ho.fill hs hhere
  | release hdoing => exact ho.release hdoing
  | fetch hhere hentry | finish hdoing => exact (ho.use rfl).less (fun _ => .inl rfl) rfl rfl rfl
  | refused => exact ho
  | access hdoing =>
    unfold access
    split
    · exact (ho.use rfl).less (fun _ => .inl rfl) rfl rfl rfl
    · split
      · exact ho.less (fun _ => .inl rfl) rfl rfl rfl
      · exact ho.use rfl

theorem owned_boot : boot.Owned where
  held := fun o => by
    have hnone : ∀ h, boot.holds h = none := by
      intro h
      cases h <;> rfl
    have hzero : holders boot.holds o = 0 := by
      refine Finset.card_eq_zero.mpr (Finset.filter_eq_empty_iff.mpr fun h _ => ?_)
      rw [hnone h]
      nofun
    omega
  present := fun {i w} h => by cases w <;> cases h
  fresh := fun {i w} _ => by cases w <;> rfl

/-! ### Runs -/

/-- The pipe that a struct names is there, or its inode has a reference. -/
def Open (s : Files) (d : Desc) : Prop :=
  match d.type with
  | .none => False
  | .pipe => ∃ i, d.pipe = some i ∧ (s.pipe i).present = true
  | .inode => ∃ ip, d.ip = some ip ∧ 0 < s.iref ip

theorem isOpen_of_room {i : Nat} (h : 0 < s.room (.side i w)) :
    (s.pipe i).isOpen w = true := by
  by_contra hclosed
  simp [room, hclosed] at h

theorem Owned.open_of_held (ho : s.Owned) {d : Desc} (hd : d.object = some o)
    (hh : s.holds h = some o) : s.Open d := by
  have hpos : 0 < s.room o := Nat.lt_of_lt_of_le (holders_pos hh) (ho.held o)
  cases htype : d.type with
  | none => simp [Desc.object, htype] at hd
  | pipe =>
    simp only [Desc.object, htype, Option.map_eq_some_iff] at hd
    obtain ⟨i, hi, rfl⟩ := hd
    simp only [Open, htype]
    exact ⟨i, hi, ho.present (isOpen_of_room hpos)⟩
  | inode =>
    simp only [Desc.object, htype, Option.map_eq_some_iff] at hd
    obtain ⟨ip, hip, rfl⟩ := hd
    simp only [Open, htype]
    exact ⟨ip, hip, hpos⟩

end Files

variable {h : List (Slot × Act)} {s : Files}

theorem quiet_run (hr : Run (Guarded Files.Step Files.Quiet) Files.boot h s) : s.Sorted ∧ s.Owned := by
  refine hr.invariant (fun _ s => s.Sorted ∧ s.Owned) ⟨Files.sorted_boot, Files.owned_boot⟩ ?_
  intro h s a s' _ ⟨hs, ho⟩ ⟨hstep, hquiet⟩
  obtain ⟨p, k, ht, hcase⟩ := Files.step_case (t := a.1) (a := a.2) hstep
  exact ⟨hs.step ht hcase hquiet, ho.step hs ht hcase hquiet⟩

/-- On every run whose steps are quiet: a call of `read`, `write`, `fstat`, `dup` or `close`
that has a file from `argfd` finds it as it was, with a reference, and what the file stands
for is open; and neither `fileread` nor `filewrite` panics. -/
theorem fetched_stays_open (hr : Run (Guarded Files.Step Files.Quiet) Files.boot h s) :
    s.panic = none ∧ s.table.panic = none ∧
    (∀ t kind fd f b, (s.here t).doing = .uses kind fd f b → ∃ x, s.got t = some x ∧ x.f = f) ∧
    (∀ t p k f, s.table.thread t = some (p, k) → k.fetched = some f →
      ∃ x, s.got t = some x ∧ x.f = f) ∧
    ∀ t x, s.got t = some x → 0 < s.table.ref x.f ∧ s.gen x.f = x.gen ∧ s.desc x.f = x.desc ∧
      s.Open x.desc := by
  obtain ⟨hs, ho⟩ := quiet_run hr
  refine ⟨hs.calm, hs.base.calm, fun t kind fd f b huses => ?_, fun t p k f => hs.fetched,
    fun t x hx => ?_⟩
  · obtain ⟨-, -, -, -, hgot⟩ := hs.uses huses
    exact hgot
  · have hpos := hs.got_pos hx
    obtain ⟨hgen, hdesc, hobject, -⟩ := hs.got hx
    obtain ⟨o, hobj⟩ := Option.ne_none_iff_exists'.mp hobject
    refine ⟨hpos, hgen, hdesc, ho.open_of_held (h := .file x.f) hobj ?_⟩
    rw [Files.holds, if_neg (Nat.ne_of_gt hpos), hdesc]
    exact hobj

theorem Files.reached (rule : Files → Slot × Act → Prop) [∀ s a, Decidable (rule s a)]
    (as : List (Slot × Act)) {P : Files → Prop} [DecidablePred P]
    (ht : (trace (fun s a => (Files.step s a).map (·, a)) rule as [] boot).any
      (fun r => P r.2) = true) :
    ∃ h s, Run (Guarded Files.Step rule) boot h s ∧ P s := by
  refine Run.exists_of_trace (fun s a s' e hs => ?_) as ht
  obtain ⟨s₁, hstep, heq⟩ := Option.map_eq_some_iff.mp hs
  cases heq
  exact hstep

/-- `sys_pipe`, for a thread with no descriptors. -/
def pipeCall (t : Slot) : List (Slot × Act) :=
  [(t, .table .pipe), (t, .table .go), (t, .table (.page true)), (t, .table .go), (t, .table .go),
    (t, .table .go), (t, .table .go), (t, .table .go)]

/-- `sys_close` of the last descriptor. -/
def closeCall (t : Slot) (fd : Fd) : List (Slot × Act) :=
  [(t, .table (.close fd)), (t, .table .go), (t, .table .go), (t, .release), (t, .table .go)]

/-- A thread is in `piperead` while the other one dups the descriptor and closes the end
that writes: the pipe is there. -/
theorem fetched_stays_open_pipe : ∃ h s x, Run (Guarded Files.Step Files.Quiet) Files.boot h s ∧
    s.got 1 = some x ∧ (s.here 1).doing = .uses .read 0 x.f true ∧ s.table.ref x.f = 2 ∧
    s.desc x.f = x.desc ∧ s.Open x.desc := by
  obtain ⟨h, s, hr, href, hdoing⟩ := Files.reached Files.Quiet
    ((0, Act.table (.threadCreate 1)) :: pipeCall 0 ++ [(1, Act.fetch .read 0), (1, .access),
      (0, .table (.dup 0)), (0, .table .go), (0, .table .go), (0, .table .go), (0, .table .go),
      (0, .table .go)] ++ closeCall 0 1)
    (P := fun s => s.table.ref 0 = 2 ∧ (s.here 1).doing = .uses .read 0 0 true) (by decide +kernel)
  obtain ⟨-, -, huses, -, hgot⟩ := fetched_stays_open hr
  obtain ⟨x, hx, hf⟩ := huses 1 _ _ _ _ hdoing
  obtain ⟨-, -, hdesc, hopen⟩ := hgot 1 x hx
  exact ⟨h, s, x, hr, hx, hf ▸ hdoing, hf ▸ href, hdesc, hopen⟩

/-- A thread that reads a descriptor whose struct a sibling has not filled panics in
`fileread`: the struct has no type, and its mode is left over from the file it was before.
A sibling that closes both ends frees the pipe under a thread that is in `piperead`. -/
theorem fetched_freed :
    (∃ h s, Run Files.Step Files.boot h s ∧ s.panic = some .read) ∧
    ∃ h s x, Run Files.Step Files.boot h s ∧ (s.here 1).doing = .uses .read 0 x.f true ∧
      s.got 1 = some x ∧ s.table.ref x.f = 0 ∧ ¬ s.Open x.desc := by
  constructor
  · obtain ⟨h, s, hr, hp⟩ := Files.reached (fun _ _ => True)
      ([(0, Act.table (.threadCreate 1)), (0, .opens 5), (0, .table .go), (0, .table .go), (0, .fill 0)] ++
        closeCall 0 0 ++ [(0, Act.opens 7), (0, .table .go), (0, .table .go), (1, .fetch .read 0),
        (1, .access)])
      (P := fun s => s.panic = some .read) (by decide +kernel)
    exact ⟨h, s, hr.unguarded, hp⟩
  · obtain ⟨h, s, hr, hdoing, href, hx, hfreed⟩ := Files.reached (fun _ _ => True)
      ((0, Act.table (.threadCreate 1)) :: pipeCall 0 ++ [(1, Act.fetch .read 0), (1, .access)] ++
        closeCall 0 0 ++ closeCall 0 1)
      (P := fun s => (s.here 1).doing = .uses .read 0 0 true ∧ s.table.ref 0 = 0 ∧
        s.got 1 = some ⟨0, 1, ⟨.pipe, true, false, some 0, none⟩⟩ ∧ (s.pipe 0).present = false)
      (by decide +kernel)
    refine ⟨h, s, _, hr.unguarded, hdoing, hx, href, ?_⟩
    rintro ⟨i, hi, hpresent⟩
    cases hi
    rw [hfreed] at hpresent
    cases hpresent

end ThreadKernel.File
