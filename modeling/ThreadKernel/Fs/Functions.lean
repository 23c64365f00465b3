import ThreadKernel.Fs.Changes

/-! The functions of `fs.c` keep the invariant, under rules that say what is not to happen.

For each function there is one statement: from what ghost it starts, and with what ghost it
returns. What a thread has found out along the way, and what only depends on its own
ghost, goes into what is said of the return value. -/
namespace ThreadKernel.Fs

open Refcount Interleave Function

/-- What an entry that is cleared names has no entries but `.` and `..`. -/
def Removes (s : State) (_ : Slot) : Op → Prop
  | .writei d off e => e.inum = 0 → ∀ e', (s.inode d).dirents[off]? = some e' →
    (s.inode e'.inum).type = some .dir → (s.inode e'.inum).isEmpty = true
  | _ => True

def outline (strict careful : Prop) : Outline Op State Slot Ghost where
  inv := Inv strict careful
  asserts := Removes

/-- What is asked of a rule. -/
structure Lawful (strict careful : Prop) (R : Rule Op State Slot Call) : Prop where
  /-- `cwd` is not read while another thread of the process relies on it. -/
  cwd : ∀ {s t p q}, R.op s t .readCwd → s.owner t = some p → q ≠ t → s.owner q = some p →
    s.reading q = false
  /-- No inode is freed that is `..` of another. -/
  sole : ∀ {s t i d}, R.op s t (.readRef i) → (s.inode i).nlink = 0 → s.ref i = 1 → d ≠ i →
    (s.inode d).type = some .dir → (s.inode d).parent ≠ some i
  /-- Not all who have a reference to an inode without links are about to drop it. -/
  spare : ∀ {s t i}, strict → R.op s t (.readRef i) → (s.inode i).nlink = 0 → s.ref i ≠ 1 →
    leavers s i + 1 < s.ref i
  /-- No names are entered in a directory that has been removed. -/
  attached : ∀ {s t d off e}, strict → R.op s t (.writei d off e) → e.inum ≠ 0 →
    e.name.isPlain = true → Attached s.inode d
  quiet : ∀ {s t site i}, careful → R.op s t (.request site i) → Quiet (s.request t site i)

abbrev Ok {α : Type} (strict careful : Prop) (R : Rule Op State Slot Call) (t : Slot) (p : Code α)
    (g : Ghost) (Q : α → Ghost → Prop) : Prop :=
  Safe system R (outline strict careful) t p g Q

variable {strict careful : Prop} {R : Rule Op State Slot Call} {γ : Slot → Ghost} {s s' : State}
  {t : Slot} {g : Ghost} {i j c d : Inum} {x : Dinode} {name : Name} {k : Kind}
  {rest : List (Inum × Dinode)} {loaded r : List Inum} {site : Site} {p : Share} {o : Op} {w : Panic}

theorem run_of_exec {a : o.Ans} (h : system.exec t o s = some (a, s')) :
    s.run t o = some (a, s') := by
  have h : State.exec t o s = some (a, s') := h
  unfold State.exec at h
  split at h
  · exact h
  · cases h

theorem Ok.act {Q : o.Ans → Ghost → Prop}
    (hassert : ∀ γ s, γ t = g → Inv strict careful γ s → Removes s t o)
    (hstep : ∀ γ s, γ t = g → Inv strict careful γ s → R.op s t o → ∀ a s', s.run t o = some (a, s') →
      ∃ g', Inv strict careful (update γ t g') s' ∧ Q a g') :
    Ok strict careful R t (act o) g Q :=
  Safe.perform (fun γ s hg hI _ => hassert γ s hg hI)
    fun γ s hg hI hrule a s' hexec => hstep γ s hg hI hrule a s' (run_of_exec hexec)

theorem Ok.run {Q : o.Ans → Ghost → Prop}
    (hstep : ∀ γ s, γ t = g → Inv strict careful γ s → R.op s t o → ∀ a s', s.run t o = some (a, s') →
      ∃ g', Inv strict careful (update γ t g') s' ∧ Q a g')
    (hassert : ∀ s, Removes s t o := by exact fun _ => trivial) : Ok strict careful R t (Fs.act o) g Q :=
  Ok.act (fun _ s _ _ => hassert s) hstep

theorem Inv.stay (h : Inv strict careful γ s) (hg : γ t = g) : Inv strict careful (update γ t g) s := by
  rw [← hg, update_eq_self]
  exact h

theorem Inv.panics (h : Inv strict careful γ s) (hw : w ≠ .noType) :
    Inv strict careful γ {s with panic := some w} where
  each := fun q => {h.each q with}
  book := h.book
  alloc := {h.alloc with}
  tree := h.tree
  links := h.links
  kept := fun hstrict => {h.kept hstrict with}
  calm := fun heq => hw (Option.some.inj heq)
  quiet := h.quiet

theorem Ok.panic {α : Type} {Q : α → Ghost → Prop} (hw : w ≠ .noType) :
    Ok strict careful R t (panic w) g Q := by
  intro γ s s' _ hI hhalt
  have hhalt : State.halt w s = some s' := hhalt
  unfold State.halt at hhalt
  split at hhalt
  · cases hhalt
    exact hI.panics hw
  · cases hhalt

namespace Ghost

def setRefs (g : Ghost) (r : List Inum) : Ghost := {g with hand := {g.hand with refs := r}}

def push (g : Ghost) (i : Inum) : Ghost := g.setRefs (i :: g.refs)

/-- The inode is locked and has been read. -/
def lock (g : Ghost) (i : Inum) (x : Dinode) : Ghost :=
  {g with known := (i, x) :: g.known, loaded := i :: g.loaded}

end Ghost

/-- A thread that is between two functions, and does not rely on `cwd`. -/
structure Calm (g : Ghost) : Prop where
  stage : g.stage = .ready
  seen : g.hand.seen = []
  gap : g.hand.gap = none

namespace Calm

theorem push_eq (h : Calm g) (j : Inum) : {g with hand := ⟨[], none, j :: g.refs⟩} = g.push j := by
  obtain ⟨⟨seen, gap, refs⟩, known, loaded, credits, made, file, stage⟩ := g
  obtain ⟨-, rfl, rfl⟩ := h
  rfl

theorem push (h : Calm g) (j : Inum) : Calm (g.push j) := ⟨h.stage, h.seen, h.gap⟩

theorem lock (h : Calm g) : Calm (g.lock i x) := ⟨h.stage, h.seen, h.gap⟩

end Calm

/-! ### References -/

theorem iget_ok (hstep : ∀ γ s, γ t = g → Inv strict careful γ s →
      Inv strict careful (update γ t (g.push j)) (s.iget j)) :
    Ok strict careful R t (iget j) g fun _ g' => g' = g.push j := by
  refine Safe.seq (P := fun found g' => (found = true ∧ g' = g.push j) ∨ (found = false ∧ g' = g)) ?_ ?_
  · refine Ok.run fun γ s hg hI _ a s' hrun => ?_
    simp only [State.run] at hrun
    split at hrun
    · cases hrun
      exact ⟨g.push j, hstep γ s hg hI, .inl ⟨rfl, rfl⟩⟩
    · cases hrun
      exact ⟨g, hI.stay hg, .inr ⟨rfl, rfl⟩⟩
  · intro found g' hfound
    rcases hfound with ⟨rfl, rfl⟩ | ⟨rfl, rfl⟩
    · exact Safe.ret rfl
    · exact Ok.panic nofun

/-- `stat` of a locked inode, and what the invariant says of the ghost. -/
theorem stat_learn {P : Prop} (hx : (i, x) ∈ g.known)
    (hP : ∀ γ s, γ t = g → Inv strict careful γ s → P) :
    Ok strict careful R t (stat i) g fun y g' => y = x ∧ g' = g ∧ P := by
  refine Ok.run fun γ s hg hI _ a s' hrun => ?_
  have hlearnt := hP γ s hg hI
  cases hrun
  subst hg
  exact ⟨γ t, hI.stay rfl, ((hI.each t).known hx).2.1, rfl, hlearnt⟩

theorem stat_ok (hx : (i, x) ∈ g.known) :
    Ok strict careful R t (stat i) g fun y g' => y = x ∧ g' = g :=
  (stat_learn (P := True) hx fun _ _ _ _ => trivial).mono fun _ _ hy => ⟨hy.1, hy.2.1⟩

/-! ### Locks -/

section Lock

variable (hR : Lawful strict careful R)
include hR

theorem request_ok (hstage : g.stage = .ready) (hi : i ∈ g.refs)
    (horder : site = .ilock → ∀ γ s, γ t = g → Inv strict careful γ s → ∀ d ∈ g.keys,
      (s.inode d).type = some .dir ∧ ((s.inode i).type = some .dir → s.born d < s.born i)) :
    Ok strict careful R t (act (.request site i)) g
      fun a g' => a = true ∧ g' = {g with stage := .asks i site} := by
  refine Ok.run fun γ s hg hI hrule a s' hrun => ?_
  subst hg
  have hpos := hI.pos_of_ref hi
  simp only [State.run] at hrun
  rw [if_neg (fun hne => by omega)] at hrun
  cases hrun
  exact ⟨_, hI.asks hstage hi (fun hsite => horder hsite γ s rfl hI)
    (fun hc => hR.quiet hc hrule), rfl, rfl⟩

omit hR in
theorem grant_ok (hstage : g.stage = .ready) (hmade : ∀ m k, g.made = some (m, k) → m = i) :
    Ok strict careful R t (act (.grant i)) {g with stage := .asks i site} fun _ g' =>
      ∃ x, g' = {g with known := (i, x) :: g.known} ∧ x.type ≠ none ∧ i ∉ g.keys ∧ i ∉ g.loaded ∧
        (i ∈ g.credits → g.file = some i) ∧ ∀ k, g.made = some (i, k) → x = ⟨some k, 0, []⟩ := by
  refine Ok.run fun γ s hg hI _ a s' hrun => ?_
  simp only [State.run] at hrun
  split at hrun
  · rename_i hlock
    cases hrun
    have hl := hI.each t
    have hkey : i ∉ g.keys := by
      have := hI.not_key_of_unlocked (t := t) hlock
      rw [hg] at this
      exact this
    rw [hg] at hl
    have hrefs := (hl.asks rfl).1
    refine ⟨_, hI.grants hg rfl hlock hmade, s.inode i, ?_, (hl.refs hrefs).resolve_left nofun, hkey,
      fun hi => hkey (hl.loaded hi).1, fun hi => (hl.credit hi).resolve_left hkey, fun k hk => (hl.made hk).2.1 hkey⟩
    rw [← hstage]
  · cases hrun

theorem ilock_ok (hstage : g.stage = .ready) (hi : i ∈ g.refs)
    (horder : ∀ γ s, γ t = g → Inv strict careful γ s → ∀ d ∈ g.keys,
      (s.inode d).type = some .dir ∧ ((s.inode i).type = some .dir → s.born d < s.born i))
    (hmade : ∀ m k, g.made = some (m, k) → m = i) :
    Ok strict careful R t (ilock i) g fun _ g' =>
      ∃ x, g' = g.lock i x ∧ x.type ≠ none ∧ i ∉ g.keys ∧ i ∉ g.loaded ∧
        (i ∈ g.credits → g.file = some i) ∧ ∀ k, g.made = some (i, k) → x = ⟨some k, 0, []⟩ := by
  refine Safe.seq (request_ok hR hstage hi fun _ => horder) ?_
  rintro a g' ⟨rfl, rfl⟩
  refine Safe.seq (grant_ok hstage hmade) ?_
  rintro - g' ⟨x, rfl, htype, hfacts⟩
  refine Safe.seq (P := fun typed g' => typed = true ∧ g' = g.lock i x) ?_ ?_
  · refine Ok.run fun γ s hg hI _ a s' hrun => ?_
    cases hrun
    have hsome := hI.type_of_known (t := t) (i := i) (x := x) (by rw [hg]; exact List.mem_cons_self)
    refine ⟨_, hI.loads hg List.mem_cons_self, ?_, rfl⟩
    rw [Option.isSome_iff_ne_none.mpr hsome, Bool.or_true]
  · rintro typed g' ⟨rfl, rfl⟩
    exact Safe.ret ⟨x, rfl, htype, hfacts⟩

omit hR in
theorem iunlock_ok (hstage : g.stage = .ready) (hperm : g.known.Perm ((i, x) :: rest))
    (hloaded : ∀ j ∈ loaded, j ∈ g.loaded ∧ j ≠ i) (hmade : ∀ k, g.made ≠ some (i, k))
    (hcredit : i ∈ g.credits → g.file = some i) :
    Ok strict careful R t (iunlock i) g fun _ g' => g' = {g with known := rest, loaded := loaded} := by
  refine Safe.seq (P := fun held g' => held = true ∧ g' = {g with known := rest, loaded := loaded}) ?_ ?_
  · refine Ok.run fun γ s hg hI _ a s' hrun => ?_
    subst hg
    have hlock := ((hI.each t).known (hperm.mem_iff.mpr List.mem_cons_self))
    have hpos : 0 < s.ref i := hI.pos_of_ref hlock.2.2.2.1
    simp only [State.run] at hrun
    rw [if_pos ⟨hlock.1, hpos⟩] at hrun
    cases hrun
    exact ⟨_, hI.releases hstage hperm hloaded hmade hcredit, rfl, rfl⟩
  · rintro held g' ⟨rfl, rfl⟩
    exact Safe.ret rfl

end Lock

/-! ### `iput` -/

/-- What `iput` has found under the lock, and what it has done. -/
inductive Verdict (strict : Prop) (g : Ghost) (i : Inum) (x : Dinode) (r : List Inum) : Ghost → Prop where
  | linked (h : strict → x.nlink ≠ 0) : Verdict strict g i x r {g with known := (i, x) :: g.known}
  | spare : Verdict strict g i x r {g with known := (i, x) :: g.known, stage := .spare i}
  | freed (h : i ∉ r) : Verdict strict g i x r {g with stage := .dying i}

section Put

variable (hR : Lawful strict careful R)
include hR

section
variable (hstage : g.stage = .ready) (hmade : g.made = none)
include hstage hmade

theorem iputTest_ok (hloaded : i ∉ g.loaded) (hrefs : g.refs.Perm (i :: r)) :
    Ok strict careful R t (iputTest i) {g with known := (i, x) :: g.known}
      fun _ g' => Verdict strict g i x r g' := by
  have hknown : ∀ {γ : Slot → Ghost}, γ t = {g with known := (i, x) :: g.known} →
      (i, x) ∈ (γ t).known := by
    intro γ hg
    rw [hg]
    exact List.mem_cons_self
  refine Safe.seq (P := fun unlinked g' => g' = {g with known := (i, x) :: g.known} ∧
    (unlinked = true → x.nlink = 0) ∧ (unlinked = false → strict → x.nlink ≠ 0)) ?_ ?_
  · refine Ok.run fun γ s hg hI _ a s' hrun => ?_
    cases hrun
    have hx := hknown hg
    obtain ⟨-, hinode, htype, -⟩ := (hI.each t).known hx
    refine ⟨_, hI.stay hg, rfl, fun hyes => ?_, fun hno hstrict hzero => ?_⟩
    · rw [← hinode]
      simpa using (Bool.and_eq_true_iff.mp hyes).2
    · have hfresh : ¬ fresh γ i := hI.not_fresh_of_key (Ghost.mem_keys.mpr ⟨x, hx⟩) fun k => by
        rw [hg]
        rw [hmade]
        nofun
      rw [← hinode] at htype hzero
      have hvalid := (hI.kept hstrict).valid htype hzero hfresh
      simp [hvalid, hzero] at hno
  · rintro unlinked g' ⟨rfl, hyes, hno⟩
    cases unlinked with
    | false => exact Safe.ret (.linked (hno rfl))
    | true =>
      have hnlink := hyes rfl
      refine Safe.seq (P := fun (n : Nat) g' => (n = 1 ∧ i ∉ r ∧
          g' = {g with known := (i, x) :: g.known, stage := .doomed i}) ∨
          (n ≠ 1 ∧ Verdict strict g i x r g')) ?_ ?_
      · refine Ok.run fun γ s hg hI hrule a s' hrun => ?_
        cases hrun
        obtain ⟨-, hinode, -⟩ := (hI.each t).known (hknown hg)
        have hzero : (s.inode i).nlink = 0 := by rw [hinode]; exact hnlink
        by_cases hone : s.ref i = 1
        · have hrefs' : (γ t).refs.Perm (i :: r) := by rw [hg]; exact hrefs
          refine ⟨_, hI.dooms hg hstage List.mem_cons_self hnlink hone fun d hd hparent => ?_,
            .inl ⟨hone, hI.not_mem_of_one hone hrefs', rfl⟩⟩
          by_cases hdir : (s.inode d).type = some .dir
          · exact hR.sole hrule hzero hone hd hdir hparent
          · rw [hI.tree.parent_of_flat hdir] at hparent
            cases hparent
        · by_cases hstrict : strict
          · exact ⟨_, hI.spares hg hstage List.mem_cons_self (hR.spare hstrict hrule hzero hone),
              .inr ⟨hone, .spare⟩⟩
          · exact ⟨_, hI.stay hg, .inr ⟨hone, .linked fun h => absurd h hstrict⟩⟩
      · rintro n g' (⟨rfl, hnot, rfl⟩ | ⟨hn, hverdict⟩)
        · refine Ok.run fun γ s hg hI _ a s' hrun => ?_
          cases hrun
          exact ⟨_, hI.frees hg rfl (.refl _) (fun j hj => ⟨hj, fun heq => hloaded (heq ▸ hj)⟩) hmade,
            .freed hnot⟩
        · show Ok strict careful R t (if n = 1 then _ else _) g' _
          rw [if_neg hn]
          exact Safe.ret hverdict

theorem iput_ok (hrefs : g.refs.Perm (i :: r)) (hkeys : ∀ j ∈ g.keys, j ∈ r)
    (hfile : ∀ j ∈ g.file, j ∈ r) :
    Ok strict careful R t (iput i) g fun _ g' => g' = g.setRefs r := by
  have hi : i ∈ g.refs := hrefs.mem_iff.mpr List.mem_cons_self
  refine Safe.seq (request_ok hR hstage hi nofun) ?_
  rintro - g' ⟨-, rfl⟩
  refine Safe.seq (grant_ok hstage fun m k hm => by rw [hmade] at hm; cases hm) ?_
  rintro - g' ⟨x, rfl, -, -, hloaded, hcredit, -⟩
  refine Safe.seq (iputTest_ok hR hstage hmade hloaded hrefs) ?_
  intro _ g' hverdict
  refine Safe.seq (P := fun _ g' => ∃ b, g' = {g with stage := .leaving i b} ∧ (b = true → i ∉ r)) ?_ ?_
  · refine Ok.run fun γ s hg hI _ a s' hrun => ?_
    cases hrun
    have hsub : ∀ j ∈ g.loaded, j ∈ g.loaded ∧ j ≠ i := fun j hj => ⟨hj, fun heq => hloaded (heq ▸ hj)⟩
    have hnone : ∀ k, g.made ≠ some (i, k) := fun k => by rw [hmade]; nofun
    cases hverdict with
    | linked hlinks =>
      exact ⟨_, hI.leaves_be hg (.inl hstage) (.refl _) hsub hnone hcredit
        fun hstrict => .inr (hlinks hstrict), false, rfl, nofun⟩
    | spare =>
      exact ⟨_, hI.leaves_be hg (.inr rfl) (.refl _) hsub hnone hcredit fun _ => .inl rfl, false, rfl, nofun⟩
    | freed hnot => exact ⟨_, hI.leaves_dead hg rfl hi hmade, true, rfl, fun _ => hnot⟩
  · rintro - g' ⟨b, rfl, hnot⟩
    refine Ok.run fun γ s hg hI _ a s' hrun => ?_
    cases hrun
    refine ⟨_, hI.counts_down hg rfl hrefs hkeys hfile hnot, ?_⟩
    rw [Ghost.setRefs, ← hstage]

theorem iunlockput_ok
    (hperm : g.known.Perm ((i, x) :: rest)) (hloaded : ∀ j ∈ loaded, j ∈ g.loaded ∧ j ≠ i)
    (hrefs : g.refs.Perm (i :: r))
    (hkeys : ∀ j ∈ rest.map Prod.fst, j ∈ r) (hfile : ∀ j ∈ g.file, j ∈ r)
    (hcredit : i ∈ g.credits → g.file = some i) :
    Ok strict careful R t (iunlockput i) g
      fun _ g' => g' = {g.setRefs r with known := rest, loaded := loaded} := by
  refine Safe.next (iunlock_ok hstage hperm hloaded (fun k => by rw [hmade]; nofun) hcredit) ?_
  exact iput_ok hR hstage hmade hrefs hkeys hfile

end

end Put

/-! ### Directories -/

/-- What there is in hand for what is locked and found. -/
structure Tidy (g : Ghost) : Prop where
  keys : ∀ i ∈ g.keys, i ∈ g.refs
  file : ∀ i ∈ g.file, i ∈ g.refs

/-- What `dirlookup` returns. -/
inductive Found (g : Ghost) (d : Inum) (x : Dinode) (name : Name) : Option (Inum × Nat) → Ghost → Prop where
  | entry {j : Inum} {off : Nat} (hscan : scan name x.dirents = some (off, j))
    (hne : name.isPlain = true → j ≠ d) : Found g d x name (some (j, off)) (g.push j)
  | absent (hscan : scan name x.dirents = none) : Found g d x name none g

theorem dirlookup_ok (hcalm : Calm g) (hx : (d, x) ∈ g.known)
    (hmade : (∀ k, g.made ≠ some (d, k)) ∨ scan name x.dirents = none) :
    Ok strict careful R t (dirlookup d name) g
      fun r g' => x.type = some .dir ∧ Found g d x name r g' := by
  refine Safe.seq (stat_learn (P := ∀ off j, scan name x.dirents = some (off, j) →
    name.isPlain = true → j ≠ d) hx fun γ s hg hI off j hscan hplain heq => ?_) ?_
  · -- a directory is younger than the one that has it
    subst heq
    have hinode : s.inode j = x := ((hI.each t).known (by rw [hg]; exact hx)).2.1
    have hmem : (⟨name, j⟩ : Dirent) ∈ (s.inode j).dirents := by
      rw [hinode]
      exact List.mem_of_getElem? (scan_some hscan).2
    have hborn : s.born j < s.born j := (hI.tree.child hmem hplain (hI.tree.dir_of_entry hmem)).2
    omega
  · rintro y g' ⟨rfl, rfl, hne⟩
    split
    · rename_i hdir
      split
      · rename_i off j hscan
        have hmade : ∀ k, g'.made ≠ some (d, k) := hmade.resolve_right (by rw [hscan]; simp)
        obtain ⟨hj, hget⟩ := scan_some hscan
        refine Safe.next (iget_ok fun γ s hg hI => ?_) ?_
        · rw [← hcalm.push_eq]
          exact hI.iget_entry hg hcalm.stage hcalm.gap hx hmade (List.mem_of_getElem? hget) hj
        · exact Safe.ret ⟨hdir, .entry hscan (hne off j hscan)⟩
      · rename_i hscan
        exact Safe.ret ⟨hdir, .absent hscan⟩
    · exact Ok.panic (by simp)

/-- What `dirlink` returns. -/
inductive Linked (g g' : Ghost) (x : Dinode) (name : Name) : Bool → Ghost → Prop where
  | done (hscan : scan name x.dirents = none) : Linked g g' x name true g'
  | there (hscan : scan name x.dirents ≠ none) : Linked g g' x name false g

theorem dirlink_ok (hR : Lawful strict careful R) (g' : Ghost) (hcalm : Calm g) (hx : (d, x) ∈ g.known)
    (hmade : g.made = none ∨ scan name x.dirents = none)
    (htidy : Tidy g)
    (hc : ∀ γ s, γ t = g → Inv strict careful γ s → c ≠ 0)
    (hwrite : scan name x.dirents = none → x.type = some .dir → ∀ γ s, γ t = g → Inv strict careful γ s →
      R.op s t (.writei d x.emptySlot ⟨name, c⟩) →
      Inv strict careful (update γ t g')
        (s.setInode d ((s.inode d).setDirent x.emptySlot ⟨name, c⟩))) :
    Ok strict careful R t (dirlink d name c) g fun b g₂ => Linked g g' x name b g₂ := by
  refine Safe.seq (dirlookup_ok hcalm hx (hmade.imp_left fun hm k => by rw [hm]; simp)) ?_
  rintro found g₂ ⟨hdir, hfound⟩
  cases hfound with
  | entry hscan hne =>
    have hsome : ¬ scan name x.dirents = none := by rw [hscan]; simp
    refine Safe.next (iput_ok hR (r := g.refs) hcalm.stage (hmade.resolve_right hsome)
      (.refl _) htidy.keys htidy.file) ?_
    exact Safe.ret (.there hsome)
  | absent hscan =>
    refine Safe.seq (stat_ok hx) ?_
    rintro y g₃ ⟨rfl, rfl⟩
    split
    · refine Safe.seq (P := fun _ g₂ => g₂ = g') ?_ ?_
      · refine Ok.act (fun γ s hg hI hzero => absurd hzero (hc γ s hg hI)) fun γ s hg hI hrule a s' hrun => ?_
        cases hrun
        exact ⟨g', hwrite hscan hdir γ s hg hI hrule, rfl⟩
      · rintro - g₄ rfl
        exact Safe.ret (.done hscan)
    · exact Ok.panic (by simp)

theorem ialloc_ok (hcalm : Calm g) (hmade : g.made = none) (l : List Inum) (hl : (0 : Inum) ∉ l) :
    Ok strict careful R t (ialloc k l) g
      fun j g' => g' = {g with made := some (j, k)}.push j ∧ j ∉ g.keys ∧ j ≠ 0 := by
  induction l with
  | nil => exact Ok.panic nofun
  | cons i l ih =>
    have hi0 : i ≠ 0 := fun heq => hl (heq ▸ List.mem_cons_self)
    refine Safe.seq (P := fun free g' => (free = true ∧ g' = {g with made := some (i, k)} ∧ i ∉ g.keys) ∨
      (free = false ∧ g' = g)) ?_ ?_
    · refine Ok.run fun γ s hg hI _ a s' hrun => ?_
      simp only [State.run] at hrun
      split at hrun
      · rename_i hfree
        cases hrun
        have hkey : i ∉ g.keys := fun hi => (hI.key_cases (t := t) (by rw [hg]; exact hi)).2.1 hfree
        exact ⟨_, hI.allocs hg hcalm.stage hmade hfree hi0, .inl ⟨rfl, rfl, hkey⟩⟩
      · cases hrun
        exact ⟨g, hI.stay hg, .inr ⟨rfl, rfl⟩⟩
    · rintro free g' (⟨rfl, rfl, hkey⟩ | ⟨rfl, rfl⟩)
      · have hcalm' : Calm {g with made := some (i, k)} := ⟨hcalm.stage, hcalm.seen, hcalm.gap⟩
        refine Safe.next (iget_ok fun γ s hg hI => ?_) ?_
        · rw [← hcalm'.push_eq]
          exact hI.iget_made hg hcalm.stage hcalm.gap rfl
        · exact Safe.ret ⟨rfl, hkey, hi0⟩
      · exact ih fun h0 => hl (List.mem_cons_of_mem i h0)

/-! ### Paths -/

theorem Inv.reads_null (h : Inv strict careful γ s) (hseen : (γ t).hand.seen = []) :
    Inv strict careful γ (s.setReading t true) := by
  refine h.unread (t := t) (fun hq => update_of_ne hq _ _) (fun _ _ => rfl) fun hp => ?_
  rw [Hand.window, hseen] at hp
  cases hp

section Walk

variable (hR : Lawful strict careful R)
include hR

theorem relyCwd_ok (hcalm : Calm g) (g₁ : Inum → Share → Ghost)
    (hstep : ∀ γ s c p, γ t = g → Inv strict careful γ s → s.owner t = some p →
      (∀ q, q ≠ t → s.owner q = some p → s.reading q = false) → s.cwd p = some c →
      Inv strict careful (update γ t (g₁ c p)) (s.setReading t true)) :
    Ok strict careful R t readCwd g fun a g' => a = none ∨ ∃ c p, a = some c ∧ g' = g₁ c p := by
  refine Ok.run fun γ s hg hI hrule a s' hrun => ?_
  obtain ⟨p, howner, heq⟩ := Option.map_eq_some_iff.mp hrun
  cases heq
  cases hcwd : s.cwd p with
  | none => exact ⟨g, (hI.reads_null (by rw [hg]; exact hcalm.seen)).stay hg, .inl rfl⟩
  | some c =>
    exact ⟨_, hstep γ s c p hg hI howner (fun q hq => hR.cwd hrule howner hq) hcwd, .inr ⟨c, p, rfl, rfl⟩⟩

theorem readCwd_ok (hcalm : Calm g) :
    Ok strict careful R t readCwd g fun a g' =>
      a = none ∨ ∃ c p, a = some c ∧ g' = {g with hand := {g.hand with seen := [(p, some c)]}} :=
  relyCwd_ok hR hcalm _ fun _ _ _ _ hg hI howner hquiet hcwd =>
    hI.look hg howner hquiet hcwd hcalm.stage hcalm.gap

omit hR in
theorem idup_ok (hcalm : Calm g) :
    Ok strict careful R t (act (.idup c)) {g with hand := {g.hand with seen := [(p, some c)]}}
      fun _ g' => g' = g.push c := by
  refine Ok.run fun γ s hg hI _ a s' hrun => ?_
  cases hrun
  exact ⟨_, hI.dup hg List.mem_cons_self hcalm.stage hcalm.gap, hcalm.push_eq c⟩

theorem takeCwd_ok (hcalm : Calm g) :
    Ok strict careful R t readCwd g fun a g' =>
      a = none ∨ ∃ c p, a = some c ∧ g' = {g with hand := ⟨[(p, some c)], some p, c :: g.refs⟩} :=
  relyCwd_ok hR hcalm _ fun _ _ _ _ hg hI howner hquiet hcwd =>
    hI.take hg howner hquiet hcwd hcalm.stage hcalm.gap

theorem namexStart_ok (hcalm : Calm g) (absolute : Bool) :
    Ok strict careful R t (namexStart absolute) g fun ip g' => g' = g.push ip := by
  unfold namexStart
  split
  · refine Safe.next (iget_ok fun γ s hg hI => ?_) ?_
    · rw [← hcalm.push_eq]
      exact hI.iget_root hg hcalm.stage hcalm.gap
    · exact Safe.ret rfl
  · refine Safe.seq (readCwd_ok hR hcalm) ?_
    rintro a g' (rfl | ⟨c, p, rfl, rfl⟩)
    · exact Ok.panic nofun
    · refine Safe.next (idup_ok hcalm) ?_
      exact Safe.ret rfl

/-- A thread that walks along a path has nothing locked, and makes nothing. -/
structure Walks (g : Ghost) : Prop extends Calm g where
  known : g.known = []
  loaded : g.loaded = []
  made : g.made = none
  file : ∀ i ∈ g.file, i ∈ g.refs

omit hR in
theorem Walks.tidy (h : Walks g) : Tidy g where
  keys := fun i hi => by
    rw [Ghost.keys, h.known] at hi
    cases hi
  file := h.file

theorem walk_lock (hg : Walks g) :
    Ok strict careful R t (ilock i) (g.push i) fun _ g' =>
      ∃ x, g' = (g.push i).lock i x ∧ x.type ≠ none ∧ (i ∈ g.credits → g.file = some i) := by
  have hkeys : (g.push i).keys = [] := by
    show g.known.map Prod.fst = []
    rw [hg.known]
    rfl
  refine (ilock_ok (g := g.push i) (i := i) hR hg.stage List.mem_cons_self
    (fun _ _ _ _ d hd => ?_) fun m k hm => ?_).mono ?_
  · rw [hkeys] at hd
    cases hd
  · have hm : g.made = _ := hm
    rw [hg.made] at hm
    cases hm
  · rintro - g' ⟨x, rfl, htype, -, -, hcredit, -⟩
    exact ⟨x, rfl, htype, hcredit⟩

omit hR in
theorem walk_unlock (hg : Walks g) (hcredit : i ∈ g.credits → g.file = some i) :
    Ok strict careful R t (iunlock i) ((g.push i).lock i x) fun _ g' => g' = g.push i := by
  have hperm : ((g.push i).lock i x).known.Perm [(i, x)] := by
    show ((i, x) :: g.known).Perm _
    rw [hg.known]
  have hloaded : ∀ j ∈ ([] : List Inum), j ∈ ((g.push i).lock i x).loaded ∧ j ≠ i := nofun
  refine (iunlock_ok (g := (g.push i).lock i x) hg.stage hperm hloaded
    (fun k => by show g.made ≠ _; rw [hg.made]; nofun) hcredit).mono ?_
  rintro - g' rfl
  rw [← hg.known, ← hg.loaded]
  rfl

section
variable (hg : Walks g)
include hg

/-- The inode of a path is unlocked and put; another may have been found. -/
theorem walk_unlockput (hcredit : i ∈ g.credits → g.file = some i) {l : List Inum} :
    Ok strict careful R t (iunlockput i) (((g.push i).lock i x).setRefs (l ++ i :: g.refs))
      fun _ g' => g' = g.setRefs (l ++ g.refs) := by
  have hperm : (((g.push i).lock i x).setRefs (l ++ i :: g.refs)).known.Perm [(i, x)] := by
    show ((i, x) :: g.known).Perm _
    rw [hg.known]
  have hloaded : ∀ j ∈ ([] : List Inum),
      j ∈ (((g.push i).lock i x).setRefs (l ++ i :: g.refs)).loaded ∧ j ≠ i := nofun
  refine (iunlockput_ok (g := ((g.push i).lock i x).setRefs (l ++ i :: g.refs)) hR hg.stage hg.made
    hperm hloaded List.perm_middle nofun (fun j hj => List.mem_append_right _ (hg.file j hj))
    hcredit).mono ?_
  rintro - g' rfl
  rw [← hg.known, ← hg.loaded]
  rfl

theorem walk_next {α : Type} {a : α} {next : Inum → Code α} {Q : α → Ghost → Prop}
    (hcredit : i ∈ g.credits → g.file = some i) (hstop : Q a g)
    (hnext : ∀ j, Ok strict careful R t (next j) (g.push j) Q) :
    Ok strict careful R t (do
        match ← dirlookup i name with
        | some (j, _) => do
          iunlockput i
          next j
        | none => do
          iunlockput i
          pure a)
      ((g.push i).lock i x) Q := by
  refine Safe.seq (dirlookup_ok (hg.toCalm.push i).lock List.mem_cons_self
    (.inl fun k => by show g.made ≠ _; rw [hg.made]; nofun)) ?_
  rintro found g₂ ⟨-, hfound⟩
  cases hfound with
  | entry => exact Safe.next (walk_unlockput hR hg hcredit (l := [_])) (hnext _)
  | absent => exact Safe.next (walk_unlockput hR hg hcredit (l := [])) (Safe.ret hstop)

theorem nameiWalk_ok (path : List Name) :
    Ok strict careful R t (nameiWalk i path) (g.push i)
      fun r g' => g' = g.setRefs (r.toList ++ g.refs) := by
  induction path generalizing i with
  | nil => exact Safe.ret rfl
  | cons name path ih =>
    refine Safe.seq (walk_lock hR hg) ?_
    rintro - g₁ ⟨x, rfl, -, hcredit⟩
    refine Safe.seq (stat_ok List.mem_cons_self) ?_
    rintro y g₂ ⟨rfl, rfl⟩
    split
    · exact walk_next hR hg hcredit rfl fun j => ih
    · refine Safe.next (walk_unlockput hR hg hcredit (l := [])) ?_
      exact Safe.ret rfl

theorem namei_ok (path : Path) :
    Ok strict careful R t (namei path) g fun r g' => g' = g.setRefs (r.toList ++ g.refs) := by
  refine Safe.seq (namexStart_ok hR hg.toCalm path.absolute) ?_
  rintro ip g' rfl
  exact nameiWalk_ok hR hg path.elems

theorem nameiparentWalk_ok (path : List Name) :
    Ok strict careful R t (nameiparentWalk i path) (g.push i)
      fun r g' => g' = g.setRefs ((r.map Prod.fst).toList ++ g.refs) := by
  induction path generalizing i with
  | nil =>
    refine Safe.next (iput_ok hR (r := g.refs) hg.stage hg.made (.refl _) hg.tidy.keys
      hg.file) ?_
    exact Safe.ret rfl
  | cons name path ih =>
    refine Safe.seq (walk_lock hR hg) ?_
    rintro - g₁ ⟨x, rfl, -, hcredit⟩
    refine Safe.seq (stat_ok List.mem_cons_self) ?_
    rintro y g₂ ⟨rfl, rfl⟩
    split
    · split
      · rename_i hpath
        refine Safe.next (walk_unlock hg hcredit) ?_
        exact Safe.ret rfl
      · exact walk_next hR hg hcredit rfl fun j => ih
    · refine Safe.next (walk_unlockput hR hg hcredit (l := [])) ?_
      exact Safe.ret rfl

theorem nameiparent_ok (path : Path) :
    Ok strict careful R t (nameiparent path) g
      fun r g' => g' = g.setRefs ((r.map Prod.fst).toList ++ g.refs) := by
  refine Safe.seq (namexStart_ok hR hg.toCalm path.absolute) ?_
  rintro ip g' rfl
  exact nameiparentWalk_ok hR hg path.elems

end

end Walk

end ThreadKernel.Fs
