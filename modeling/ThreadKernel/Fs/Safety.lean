import ThreadKernel.Fs.Functions

/-! The calls of `sysfile.c` keep the invariant.

A thread that makes a call has nothing in hand, and has nothing in hand when the call
returns. In between it has at most two inodes locked. -/
namespace ThreadKernel.Fs

open Refcount Interleave Lts Function

variable {strict careful : Prop} {R : Rule Op State Slot Call} {γ : Slot → Ghost} {s s' : State}
  {t : Slot} {g : Ghost} {i j c d dp ip : Inum} {x y z : Dinode} {name : Name} {k : Kind} {p : Share}
  {rest : List (Inum × Dinode)} {credits r : List Inum} {file : Option Inum} {known : List (Inum × Dinode)}

theorem Ghost.idle_walks : Walks .idle := ⟨⟨rfl, rfl, rfl⟩, rfl, rfl, rfl, nofun⟩

/-! ### Link counts -/

theorem recount_ok {o : Op} {n : Nat} {u : o.Ans} (credits : List Inum) (file : Option Inum)
    (hassert : ∀ s, Removes s t o)
    (hrun : ∀ s : State, s.inode d = x → s.run t o = some (u, s.setNlink d n))
    (hstage : g.stage = .ready) (hperm : g.known.Perm ((d, x) :: rest))
    (hcount : ∀ γ s, γ t = g → Inv strict careful γ s →
      n + g.credits.count d = x.nlink + credits.count d)
    (hrest : ∀ i, i ≠ d → credits.count i = g.credits.count i)
    (hfile : ∀ i, file = some i → i ∈ g.refs ∧ i ∈ credits ∧ ∃ y, (i, y) ∈ g.known ∧ y.type ≠ some .dir)
    (hcredit : ∀ i ∈ credits, i ∈ g.keys ∨ file = some i) (hloaded : n = 0 → d ∈ g.loaded) :
    Ok strict careful R t (act o) g
      fun _ g' => g' = {g with known := (d, {x with nlink := n}) :: rest, credits := credits, file := file} := by
  refine Ok.act (fun _ s _ _ => hassert s) fun γ s hg hI _ a s' heq => ?_
  have hcount := hcount γ s hg hI
  subst hg
  rw [hrun s (hI.inode_eq hperm)] at heq
  cases heq
  refine ⟨_, hI.recounts hstage hperm hcount hrest (fun i hi => ?_) hcredit (fun _ hn => hloaded hn), rfl⟩
  obtain ⟨href, hmem, y, hy, htype⟩ := hfile i hi
  rw [← ((hI.each t).known hy).2.1] at htype
  exact ⟨href, htype, hmem⟩

/-- A link that has been counted is one of the links. -/
theorem Inv.credit_le (h : Inv strict careful γ s) (hx : (d, x) ∈ (γ t).known) :
    (γ t).credits.count d ≤ x.nlink := by
  obtain ⟨-, rfl, htype, -⟩ := (h.each t).known hx
  have hle := h.links.le htype
  have hsum := Finset.single_le_sum (f := fun q => (γ q).credits.count d) (fun _ _ => Nat.zero_le _)
    (Finset.mem_univ t)
  have hsum : (γ t).credits.count d ≤ owed γ d := hsum
  omega

theorem nlinkDecr_ok (credits : List Inum) (hstage : g.stage = .ready) (hperm : g.known.Perm ((d, x) :: rest))
    (hcount : g.credits.count d = credits.count d + 1)
    (hrest : ∀ i, i ≠ d → credits.count i = g.credits.count i)
    (hcredit : ∀ i ∈ credits, i ∈ g.keys) (hloaded : d ∈ g.loaded) :
    Ok strict careful R t (act (.nlinkDecr d)) g fun _ g' =>
      g' = {g with known := (d, {x with nlink := x.nlink - 1}) :: rest, credits := credits, file := none} := by
  refine recount_ok (u := ()) credits none (fun _ => trivial) (fun s hs => by simp only [State.run, hs])
    hstage hperm (fun γ s hg hI => ?_) hrest nofun (fun i hi => .inl (hcredit i hi)) fun _ => hloaded
  have hle := hI.credit_le (t := t) (d := d) (x := x) (by rw [hg]; exact hperm.mem_iff.mpr List.mem_cons_self)
  rw [hg] at hle
  omega

/-! ### `create` -/

/-- A thread between two functions, with nothing made and no links counted. -/
def Ghost.plain (refs : List Inum) (known : List (Inum × Dinode)) (loaded : List Inum) : Ghost :=
  ⟨⟨[], none, refs⟩, known, loaded, [], none, none, .ready⟩

/-- `create` has allocated `ip`, and has it and `dp` locked. -/
def Ghost.making (dp ip : Inum) (k : Kind) (known : List (Inum × Dinode)) (credits : List Inum) : Ghost :=
  ⟨⟨[], none, [ip, dp]⟩, known, [ip, dp], credits, some (ip, k), none, .ready⟩

theorem Ghost.making_calm : Calm (.making dp ip k known credits) :=
  ⟨rfl, rfl, rfl⟩

theorem Ghost.making_tidy : Tidy (.making dp ip k [(dp, x), (ip, y)] credits) where
  keys := by simp [Ghost.keys, Ghost.making, Ghost.refs]
  file := nofun

theorem Ghost.making_tidy' : Tidy (.making dp ip k [(ip, y), (dp, x)] credits) where
  keys := by simp [Ghost.keys, Ghost.making, Ghost.refs]
  file := nofun

section Create

variable (hne : ip ≠ dp) {l : List Dirent}
include hne

/-- `dp` is not the inode that is being made. -/
theorem Inv.making_dp (hg : γ t = .making dp ip k known credits)
    (hx : (dp, x) ∈ known) (h : Inv strict careful γ s) :
    ¬ fresh γ dp ∧ (s.inode dp).type ≠ none ∧ dp ∈ (γ t).keys := by
  have hknown : (dp, x) ∈ (γ t).known := by rw [hg]; exact hx
  have hkey : dp ∈ (γ t).keys := Ghost.mem_keys.mpr ⟨x, hknown⟩
  refine ⟨h.not_fresh_of_key hkey fun k' hk => ?_, h.type_of_known hknown, hkey⟩
  rw [hg] at hk
  cases hk
  exact hne rfl

theorem createDots_ok (hR : Lawful strict careful R) (hip : ip ≠ 0) :
    Ok strict careful R t (createDots dp ip k)
      (.making dp ip k [(ip, ⟨some k, 1, []⟩), (dp, x)] [ip]) fun _ g' =>
      (k ≠ .dir ∧ g' = .making dp ip k [(ip, ⟨some k, 1, []⟩), (dp, x)] [ip]) ∨
      (k = .dir ∧ g' = .making dp ip k
        [(ip, ⟨some .dir, 1, [⟨.dot, ip⟩, ⟨.dotdot, dp⟩]⟩), (dp, {x with nlink := x.nlink + 1})] [dp, ip]) := by
  unfold createDots
  split
  · rename_i hk
    subst hk
    have hperm : (Ghost.making dp ip .dir [(ip, ⟨some .dir, 1, []⟩), (dp, x)] [ip]).known.Perm
        [(dp, x), (ip, ⟨some .dir, 1, []⟩)] := List.Perm.swap ..
    refine Safe.next (recount_ok (u := ()) (n := x.nlink + 1) [dp, ip] none
      (fun _ => trivial) (fun s hs => by simp only [State.run, hs]) rfl hperm (fun _ _ _ _ => ?_)
      (fun i hi => ?_) nofun (fun i hi => .inl ?_) nofun) ?_
    · simp [Ghost.making, hne]
    · simp [Ghost.making, Ne.symm hi]
    · simpa [Ghost.making, Ghost.keys, or_comm] using hi
    -- `.` goes into the first slot, and `..` into the second
    refine Safe.seq (dirlink_ok hR (.making dp ip .dir
      [(ip, ⟨some .dir, 1, [⟨.dot, ip⟩]⟩), (dp, {x with nlink := x.nlink + 1})] [dp, ip])
      (x := ⟨some .dir, 1, []⟩) Ghost.making_calm (by simp) (.inr rfl) Ghost.making_tidy
      (fun _ _ _ _ => hip) fun _ _ γ s hg hI _ => ?_) ?_
    · have hperm : (γ t).known.Perm ((ip, ⟨some .dir, 1, []⟩) :: [(dp, {x with nlink := x.nlink + 1})]) := by
        rw [hg]
        exact List.Perm.swap ..
      have hinv := hI.dots (l := [⟨.dot, ip⟩]) (by rw [hg]; rfl) hperm (by rw [hg]; rfl) ⟨.inl rfl⟩ (by simp)
      rw [hI.inode_eq hperm]
      rw [hg] at hinv
      exact hinv
    rintro dot g₂ hdot
    cases hdot with
    | there hscan => exact absurd rfl hscan
    | done =>
      have hscan : scan .dotdot [(⟨.dot, ip⟩ : Dirent)] = none := by simp [scan]
      have hslot : (⟨some .dir, 1, [⟨.dot, ip⟩]⟩ : Dinode).emptySlot = 1 := by
        simp [Dinode.emptySlot, hip]
      refine Safe.seq (dirlink_ok hR (.making dp ip .dir
        [(ip, ⟨some .dir, 1, [⟨.dot, ip⟩, ⟨.dotdot, dp⟩]⟩), (dp, {x with nlink := x.nlink + 1})] [dp, ip])
        (x := ⟨some .dir, 1, [⟨.dot, ip⟩]⟩) Ghost.making_calm List.mem_cons_self (.inr hscan)
        Ghost.making_tidy' (fun γ s hg hI => ?_)
        fun _ _ γ s hg hI _ => ?_) ?_
      · exact hI.inum_ne_zero (hI.making_dp hne hg (List.mem_cons_of_mem _ List.mem_cons_self)).2.1
      · obtain ⟨hfresh, htype, hkey⟩ := hI.making_dp hne hg (List.mem_cons_of_mem _ List.mem_cons_self)
        have hperm : (γ t).known.Perm
            ((ip, ⟨some .dir, 1, [⟨.dot, ip⟩]⟩) :: [(dp, {x with nlink := x.nlink + 1})]) := by
          rw [hg]
          exact .refl _
        have hinv := hI.dots (l := [⟨.dot, ip⟩, ⟨.dotdot, dp⟩]) (by rw [hg]; rfl) hperm (by rw [hg]; rfl)
          ⟨.inr ⟨dp, rfl, htype, hfresh⟩⟩ (by simpa using hkey)
        rw [hI.inode_eq hperm, hslot]
        rw [hg] at hinv
        exact hinv
      rintro dotdot g₃ hdotdot
      cases hdotdot with
      | there hsome => exact absurd hscan hsome
      | done => exact Safe.ret (.inr ⟨rfl, rfl⟩)
  · rename_i hk
    exact Safe.ret (.inl ⟨hk, rfl⟩)

theorem Inv.names_made (h : Inv strict careful γ s)
    (hg : γ t = .making dp ip k [(ip, ⟨some k, 1, l⟩), (dp, x)] credits)
    (hl : k = .dir → l = [⟨.dot, ip⟩, ⟨.dotdot, dp⟩])
    (hcredits : ∀ i, credits.count i = (if ip = i then 1 else 0) + (if k = .dir ∧ dp = i then 1 else 0))
    (hdir : x.type = some .dir) (hscan : scan name x.dirents = none)
    (hrule : strict → name.isPlain = true → Attached s.inode dp) :
    Inv strict careful
      (update γ t (.plain [ip, dp]
        [(dp, x.setDirent x.emptySlot ⟨name, ip⟩), (ip, ⟨some k, 1, l⟩)] [ip, dp]))
      (s.setInode dp ((s.inode dp).setDirent x.emptySlot ⟨name, ip⟩)) := by
  obtain ⟨hfresh, htype, hkey⟩ := h.making_dp hne hg (List.mem_cons_of_mem _ List.mem_cons_self)
  have hperm : (γ t).known.Perm ((dp, x) :: [(ip, ⟨some k, 1, l⟩)]) := by
    rw [hg]
    exact List.Perm.swap ..
  have hx := h.inode_eq hperm
  have hz : s.inode ip = ⟨some k, 1, l⟩ := ((h.each t).known (by rw [hg]; exact List.mem_cons_self)).2.1
  have hmade : (γ t).made = some (ip, k) := by rw [hg]; rfl
  have hipkey : ip ∈ (γ t).keys := Ghost.mem_keys.mpr ⟨_, by rw [hg]; exact List.mem_cons_self⟩
  obtain ⟨htypeip, -, hborn⟩ := (h.each t).made hmade
  have hdirdp : (s.inode dp).type = some .dir := by rw [hx]; exact hdir
  have hshape := h.tree.shape hdirdp hfresh
  rw [hx] at hshape
  have hname : name.isPlain = true := hshape.scan_plain (h.inum_ne_zero htype) hscan
  have hlink : Linkable s.inode s.born dp ip := by
    refine ⟨by rw [htypeip]; simp, hne, fun hkdir => ?_⟩
    rw [htypeip] at hkdir
    have hl := hl (Option.some.inj hkdir)
    subst hl
    refine ⟨h.tree.unnamed_of_fresh ⟨t, k, hmade⟩, ?_, hborn dp hkey (Ne.symm hne), ?_⟩
    · rw [hz]
      simp [Dinode.parent]
    · rw [hz]
      exact ⟨dp, [], rfl, h.inum_ne_zero htype, (by simp)⟩
  refine h.enters (t := t) (by rw [hg]; rfl) hperm [] none none hdir hfresh hname hlink
    (fun hstrict => hrule hstrict hname) (.inr ⟨rfl, fun m k' hm => ?_⟩) (by simp) (by simp) (fun i => ?_)
    (by rw [hg]; rfl) (fun {i} hi => ?_) (fun {i} hi => ?_)
  · rw [hmade] at hm
    cases hm
    exact hipkey
  · rw [htypeip, hg]
    simpa [Ghost.making] using hcredits i
  · obtain ⟨q, k', hq⟩ := hi
    by_cases hqt : q = t
    · subst hqt
      rw [update_self] at hq
      cases hq
    · rw [update_of_ne hqt] at hq
      refine ⟨⟨q, k', hq⟩, fun heq => ?_⟩
      subst heq
      exact hqt (h.alloc.once hmade hq)
  · obtain ⟨q, k', hq⟩ := hi
    by_cases hqt : q = t
    · subst hqt
      rw [hmade] at hq
      cases hq
      exact .inr rfl
    · exact .inl ⟨q, k', by rw [update_of_ne hqt]; exact hq⟩

theorem create_tail (hR : Lawful strict careful R) (hip : ip ≠ 0)
    (hl : k = .dir → l = [⟨.dot, ip⟩, ⟨.dotdot, dp⟩])
    (hcredits : ∀ i, credits.count i = (if ip = i then 1 else 0) + (if k = .dir ∧ dp = i then 1 else 0))
    (hdir : x.type = some .dir) (hscan : scan name x.dirents = none) :
    Ok strict careful R t (do
        let linked ← dirlink dp name ip
        if linked then
          iunlockput dp
          pure (some ip)
        else panic .create)
      (.making dp ip k [(ip, ⟨some k, 1, l⟩), (dp, x)] credits) fun r g' =>
      (r = none ∧ g' = .idle) ∨ ∃ ip x, r = some ip ∧ g' = (Ghost.idle.push ip).lock ip x := by
  refine Safe.seq (dirlink_ok hR (.plain [ip, dp]
    [(dp, x.setDirent x.emptySlot ⟨name, ip⟩), (ip, ⟨some k, 1, l⟩)] [ip, dp]) Ghost.making_calm
    (List.mem_cons_of_mem _ List.mem_cons_self) (.inr hscan) Ghost.making_tidy'
    (fun _ _ _ _ => hip) fun _ _ γ s hg hI hrule => ?_) ?_
  · exact hI.names_made hne hg hl hcredits hdir hscan fun hstrict hname => hR.attached hstrict hrule hip hname
  rintro linked g₁ hlinked
  cases hlinked with
  | there hsome => exact absurd hscan hsome
  | done =>
    have hloaded : ∀ j ∈ [ip], j ∈ [ip, dp] ∧ j ≠ dp := by simp [hne]
    refine Safe.next (iunlockput_ok (r := [ip]) hR rfl rfl (.refl _) hloaded
      (List.Perm.swap ..) (by simp) nofun nofun) ?_
    exact Safe.ret (.inr ⟨ip, _, rfl, rfl⟩)

end Create

theorem zero_notMem_inodes : (0 : Inum) ∉ inodes := by decide

theorem create_ok (hR : Lawful strict careful R) (path : Path) :
    Ok strict careful R t (create path k) .idle fun r g' =>
      (r = none ∧ g' = .idle) ∨ ∃ ip x, r = some ip ∧ g' = (Ghost.idle.push ip).lock ip x := by
  refine Safe.seq (nameiparent_ok hR Ghost.idle_walks path) ?_
  rintro found g₁ rfl
  cases found with
  | none => exact Safe.ret (.inl ⟨rfl, rfl⟩)
  | some found =>
    obtain ⟨dp, name⟩ := found
    refine Safe.seq (walk_lock hR Ghost.idle_walks) ?_
    rintro - g₂ ⟨x, rfl, -, -⟩
    refine Safe.seq (dirlookup_ok (Ghost.idle_walks.toCalm.push dp).lock List.mem_cons_self (.inl (by rintro _ ⟨⟩))) ?_
    rintro found g₃ ⟨hdir, hfound⟩
    cases hfound with
    | entry hscan hne =>
      rename_i ip off
      refine Safe.next (walk_unlockput hR Ghost.idle_walks (by rintro ⟨⟩) (l := [ip])) ?_
      refine Safe.seq (walk_lock hR Ghost.idle_walks) ?_
      rintro - g₅ ⟨y, rfl, -, -⟩
      refine Safe.seq (stat_ok List.mem_cons_self) ?_
      rintro z g₆ ⟨rfl, rfl⟩
      split
      · exact Safe.ret (.inr ⟨ip, z, rfl, rfl⟩)
      · refine Safe.next (walk_unlockput hR Ghost.idle_walks (by rintro ⟨⟩) (l := [])) ?_
        exact Safe.ret (.inl ⟨rfl, rfl⟩)
    | absent hscan =>
      refine Safe.seq (ialloc_ok (Ghost.idle_walks.toCalm.push dp).lock rfl inodes zero_notMem_inodes) ?_
      rintro ip g₄ ⟨rfl, hkey, hip⟩
      have hne : ip ≠ dp := fun heq => hkey (heq ▸ List.mem_cons_self)
      refine Safe.seq (ilock_ok hR rfl List.mem_cons_self (fun γ s hg hI d hd => ?_)
        (fun m k' hm => ?_)) ?_
      · obtain rfl := List.mem_singleton.mp hd
        have hx : s.inode d = x := ((hI.each t).known (by rw [hg]; exact List.mem_cons_self)).2.1
        have hmade := (hI.each t).made (i := ip) (k := k) (by rw [hg]; rfl)
        refine ⟨by rw [hx]; exact hdir, fun _ => hmade.2.2 d ?_ (Ne.symm hne)⟩
        rw [hg]
        exact List.mem_cons_self
      · cases hm
        rfl
      rintro - g₅ ⟨y, rfl, -, -, -, -, hy⟩
      obtain rfl := hy k rfl
      refine Safe.next (recount_ok (u := ()) (n := 1) [ip] none (fun _ => trivial) (fun _ _ => rfl) rfl
        (.refl _) (fun _ _ _ _ => ?_) (fun i hi => ?_) (by simp) (fun i hi => .inl ?_) (by simp)) ?_
      · simp [Ghost.lock, Ghost.push, Ghost.setRefs, Ghost.idle]
      · simp [Ghost.lock, Ghost.push, Ghost.setRefs, Ghost.idle, Ne.symm hi]
      · obtain rfl := List.mem_singleton.mp hi
        exact List.mem_cons_self
      refine Safe.seq (createDots_ok (x := x) hne hR hip) ?_
      rintro - g₇ (⟨hk, rfl⟩ | ⟨rfl, rfl⟩)
      · exact create_tail hne hR hip (fun hdir => absurd hdir hk) (fun i => by simp [hk, List.count_cons])
          hdir hscan
      · refine create_tail hne hR hip (fun _ => rfl) (fun i => ?_) hdir hscan
        simp only [List.count_cons, List.count_nil, beq_iff_eq, true_and]
        omega

/-! ### Calls that open, make and look -/

theorem last_put (hR : Lawful strict careful R) :
    Ok strict careful R t (iunlockput i) ((Ghost.idle.push i).lock i x) fun _ g' => g' = .idle :=
  walk_unlockput hR Ghost.idle_walks nofun (l := [])

section Calls

variable (hR : Lawful strict careful R)
include hR

theorem openInode_ok (ok : Bool) :
    Ok strict careful R t (openInode i ok) ((Ghost.idle.push i).lock i x) fun _ g' => g' = .idle := by
  unfold openInode
  split
  · refine Safe.next (walk_unlock Ghost.idle_walks nofun) ?_
    refine Ok.run fun γ s hg hI _ a s' hrun => ?_
    cases hrun
    exact ⟨_, hI.opens hg (.refl [i]) nofun nofun rfl rfl nofun, rfl⟩
  · exact last_put hR

theorem sysOpen_ok (path : Path) (creates rdonly ok : Bool) :
    Ok strict careful R t (sysOpen path creates rdonly ok) .idle fun _ g' => g' = .idle := by
  unfold sysOpen
  split
  · refine Safe.seq (create_ok hR path) ?_
    rintro r g₁ (⟨rfl, rfl⟩ | ⟨ip, x, rfl, rfl⟩)
    · exact Safe.ret rfl
    · exact openInode_ok hR ok
  · refine Safe.seq (namei_ok hR Ghost.idle_walks path) ?_
    rintro found g₁ rfl
    cases found with
    | none => exact Safe.ret rfl
    | some ip =>
      refine Safe.seq (walk_lock hR Ghost.idle_walks) ?_
      rintro - g₂ ⟨x, rfl, -, -⟩
      refine Safe.seq (stat_ok List.mem_cons_self) ?_
      rintro y g₃ ⟨rfl, rfl⟩
      split
      · exact last_put hR
      · exact openInode_ok hR ok

theorem sysMake_ok (path : Path) :
    Ok strict careful R t (sysMake path k) .idle fun _ g' => g' = .idle := by
  refine Safe.seq (create_ok hR path) ?_
  rintro r g₁ (⟨rfl, rfl⟩ | ⟨ip, x, rfl, rfl⟩)
  · exact Safe.ret rfl
  · exact last_put hR

theorem sysExec_ok (path : Path) :
    Ok strict careful R t (sysExec path) .idle fun _ g' => g' = .idle := by
  refine Safe.seq (namei_ok hR Ghost.idle_walks path) ?_
  rintro found g₁ rfl
  cases found with
  | none => exact Safe.ret rfl
  | some ip =>
    refine Safe.seq (walk_lock hR Ghost.idle_walks) ?_
    rintro - g₂ ⟨x, rfl, -, -⟩
    exact last_put hR

theorem fileclose_ok : Ok strict careful R t (fileclose i) .idle fun _ g' => g' = .idle := by
  refine Safe.seq (P := fun isOpen g' => (isOpen = true ∧ g' = Ghost.idle.push i) ∨
    (isOpen = false ∧ g' = .idle)) ?_ ?_
  · refine Ok.run fun γ s hg hI _ a s' hrun => ?_
    simp only [State.run] at hrun
    split at hrun
    · rename_i hi
      cases hrun
      exact ⟨_, hI.close hg hi rfl rfl, .inl ⟨rfl, rfl⟩⟩
    · cases hrun
      exact ⟨.idle, hI.stay hg, .inr ⟨rfl, rfl⟩⟩
  · rintro isOpen g₁ (⟨rfl, rfl⟩ | ⟨rfl, rfl⟩)
    · exact iput_ok hR (r := []) rfl rfl (.refl _) (by rintro _ ⟨⟩) (by rintro _ ⟨⟩)
    · exact Safe.ret rfl

/-! ### `link` -/

/-- `link` has counted a link to `ip`, which is not a directory. -/
def Ghost.linking (ip : Inum) : Ghost := ⟨⟨[], none, [ip]⟩, [], [], [ip], none, some ip, .ready⟩

omit hR in
theorem Ghost.linking_walks : Walks (.linking ip) :=
  ⟨⟨rfl, rfl, rfl⟩, rfl, rfl, rfl, fun i hi => by cases hi; exact List.mem_cons_self⟩

theorem linkBad_ok : Ok strict careful R t (linkBad ip) (.linking ip) fun _ g' => g' = .idle := by
  refine Safe.seq (ilock_ok hR rfl List.mem_cons_self (fun _ _ _ _ d hd => by cases hd) nofun) ?_
  rintro - g₁ ⟨x, rfl, -⟩
  refine Safe.next (nlinkDecr_ok (x := x) [] rfl (.refl _) ?_ (fun i hi => ?_) nofun List.mem_cons_self) ?_
  · simp [Ghost.lock, Ghost.linking]
  · simp [Ghost.lock, Ghost.linking, Ne.symm hi]
  exact last_put hR

omit hR in
theorem Inv.names_file (h : Inv strict careful γ s)
    (hg : γ t = ((Ghost.linking ip).push dp).lock dp x) (hdir : x.type = some .dir)
    (hscan : scan name x.dirents = none)
    (hrule : strict → name.isPlain = true → Attached s.inode dp) :
    Inv strict careful
      (update γ t (.plain [dp, ip] [(dp, x.setDirent x.emptySlot ⟨name, ip⟩)] [dp]))
      (s.setInode dp ((s.inode dp).setDirent x.emptySlot ⟨name, ip⟩)) := by
  have hperm : (γ t).known.Perm ((dp, x) :: []) := by rw [hg]; exact .refl _
  have hx := h.inode_eq hperm
  have hkey := Inv.key_head hperm
  have hfresh : ¬ fresh γ dp := h.not_fresh_of_key hkey (by rw [hg]; nofun)
  obtain ⟨href, hdead, htype, -⟩ := (h.each t).file (i := ip) (by rw [hg]; rfl)
  have htypeip : (s.inode ip).type ≠ none := ((h.each t).refs href).resolve_left hdead
  have hipfresh : ¬ fresh γ ip := h.not_fresh_of_ref href hdead (by rw [hg]; nofun)
  have hdirdp : (s.inode dp).type = some .dir := by rw [hx]; exact hdir
  have hshape := h.tree.shape hdirdp hfresh
  rw [hx] at hshape
  have hname : name.isPlain = true :=
    hshape.scan_plain (h.inum_ne_zero (h.key_cases hkey).2.1) hscan
  have hlink : Linkable s.inode s.born dp ip :=
    ⟨htypeip, fun heq => htype (by rw [heq]; exact hdirdp), fun hdir => absurd hdir htype⟩
  have hsame : fresh (update γ t
      (.plain [dp, ip] [(dp, x.setDirent x.emptySlot ⟨name, ip⟩)] [dp])) = fresh γ :=
    fresh_update (by rw [hg]; rfl)
  refine h.enters (t := t) (by rw [hg]; rfl) hperm [] none none hdir hfresh hname hlink
    (fun hstrict => hrule hstrict hname) (.inl (by rw [hg]; rfl)) nofun nofun (fun i => ?_)
    (by rw [hg]; rfl) (fun {i} hi => ?_) (fun {i} hi => ?_)
  · rw [hg]
    simp [htype, Ghost.lock, Ghost.push, Ghost.setRefs, Ghost.linking, List.count_cons]
  · rw [hsame] at hi
    exact ⟨hi, fun heq => hipfresh (heq ▸ hi)⟩
  · rw [hsame]
    exact .inl hi

theorem sysLink_ok (old new : Path) :
    Ok strict careful R t (sysLink old new) .idle fun _ g' => g' = .idle := by
  refine Safe.seq (namei_ok hR Ghost.idle_walks old) ?_
  rintro found g₁ rfl
  cases found with
  | none => exact Safe.ret rfl
  | some ip =>
    refine Safe.seq (walk_lock hR Ghost.idle_walks) ?_
    rintro - g₂ ⟨x, rfl, -, -⟩
    refine Safe.seq (stat_ok List.mem_cons_self) ?_
    rintro y g₃ ⟨rfl, rfl⟩
    split
    · exact last_put hR
    · rename_i hdir
      refine Safe.next (recount_ok (u := ()) (n := y.nlink + 1) [ip] (some ip) (fun _ => trivial)
        (fun s hs => by simp only [State.run, hs]) rfl (.refl _) (fun _ _ _ _ => ?_) (fun i hi => ?_)
        (fun i hi => ?_) (fun i hi => .inl hi) (by simp)) ?_
      · simp [Ghost.lock, Ghost.push, Ghost.setRefs, Ghost.idle]
      · simp [Ghost.lock, Ghost.push, Ghost.setRefs, Ghost.idle, Ne.symm hi]
      · cases hi
        exact ⟨List.mem_cons_self, List.mem_cons_self, y, List.mem_cons_self, hdir⟩
      have hloaded : ∀ j ∈ ([] : List Inum), j ∈ [ip] ∧ j ≠ ip := by simp
      refine Safe.next (iunlock_ok rfl (.refl _) hloaded (by rintro _ ⟨⟩) fun _ => rfl) ?_
      refine Safe.seq (nameiparent_ok hR Ghost.linking_walks new) ?_
      rintro found g₆ rfl
      cases found with
      | none => exact linkBad_ok hR
      | some found =>
        obtain ⟨dp, name⟩ := found
        refine Safe.seq (walk_lock hR Ghost.linking_walks) ?_
        rintro - g₇ ⟨z, rfl, -, hcredit⟩
        refine Safe.seq (dirlink_ok hR (.plain [dp, ip] [(dp, z.setDirent z.emptySlot ⟨name, ip⟩)] [dp])
          (Ghost.linking_walks.toCalm.push dp).lock List.mem_cons_self (.inl rfl)
          ⟨by simp [Ghost.keys, Ghost.lock, Ghost.push, Ghost.setRefs, Ghost.linking, Ghost.refs],
            fun i hi => by cases hi; exact List.mem_cons_of_mem _ List.mem_cons_self⟩
          (fun γ s hg hI => ?_)
          fun hscan hdir γ s hg hI hrule => ?_) ?_
        · obtain ⟨href, hdead, -⟩ := (hI.each t).file (i := ip) (by rw [hg]; rfl)
          exact hI.inum_ne_zero (((hI.each t).refs href).resolve_left hdead)
        · refine hI.names_file hg hdir hscan fun hstrict hname => hR.attached hstrict hrule ?_ hname
          obtain ⟨href, hdead, -⟩ := (hI.each t).file (i := ip) (by rw [hg]; rfl)
          exact hI.inum_ne_zero (((hI.each t).refs href).resolve_left hdead)
        rintro linked g₈ hlinked
        cases hlinked with
        | done =>
          have hloaded : ∀ j ∈ ([] : List Inum), j ∈ [dp] ∧ j ≠ dp := by simp
          refine Safe.next (iunlockput_ok (r := [ip]) hR rfl rfl (.refl _) hloaded (.refl _) (by simp)
            (by rintro _ ⟨⟩) (by rintro ⟨⟩)) ?_
          exact iput_ok hR (r := []) rfl rfl (.refl _) (by rintro _ ⟨⟩) (by rintro _ ⟨⟩)
        | there =>
          refine Safe.next (walk_unlockput hR Ghost.linking_walks hcredit (l := [])) ?_
          exact linkBad_ok hR

/-! ### `unlink` -/

omit hR in
/-- `unlink` has `dp` and `ip` locked, and links to count down. -/
def Ghost.unlinking (dp ip : Inum) (known : List (Inum × Dinode)) (credits : List Inum) : Ghost :=
  ⟨⟨[], none, [ip, dp]⟩, known, [ip, dp], credits, none, none, .ready⟩

theorem unlinkEnd_ok (hne : ip ≠ dp) :
    Ok strict careful R t (do
        iunlockput dp
        act (.nlinkDecr ip)
        iunlockput ip)
      (.unlinking dp ip [(dp, x), (ip, y)] [ip]) fun _ g' => g' = .idle := by
  have hloaded : ∀ j ∈ [ip], j ∈ [ip, dp] ∧ j ≠ dp := by simp [hne]
  refine Safe.next (iunlockput_ok (r := [ip]) hR rfl rfl (.refl _) hloaded
    (List.Perm.swap ..) (by simp) nofun ?_) ?_
  · simp [Ghost.unlinking, Ne.symm hne]
  refine Safe.next (nlinkDecr_ok (x := y) [] rfl (.refl _) ?_ (fun i hi => ?_) nofun List.mem_cons_self) ?_
  · simp [Ghost.unlinking, Ghost.setRefs]
  · simp [Ghost.unlinking, Ghost.setRefs, Ne.symm hi]
  exact last_put hR

theorem unlinkInode_ok {off : Nat} (hne : ip ≠ dp) (hdir : x.type = some .dir)
    (hscan : scan name x.dirents = some (off, ip)) (hname : name.isPlain = true) :
    Ok strict careful R t (unlinkInode dp ip off) (.unlinking dp ip [(ip, y), (dp, x)] [])
      fun _ g' => g' = .idle := by
  obtain ⟨-, hget⟩ := scan_some hscan
  refine Safe.seq (stat_ok List.mem_cons_self) ?_
  rintro z g₁ ⟨rfl, rfl⟩
  split
  · exact Ok.panic (by simp)
  split
  · have hloaded : ∀ j ∈ [dp], j ∈ [ip, dp] ∧ j ≠ ip := by simp [Ne.symm hne]
    refine Safe.next (iunlockput_ok (r := [dp]) hR rfl rfl (.refl _) hloaded (.refl _)
      (by simp) (by rintro _ ⟨⟩) (by rintro ⟨⟩)) ?_
    exact last_put hR
  · rename_i hempty
    have hknown : ∀ {γ : Slot → Ghost} {s : State}, γ t = .unlinking dp ip [(ip, z), (dp, x)] [] →
        Inv strict careful γ s → s.inode ip = z ∧ s.inode dp = x := by
      intro γ s hg hI
      exact ⟨((hI.each t).known (by rw [hg]; exact List.mem_cons_self)).2.1,
        ((hI.each t).known (by rw [hg]; exact List.mem_cons_of_mem _ List.mem_cons_self)).2.1⟩
    have hisEmpty : z.type = some .dir → z.isEmpty = true := by
      intro hz
      by_contra hno
      exact hempty ⟨hz, Bool.eq_false_iff.mpr hno⟩
    refine Safe.seq (P := fun _ g' => g' = .unlinking dp ip
      [(dp, x.setDirent off ⟨.plain 0, 0⟩), (ip, z)] (if z.type = some .dir then [dp, ip] else [ip])) ?_ ?_
    · refine Ok.act (fun γ s hg hI _ e' he' hdire => ?_) fun γ s hg hI _ a s' hrun => ?_
      · obtain ⟨hz, hx⟩ := hknown hg hI
        rw [hx, hget] at he'
        cases he'
        rw [hz] at hdire ⊢
        exact hisEmpty hdire
      · simp only [State.run] at hrun
        cases hrun
        obtain ⟨hz, hx⟩ := hknown hg hI
        have hperm : (γ t).known.Perm ((dp, x) :: [(ip, z)]) := by
          rw [hg]
          exact List.Perm.swap ..
        have hfresh : ∀ {i}, i ∈ (γ t).keys → ¬ fresh γ i := fun hi =>
          hI.not_fresh_of_key hi (by rw [hg]; rintro _ ⟨⟩)
        have hkeys : ip ∈ (γ t).keys ∧ dp ∈ (γ t).keys := by
          rw [hg]
          simp [Ghost.keys, Ghost.unlinking]
        have hinv := hI.clears (t := t) (c := ip) (by rw [hg]; rfl) hperm
          (if z.type = some .dir then [dp, ip] else [ip]) hdir (hfresh hkeys.2) hget hname
          (by rw [hz]; exact hisEmpty) (by rw [hg]; rintro _ ⟨⟩) (fun i hi => .inl ?_) (fun i => ?_) (hfresh hkeys.1)
        · rw [hg] at hinv
          exact ⟨_, hinv, rfl⟩
        · split at hi
          · rcases List.mem_cons.mp hi with rfl | hi
            · exact hkeys.2
            · rw [List.mem_singleton.mp hi]
              exact hkeys.1
          · rw [List.mem_singleton.mp hi]
            exact hkeys.1
        · rw [hg, hz]
          by_cases hzd : z.type = some .dir
          · simp [hzd, Ghost.unlinking, List.count_cons]
          · simp [hzd, Ghost.unlinking, List.count_cons]
    rintro - g₂ rfl
    -- the link of `..` is counted down first
    split
    · refine Safe.next (nlinkDecr_ok [ip] rfl (.refl _) ?_ (fun i hi => ?_) ?_ ?_) ?_
      · simp [Ghost.unlinking, hne]
      · simp [Ghost.unlinking, List.count_cons, Ne.symm hi]
      · simp [Ghost.unlinking, Ghost.keys]
      · simp [Ghost.unlinking]
      · exact unlinkEnd_ok hR hne
    · exact unlinkEnd_ok hR hne

theorem sysUnlink_ok (path : Path) :
    Ok strict careful R t (sysUnlink path) .idle fun _ g' => g' = .idle := by
  refine Safe.seq (nameiparent_ok hR Ghost.idle_walks path) ?_
  rintro found g₁ rfl
  cases found with
  | none => exact Safe.ret rfl
  | some found =>
    obtain ⟨dp, name⟩ := found
    refine Safe.seq (walk_lock hR Ghost.idle_walks) ?_
    rintro - g₂ ⟨x, rfl, -, -⟩
    split
    · exact last_put hR
    · rename_i hdots
      have hname : name.isPlain = true := by
        cases name with
        | dot => exact absurd (.inl rfl) hdots
        | dotdot => exact absurd (.inr rfl) hdots
        | plain n => rfl
      refine Safe.seq (dirlookup_ok (Ghost.idle_walks.toCalm.push dp).lock List.mem_cons_self (.inl (by rintro _ ⟨⟩))) ?_
      rintro found g₃ ⟨hdir, hfound⟩
      cases hfound with
      | absent => exact last_put hR
      | entry hscan hne =>
        rename_i ip off
        have hne := hne hname
        refine Safe.seq (ilock_ok hR rfl List.mem_cons_self (fun γ s hg hI d hd => ?_) (by rintro _ _ ⟨⟩)) ?_
        · obtain rfl := List.mem_singleton.mp hd
          have hx : s.inode d = x := ((hI.each t).known (by rw [hg]; exact List.mem_cons_self)).2.1
          refine ⟨by rw [hx]; exact hdir, fun hip => ?_⟩
          have hget : (s.inode d).dirents[off]? = some ⟨name, ip⟩ := by
            rw [hx]
            exact (scan_some hscan).2
          exact (hI.tree.child_of_get hget hname hip).2.1
        rintro - g₄ ⟨y, rfl, -⟩
        exact unlinkInode_ok hR hne hdir hscan hname

/-! ### `cwd` and threads -/

omit hR in
theorem setCwd_ok {v : Option Inum} :
    Ok strict careful R t (act (.setCwd v)) ⟨⟨[(p, some c)], some p, v.toList⟩, [], [], [], none, none, .ready⟩
      fun _ g' => g' = .idle := by
  refine Ok.run fun γ s hg hI _ a s' hrun => ?_
  obtain ⟨p', howner, heq⟩ := Option.map_eq_some_iff.mp hrun
  cases heq
  have hwindow : p ∈ (γ t).hand.window := by
    rw [hg]
    exact List.mem_cons_self
  have hp := ((hI.each t).window hwindow).2
  rw [howner] at hp
  cases hp
  exact ⟨_, hI.set_cwd (r := []) hg rfl howner (by rw [List.append_nil]; exact .refl _) nofun nofun rfl rfl,
    rfl⟩

theorem sysChdir_ok (path : Path) :
    Ok strict careful R t (sysChdir path) .idle fun _ g' => g' = .idle := by
  refine Safe.seq (namei_ok hR Ghost.idle_walks path) ?_
  rintro found g₁ rfl
  cases found with
  | none => exact Safe.ret rfl
  | some ip =>
    refine Safe.seq (walk_lock hR Ghost.idle_walks) ?_
    rintro - g₂ ⟨x, rfl, -, -⟩
    refine Safe.seq (stat_ok List.mem_cons_self) ?_
    rintro y g₃ ⟨rfl, rfl⟩
    split
    · refine Safe.next (walk_unlock Ghost.idle_walks (by rintro ⟨⟩)) ?_
      refine Safe.seq (takeCwd_ok hR (Ghost.idle_walks.toCalm.push ip)) ?_
      rintro a g₅ (rfl | ⟨c, p, rfl, rfl⟩)
      · exact Ok.panic (by simp)
      · refine Safe.next (iput_ok hR (r := [ip]) rfl rfl (.refl _) (by rintro _ ⟨⟩) (by rintro _ ⟨⟩)) ?_
        exact setCwd_ok (v := some ip)
    · exact last_put hR

theorem fork_ok (np : Share) (q : Slot) :
    Ok strict careful R t (fork np q) .idle fun _ g' => g' = .idle := by
  refine Safe.seq (readCwd_ok hR Ghost.idle_walks.toCalm) ?_
  rintro a g₁ (rfl | ⟨c, p, rfl, rfl⟩)
  · exact Ok.panic (by simp)
  · refine Safe.next (idup_ok Ghost.idle_walks.toCalm) ?_
    refine Ok.run fun γ s hg hI _ a s' hrun => ?_
    simp only [State.run] at hrun
    split at hrun
    · rename_i hfree
      cases hrun
      exact ⟨_, hI.forks hg hfree.1 hfree.2.1 hfree.2.2 (.refl [c]) (by rintro _ ⟨⟩) (by rintro _ ⟨⟩) rfl rfl rfl, rfl⟩
    · cases hrun

omit hR in
theorem leave_ok : Ok strict careful R t (act .leave) .idle fun _ g' => g' = .idle := by
  refine Ok.run fun γ s hg hI _ a s' hrun => ?_
  cases hrun
  exact ⟨.idle, (hI.leaves (by rw [hg]; rfl)).stay hg, rfl⟩

omit hR in
theorem spawn_ok (q : Slot) : Ok strict careful R t (act (.spawn q)) .idle fun _ g' => g' = .idle := by
  refine Ok.run fun γ s hg hI _ a s' hrun => ?_
  simp only [State.run] at hrun
  split at hrun
  · rename_i hq
    cases hrun
    exact ⟨.idle, (hI.spawns hq (s.owner t)).stay hg, rfl⟩
  · cases hrun

theorem exit_ok : Ok strict careful R t exit .idle fun _ g' => g' = .idle := by
  refine Safe.seq (takeCwd_ok hR Ghost.idle_walks.toCalm) ?_
  rintro a g₁ (rfl | ⟨c, p, rfl, rfl⟩)
  · exact Ok.panic nofun
  · refine Safe.next (iput_ok hR (r := []) rfl rfl (.refl _) nofun nofun) ?_
    refine Safe.next (setCwd_ok (v := none)) ?_
    exact leave_ok

theorem code_ok {call : Call} (hcall : R.call s t call) :
    Ok strict careful R t (system.code call) .idle fun _ g' => g' = .idle := by
  cases call with
  | opens path creates rdonly ok => exact sysOpen_ok hR path creates rdonly ok
  | mkdir path | mknod path => exact sysMake_ok hR path
  | link old new => exact sysLink_ok hR old new
  | unlink path => exact sysUnlink_ok hR path
  | chdir path => exact sysChdir_ok hR path
  | close ip => exact fileclose_ok hR
  | exec path => exact sysExec_ok hR path
  | fork np q => exact fork_ok hR np q
  | exit => exact exit_ok hR
  | threadCreate q => exact spawn_ok q
  | threadExit => exact leave_ok

end Calls

end ThreadKernel.Fs
