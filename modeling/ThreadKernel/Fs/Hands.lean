import ThreadKernel.Fs.Invariant

/-! Operations that leave the inodes as they are.

References are taken and dropped, locks are asked for, got and given up, and `cwd` is read
and written. What is known of the inodes and their links stays; what has to be seen to is
that references lead to inodes that are allocated, and that nobody gets hold of an inode
that `iput` is about to free. -/
namespace ThreadKernel.Fs

open Refcount Interleave Function

variable {strict careful : Prop} {γ : Slot → Ghost} {s s' : State} {t q : Slot} {g g' : Ghost}
  {i j d c : Inum} {p : Share} {x : Dinode} {k : Kind} {e : Dirent} {r : List Inum}
  {reading : Slot → Bool} {owner : Slot → Option Share} {h' : Hand Inum Share}

theorem fresh_update (h : g'.made = (γ t).made) : fresh (update γ t g') = fresh γ := by
  funext i
  refine propext (exists_congr fun q => ?_)
  rw [Update.keeps Ghost.made h q]

theorem owed_update (h : g'.credits = (γ t).credits) : owed (update γ t g') = owed γ := by
  funext i
  refine Finset.sum_congr rfl fun q _ => ?_
  rw [Update.keeps Ghost.credits h q]

theorem book_update (hopened : s'.opened = s.opened) :
    book (update γ t g') s' =
      {(book γ s).setHand (some t) g'.hand with ref := s'.ref, entry := s'.cwd} := by
  have hhand : (book (update γ t g') s').hand = ((book γ s).setHand (some t) g'.hand).hand := by
    funext q
    cases q with
    | none => simp [book, Book.setHand, hopened]
    | some q =>
      by_cases hq : q = t
      · subst hq
        simp [book, Book.setHand]
      · have hne : (some q : Option Slot) ≠ some t := fun h => hq (Option.some.inj h)
        simp [book, Book.setHand, update_of_ne hq, update_of_ne hne]
  show Book.mk _ _ (book (update γ t g') s').hand _ = _
  rw [hhand]
  rfl

theorem Inv.book_same (h : Inv strict careful γ s) (hhand : g'.hand = (γ t).hand)
    (hopened : s'.opened = s.opened) (href : s'.ref = s.ref) (hcwd : s'.cwd = s.cwd) :
    (Fs.book (update γ t g') s').Sound := by
  rw [book_update hopened, hhand, href, hcwd]
  have hsame := (Fs.book γ s).setHand_self (some t)
  exact hsame.symm ▸ h.book

/-- A thread has other references in hand, or has stored one. -/
theorem Alloc.store (h : Alloc γ s) (hinode : s'.inode = s.inode)
    (hopened : ∀ i ∈ s'.opened, i ∈ s.opened ∨ ((s.inode i).type ≠ none ∧ ¬ fresh γ i))
    (hcwd : ∀ p i, s'.cwd p = some i → (∀ q, (update γ t g' q).hand.gap ≠ some p) →
      (s.cwd p = some i ∧ ∀ q, (γ q).hand.gap ≠ some p) ∨ ((s.inode i).type ≠ none ∧ ¬ fresh γ i))
    (hmade : g'.made = (γ t).made) (hstage : ∀ i, g'.stage = .dying i → (γ t).stage = .dying i)
    (hrefs : ∀ i ∈ g'.refs, (i ∈ (γ t).refs ∧ ((γ t).dead = some i → g'.dead = some i)) ∨
      ∀ q k, q ≠ t → (γ q).made ≠ some (i, k)) : Alloc (update γ t g') s' := by
  have hmades := Update.keeps Ghost.made hmade
  refine ⟨?_, ?_, ?_, ?_, ?_, ?_, ?_⟩
  · intro i hi
    rw [hinode]
    rcases hopened i hi with hi | ⟨htype, -⟩
    · exact h.opened hi
    · exact htype
  · intro p i hi hp
    rw [hinode]
    rcases hcwd p i hi hp with ⟨hi, hp⟩ | ⟨htype, -⟩
    · exact h.cwd hi hp
    · exact htype
  · intro t' q i k hm hq hi
    rw [hmades] at hm
    by_cases hqt : q = t
    · subst hqt
      simp only [update_self] at hi ⊢
      rcases hrefs i hi with ⟨hi, hdead⟩ | hother
      · exact hdead (h.alone hm hq hi)
      · exact absurd hm (hother t' k (Ne.symm hq))
    · rw [update_of_ne hqt] at hi ⊢
      exact h.alone hm hq hi
  · intro t' q i k k' hm hm'
    rw [hmades] at hm hm'
    exact h.once hm hm'
  · intro t' i k hm hi
    rw [hmades] at hm
    rcases hopened i hi with hi | ⟨-, hfresh⟩
    · exact h.shut hm hi
    · exact hfresh ⟨t', k, hm⟩
  · intro t' i k p hm hi
    rw [hmades] at hm
    by_contra hp
    rcases hcwd p i hi (not_exists.mp hp) with ⟨hi, hp⟩ | ⟨-, hfresh⟩
    · obtain ⟨q, hq⟩ := h.away hm hi
      exact hp q hq
    · exact hfresh ⟨t', k, hm⟩
  · intro q i hq
    rw [hinode, fresh_update hmade]
    by_cases hqt : q = t
    · subst hqt
      simp only [update_self] at hq
      exact h.dying (hstage i hq)
    · rw [update_of_ne hqt] at hq
      exact h.dying hq

theorem gaps_update (hgap : ∀ p, (γ t).hand.gap = some p → g'.hand.gap = some p)
    (hp : ∀ q, (update γ t g' q).hand.gap ≠ some p) (q : Slot) :
    (γ q).hand.gap ≠ some p := by
  intro hq
  by_cases hqt : q = t
  · subst hqt
    exact hp q (by simpa using hgap p hq)
  · refine hp q ?_
    rw [update_of_ne hqt]
    exact hq

theorem Alloc.keep (h : Alloc γ s) (hinode : s'.inode = s.inode) (hopened : s'.opened = s.opened)
    (hcwd : s'.cwd = s.cwd) (hmade : g'.made = (γ t).made)
    (hgap : ∀ p, (γ t).hand.gap = some p → g'.hand.gap = some p)
    (hstage : ∀ i, g'.stage = .dying i → (γ t).stage = .dying i)
    (hrefs : ∀ i ∈ g'.refs, (i ∈ (γ t).refs ∧ ((γ t).dead = some i → g'.dead = some i)) ∨
      ∀ q k, q ≠ t → (γ q).made ≠ some (i, k)) : Alloc (update γ t g') s' :=
  h.store hinode (fun i hi => .inl (by rw [← hopened]; exact hi))
    (fun p i hi hp => .inl ⟨by rw [← hcwd]; exact hi, gaps_update hgap hp⟩) hmade hstage hrefs

/-- A step that leaves the inodes, the links and what is being made alone. -/
theorem Inv.keep (h : Inv strict careful γ s) (hinode : s'.inode = s.inode) (hborn : s'.born = s.born)
    (hclock : s'.clock = s.clock) (hpanic : s'.panic = s.panic) (hmade : g'.made = (γ t).made)
    (hcredits : g'.credits = (γ t).credits) (hturn : Turn γ t s s') (hlocal : Local s' t g')
    (hbook : (Fs.book (update γ t g') s').Sound)
    (halloc : Alloc (update γ t g') s') (hkept : strict → Kept s' (fresh γ))
    (hquiet : g'.stage.asked = none ∨ (careful → Quiet s')) :
    Inv strict careful (update γ t g') s' := by
  refine h.move hturn hlocal hbook halloc ?_ ?_ ?_ hpanic hquiet
  · rw [hinode, hborn, hclock, fresh_update hmade]
    exact h.tree
  · rw [hinode, owed_update hcredits, fresh_update hmade]
    exact h.links
  · rw [fresh_update hmade]
    exact hkept

/-- A step that takes nothing away from anybody. -/
structure Silent (γ : Slot → Ghost) (t : Slot) (s s' : State) : Prop where
  inode : s'.inode = s.inode := by rfl
  born : s'.born = s.born := by rfl
  clock : s'.clock = s.clock := by rfl
  panic : s'.panic = s.panic := by rfl
  lock : s'.lock = s.lock := by rfl
  leaving : s'.leaving = s.leaving := by rfl
  doomed : ∀ {i q}, q ≠ t → (γ q).stage = .doomed i → s'.ref i = s.ref i := by intros; rfl
  ref : ∀ i, s.ref i ≤ s'.ref i := by intros; exact le_rfl
  valid : ∀ {i}, 0 < s.ref i → s.valid i = true → s'.valid i = true := by intros; assumption
  reading : ∀ {q}, q ≠ t → s'.reading q = s.reading q := by intros; rfl
  owner : ∀ {q}, q ≠ t → s.owner q ≠ none → s'.owner q = s.owner q := by intros; rfl
  wants : ∀ {q}, q ≠ t → s'.wants q = s.wants q := by intros; rfl

/-- A step that changes no more than this, and nothing of it for the others. -/
theorem Silent.of {opened : List Inum} {cwd : Share → Option Inum}
    {wants : Slot → Option (Inum × Site)} {valid : Inum → Bool}
    (hreading : ∀ {q}, q ≠ t → reading q = s.reading q)
    (howner : ∀ {q}, q ≠ t → s.owner q ≠ none → owner q = s.owner q)
    (hwants : ∀ {q}, q ≠ t → wants q = s.wants q)
    (hvalid : ∀ {i}, 0 < s.ref i → s.valid i = true → valid i = true) :
    Silent γ t s {s with
      opened := opened, cwd := cwd, reading := reading, owner := owner, wants := wants,
      valid := valid} where
  reading := hreading
  owner := howner
  wants := hwants
  valid := hvalid

namespace Silent

theorem leavers (h : Silent γ t s s') (i : Inum) : leavers s' i = leavers s i := by
  rw [Fs.leavers, Fs.leavers, h.leaving]

theorem turn (h : Silent γ t s s') (hpos : ∀ {i q}, i ∈ (γ q).refs → 0 < s.ref i) : Turn γ t s s' where
  lock := fun _ => by rw [h.lock]
  inode := fun _ _ => by rw [h.inode, h.born]; exact ⟨rfl, rfl⟩
  type := fun _ _ _ => by rw [h.inode, h.born]; exact ⟨rfl, rfl⟩
  parent := fun hd => .inl (by rw [h.inode] at hd; exact hd)
  ref := h.doomed
  reading := h.reading
  owner := h.owner
  wants := h.wants
  leaving := fun _ => by rw [h.leaving]
  spare := fun {i q} _ _ hlt => by
    have := h.ref i
    have := h.leavers i
    omega
  valid := fun _ _ href hv => h.valid (hpos href) hv

theorem kept {fresh : Inum → Prop} (h : Silent γ t s s') (hk : Kept s fresh) : Kept s' fresh := by
  refine ⟨fun htype hnlink hfresh => ?_, fun htype hnlink hfresh => ?_⟩
  · rw [h.inode] at htype hnlink
    rw [h.leavers]
    exact lt_of_lt_of_le (hk.kept htype hnlink hfresh) (h.ref _)
  · rw [h.inode] at htype hnlink
    exact h.valid (Nat.zero_lt_of_lt (hk.kept htype hnlink hfresh)) (hk.valid htype hnlink hfresh)

end Silent

theorem Silent.quiet (h : Silent γ t s s') (hwants : s'.wants t = s.wants t) (hquiet : Quiet s) :
    Quiet s' := by
  have hsame : s'.wants = s.wants := by
    funext q
    by_cases hq : q = t
    · rw [hq, hwants]
    · exact h.wants hq
  intro u q i j site
  unfold Upward
  rw [hsame, h.lock, h.inode]
  exact hquiet

theorem Inv.silent (h : Inv strict careful γ s) (hs : Silent γ t s s') (hwants : s'.wants t = s.wants t)
    (hmade : g'.made = (γ t).made) (hcredits : g'.credits = (γ t).credits)
    (hlocal : Local s' t g') (hbook : (Fs.book (update γ t g') s').Sound)
    (halloc : Alloc (update γ t g') s') :
    Inv strict careful (update γ t g') s' :=
  h.keep hs.inode hs.born hs.clock hs.panic hmade hcredits (hs.turn h.pos_of_ref) hlocal hbook halloc
    (fun hstrict => hs.kept (h.kept hstrict)) (.inr fun hcareful => hs.quiet hwants (h.quiet hcareful))

theorem Local.hands (hl : Local s t g) (hs : Silent γ t s s')
    (hwants : s'.wants t = s.wants t) (hready : g.stage = .ready) (hpos : ∀ {i}, i ∈ g.refs → 0 < s.ref i)
    (hkeys : ∀ i ∈ g.keys, i ∈ h'.refs) (hfile : ∀ i ∈ g.file, i ∈ h'.refs)
    (hrefs : ∀ i ∈ h'.refs, i ∈ g.refs ∨ (s.inode i).type ≠ none)
    (hwindow : ∀ p ∈ h'.window, s'.reading t = true ∧ s'.owner t = some p) :
    Local s' t {g with hand := h'} where
  known := fun hx => by
    obtain ⟨hlock, hinode, htype, -, hdead⟩ := hl.known hx
    rw [hs.lock, hs.inode]
    exact ⟨hlock, hinode, htype, hkeys _ (Ghost.mem_keys.mpr ⟨_, hx⟩), hdead⟩
  keys := hl.keys
  locked := fun hi => hl.locked (by rw [← hs.lock]; exact hi)
  refs := fun hi => by
    rw [hs.inode]
    rcases hrefs _ hi with hi | htype
    · exact hl.refs hi
    · exact .inr htype
  window := fun hp => hwindow _ hp
  loaded := fun hi => by
    obtain ⟨hkey, hvalid⟩ := hl.loaded hi
    obtain ⟨x, hx⟩ := Ghost.mem_keys.mp hkey
    exact ⟨hkey, hs.valid (hpos (hl.known hx).2.2.2.1) hvalid⟩
  made := fun hmade => by
    rw [hs.inode, hs.born]
    exact hl.made hmade
  file := fun hi => by
    obtain ⟨-, hdead, htype, hcredit⟩ := hl.file hi
    rw [hs.inode]
    exact ⟨hfile _ hi, hdead, htype, hcredit⟩
  credit := hl.credit
  doomed := fun hi => by rw [hready] at hi; cases hi
  spare := fun hi => by rw [hready] at hi; cases hi
  dying := fun hi => by rw [hready] at hi; cases hi
  wants := hwants.trans hl.wants
  asks := fun hi => by rw [hready] at hi; cases hi
  leaving := by rw [hs.leaving]; exact hl.leaving
  left := fun hi => by rw [hready] at hi; cases hi

theorem not_made (hi : ¬ fresh γ i) (q : Slot) (k : Kind) : (γ q).made ≠ some (i, k) :=
  fun hm => hi ⟨q, k, hm⟩

/-- The reference of a `cwd` that is not about to change. -/
theorem Inv.cwd_not_fresh (h : Inv strict careful γ s) (hcwd : s.cwd p = some c)
    (hgaps : ∀ q, (γ q).hand.gap ≠ some p) : ¬ fresh γ c := by
  intro ⟨q, k, hmade⟩
  obtain ⟨r, hr⟩ := h.alloc.away hmade hcwd
  exact hgaps r hr

namespace Inv

variable (h : Inv strict careful γ s) {seen : List (Share × Option Inum)}
include h

theorem not_fresh_of_ref (hi : i ∈ (γ t).refs)
    (hdead : (γ t).dead ≠ some i) (hmade : ∀ k, (γ t).made ≠ some (i, k)) : ¬ fresh γ i := by
  intro ⟨q, k, hq⟩
  by_cases hne : t = q
  · subst hne
    exact hmade k hq
  · exact hdead (h.alloc.alone hq hne hi)

theorem whole_of_ref (hi : i ∈ (γ t).refs) (hready : (γ t).stage = .ready)
    (hmade : ∀ k, (γ t).made ≠ some (i, k)) : (s.inode i).type ≠ none ∧ ¬ fresh γ i := by
  have hdead : (γ t).dead ≠ some i := by
    rw [Ghost.dead_eq, hready]
    nofun
  exact ⟨((h.each t).refs hi).resolve_left hdead, h.not_fresh_of_ref hi hdead hmade⟩

section Rehand

variable (hs : Silent γ t s s') (hwants : s'.wants t = s.wants t)
  (hready : (γ t).stage = .ready)
include hs hwants hready

/-- A thread that is in no lock function has other references in hand, and may have stored one. -/
theorem rehand (hkeys : ∀ i ∈ (γ t).keys, i ∈ h'.refs) (hfile : ∀ i ∈ (γ t).file, i ∈ h'.refs)
    (hrefs : ∀ i ∈ h'.refs, i ∈ (γ t).refs ∨
      ((s.inode i).type ≠ none ∧ ∀ q k, q ≠ t → (γ q).made ≠ some (i, k)))
    (hwindow : ∀ p ∈ h'.window, s'.reading t = true ∧ s'.owner t = some p)
    (hopened : ∀ i ∈ s'.opened, i ∈ s.opened ∨ ((s.inode i).type ≠ none ∧ ¬ fresh γ i))
    (hcwd : ∀ p i, s'.cwd p = some i → (∀ q, (update γ t {γ t with hand := h'} q).hand.gap ≠ some p) →
      (s.cwd p = some i ∧ ∀ q, (γ q).hand.gap ≠ some p) ∨ ((s.inode i).type ≠ none ∧ ¬ fresh γ i))
    (hbook : (Fs.book (update γ t {γ t with hand := h'}) s').Sound) :
    Inv strict careful (update γ t {γ t with hand := h'}) s' :=
  h.silent hs hwants rfl rfl
    ((h.each t).hands hs hwants hready h.pos_of_ref hkeys hfile
      (fun i hi => (hrefs i hi).imp_right And.left) hwindow)
    hbook
    (h.alloc.store hs.inode hopened hcwd rfl (fun _ hi => hi) fun i hi =>
      (hrefs i hi).imp (fun hi => ⟨hi, id⟩) And.right)

theorem rehand_cons {gap : Option Share}
    (hgap : (γ t).hand.gap = none) (htype : (s.inode j).type ≠ none)
    (hmade : ∀ q k, q ≠ t → (γ q).made ≠ some (j, k))
    (hwindow : ∀ y ∈ seen, s'.reading t = true ∧ s'.owner t = some y.1)
    (hopened : ∀ i ∈ s'.opened, i ∈ s.opened) (hcwd : s'.cwd = s.cwd)
    (hbook : (Fs.book (update γ t {γ t with hand := ⟨seen, gap, j :: (γ t).refs⟩}) s').Sound) :
    Inv strict careful (update γ t {γ t with hand := ⟨seen, gap, j :: (γ t).refs⟩}) s' := by
  refine h.rehand hs hwants hready (fun i hi => List.mem_cons_of_mem j (h.key_cases hi).2.2.1)
    (fun i hi => List.mem_cons_of_mem j ((h.each t).file hi).1) (fun i hi => ?_) (fun p hp => ?_)
    (fun i hi => .inl (hopened i hi)) (fun p i hi hp => .inl ⟨by rw [← hcwd]; exact hi, ?_⟩) hbook
  · rcases List.mem_cons.mp hi with rfl | hi
    · exact .inr ⟨htype, hmade⟩
    · exact .inl hi
  · obtain ⟨v, hv⟩ := Hand.mem_window.mp hp
    exact hwindow (p, v) hv
  · exact gaps_update (fun _ hp => by rw [hgap] at hp; cases hp) hp

end Rehand

/-- The thread relies on other findings, or another thread has come or gone. -/
theorem unread (hreading : ∀ {q}, q ≠ t → reading q = s.reading q)
    (howner : ∀ {q}, q ≠ t → s.owner q ≠ none → owner q = s.owner q)
    (hwindow : ∀ {p}, p ∈ (γ t).hand.window → reading t = true ∧ owner t = some p) :
    Inv strict careful γ {s with reading := reading, owner := owner} := by
  have hs : Silent γ t s {s with reading := reading, owner := owner} :=
    .of hreading howner (fun _ => rfl) fun _ hj => hj
  have hinv := h.silent hs rfl rfl rfl {h.each t with window := hwindow} ?_
    (h.alloc.keep rfl rfl rfl rfl (fun _ hp => hp) (fun _ hi => hi) fun i hi => .inl ⟨hi, id⟩)
  · rwa [update_eq_self] at hinv
  · rw [update_eq_self]
    exact h.book

/-! ### `cwd` -/

theorem free_cwd (hrule : ∀ q, q ≠ t → s.owner q = some p → s.reading q = false) :
    (Fs.book γ s).Free (some t) p := by
  intro q hq hwindow
  cases q with
  | none => cases hwindow
  | some q =>
    obtain ⟨hreading, howner⟩ := (h.each q).window hwindow
    rw [hrule q (fun heq => hq (by rw [heq])) howner] at hreading
    cases hreading

theorem no_gap (hfree : (Fs.book γ s).Free (some t) p)
    (hgap : (γ t).hand.gap ≠ some p) (q : Slot) : (γ q).hand.gap ≠ some p := by
  intro hq
  by_cases hqt : q = t
  · subst hqt
    exact hgap hq
  · exact hfree (some q) (fun heq => hqt (Option.some.inj heq)) (h.book.gap (t := some q) hq)

omit h in
theorem silent_reading (b : Bool) : Silent γ t s (s.setReading t b) :=
  .of (fun hq => update_of_ne hq _ _) (fun _ _ => rfl) (fun _ => rfl) fun _ hi => hi

section
variable (hg : γ t = g) (howner : s.owner t = some p)
  (hrule : ∀ q, q ≠ t → s.owner q = some p → s.reading q = false) (hcwd : s.cwd p = some c)
  (hready : g.stage = .ready) (hgap : g.hand.gap = none)
include hg howner hrule hcwd hready hgap

theorem look : Inv strict careful
    (update γ t {g with hand := {g.hand with seen := [(p, some c)]}}) (s.setReading t true) := by
  subst hg
  refine h.rehand (silent_reading true) rfl hready (fun i hi => (h.key_cases hi).2.2.1)
    (fun i hi => ((h.each t).file hi).1) (fun i hi => .inl hi) (fun p' hp => ?_) (fun i hi => .inl hi)
    (fun p i hi hp => .inl ⟨hi, gaps_update (fun _ hq => by exact hq) hp⟩) ?_
  · rw [List.mem_singleton.mp hp]
    exact ⟨update_self .., howner⟩
  · rw [book_update rfl]
    refine h.book.look (Finset.mem_univ p) (h.free_cwd hrule) (fun y hy => .inl ?_) hgap hgap (.refl _)
    rw [List.mem_singleton.mp hy, ← hcwd]
    rfl

theorem take : Inv strict careful
    (update γ t {g with hand := ⟨[(p, some c)], some p, c :: g.refs⟩}) (s.setReading t true) := by
  subst hg
  have hfree := h.free_cwd hrule
  have hgaps := h.no_gap hfree (by rw [hgap]; nofun)
  refine h.rehand_cons (silent_reading true) rfl hready hgap (h.alloc.cwd hcwd hgaps)
    (fun q k _ => not_made (h.cwd_not_fresh hcwd hgaps) q k) (fun y hy => ?_) (fun _ hi => hi) rfl ?_
  · rw [List.mem_singleton.mp hy]
    exact ⟨update_self .., howner⟩
  · rw [book_update rfl]
    exact h.book.adopt (Finset.mem_univ p) hfree hcwd (fun y hy => .inl (List.mem_singleton.mp hy))
      (by simp [Hand.window]) hgap rfl (.refl _)

end

/-- A thread gets a reference to `j`, which nobody else makes and nobody is about to free. -/
theorem gain (hs : Silent γ t s s') (hopened : s'.opened = s.opened)
    (hcwd : s'.cwd = s.cwd) (href : s'.ref = update s.ref j (s.ref j + 1))
    (hwants : s'.wants t = s.wants t) (hready : (γ t).stage = .ready) (hgap : (γ t).hand.gap = none)
    (htype : (s.inode j).type ≠ none) (hmade : ∀ q k, q ≠ t → (γ q).made ≠ some (j, k))
    (hseen : ∀ y ∈ seen, y ∈ (γ t).hand.seen)
    (hwindow : ∀ y ∈ seen, s'.reading t = true ∧ s'.owner t = some y.1) :
    Inv strict careful
      (update γ t {γ t with hand := ⟨seen, none, j :: (γ t).refs⟩}) s' := by
  refine h.rehand_cons hs hwants hready hgap htype hmade hwindow (fun i hi => hopened ▸ hi) hcwd ?_
  rw [book_update hopened, href, hcwd]
  exact h.book.inc hseen hgap rfl (.refl _)

/-- What a thread has just read in `cwd` is counted. -/
theorem counted_of_seen (hseen : (p, some c) ∈ (γ t).hand.seen)
    (hgap : (γ t).hand.gap = none) : p ∈ (Fs.book γ s).counted c := by
  have hwindow : p ∈ (γ t).hand.window := Hand.mem_window.mpr ⟨_, hseen⟩
  refine Book.mem_counted.mpr ⟨Finset.mem_univ p, h.book.seen (t := some t) hseen, fun q hq => ?_⟩
  cases q with
  | none => cases hq
  | some q =>
    exact h.no_gap (h.book.free (t := some t) hwindow) (by rw [hgap]; nofun) q hq

theorem dup (hg : γ t = g) (hseen : (p, some c) ∈ g.hand.seen)
    (hready : g.stage = .ready) (hgap : g.hand.gap = none) :
    Inv strict careful (update γ t {g with hand := ⟨[], none, c :: g.refs⟩})
      ((s.setRef c (s.ref c + 1)).setReading t false) := by
  subst hg
  have hcounted := h.counted_of_seen hseen hgap
  have hgaps : ∀ q, (γ q).hand.gap ≠ some p := fun q => (Book.mem_counted.mp hcounted).2.2 (some q)
  have hcwd : s.cwd p = some c := (Book.mem_counted.mp hcounted).2.1
  have hs : Silent γ t s ((s.setRef c (s.ref c + 1)).setReading t false) := by
    refine {doomed := fun {i q} hq hi => ?_, ref := fun i => ?_, reading := ?_}
    · have hdoomed := (h.each q).doomed hi
      obtain ⟨⟨x, hx, -⟩, hone, -⟩ := hdoomed
      refine update_of_ne (fun hic => ?_) _ _
      subst hic
      have := h.book.two_of_counted (t := some q) hcounted ((h.each q).known hx).2.2.2.1
      have : (Fs.book γ s).ref i = 1 := hone
      omega
    · show s.ref i ≤ update s.ref c _ i
      by_cases hi : i = c
      · subst hi
        simp
      · simp [update_of_ne hi]
    · exact fun hq => update_of_ne hq _ _
  refine h.gain hs rfl rfl rfl rfl hready hgap (h.alloc.cwd hcwd hgaps)
    (fun q k _ => not_made (h.cwd_not_fresh hcwd hgaps) q k) (fun _ hy => absurd hy List.not_mem_nil)
    (fun _ hy => absurd hy List.not_mem_nil)

end Inv

/-! ### `iget` -/

theorem iget_ref (s : State) (j : Inum) : (s.iget j).ref = update s.ref j (s.ref j + 1) := by
  unfold State.iget
  split
  · rename_i hzero
    simp [State.setRef, hzero]
  · rfl

theorem silent_iget (hdoomed : ∀ q, q ≠ t → (γ q).stage ≠ .doomed j) : Silent γ t s (s.iget j) := by
  have hsame : (s.iget j).inode = s.inode ∧ (s.iget j).born = s.born ∧ (s.iget j).clock = s.clock ∧
      (s.iget j).panic = s.panic ∧ (s.iget j).lock = s.lock ∧ (s.iget j).leaving = s.leaving ∧
      (s.iget j).reading = s.reading ∧ (s.iget j).owner = s.owner ∧ (s.iget j).wants = s.wants := by
    unfold State.iget
    split <;> exact ⟨rfl, rfl, rfl, rfl, rfl, rfl, rfl, rfl, rfl⟩
  obtain ⟨hinode, hborn, hclock, hpanic, hlock, hleaving, hreading, howner, hwants⟩ := hsame
  refine ⟨hinode, hborn, hclock, hpanic, hlock, hleaving, ?_, ?_, ?_, ?_, ?_, ?_⟩
  · intro i q hq hi
    rw [iget_ref]
    refine update_of_ne (fun hij => ?_) _ _
    subst hij
    exact hdoomed q hq hi
  · intro i
    rw [iget_ref]
    by_cases hi : i = j
    · subst hi
      simp
    · simp [update_of_ne hi]
  · intro i hpos hvalid
    unfold State.iget
    split
    · rename_i hzero
      show update s.valid j false i = true
      rw [update_of_ne]
      · exact hvalid
      · intro hij
        subst hij
        omega
    · exact hvalid
  · exact fun _ => by rw [hreading]
  · exact fun _ _ => by rw [howner]
  · exact fun _ => by rw [hwants]

namespace Inv

variable (h : Inv strict careful γ s)
include h

theorem igets (hready : (γ t).stage = .ready)
    (hgap : (γ t).hand.gap = none) (htype : (s.inode j).type ≠ none)
    (hmade : ∀ q k, q ≠ t → (γ q).made ≠ some (j, k))
    (hdoomed : ∀ q, q ≠ t → (γ q).stage ≠ .doomed j) :
    Inv strict careful (update γ t {γ t with hand := ⟨[], none, j :: (γ t).refs⟩}) (s.iget j) := by
  have hs : Silent γ t s (s.iget j) := silent_iget hdoomed
  have hsame : (s.iget j).opened = s.opened ∧ (s.iget j).cwd = s.cwd ∧ (s.iget j).wants = s.wants := by
    unfold State.iget
    split <;> exact ⟨rfl, rfl, rfl⟩
  exact h.gain hs hsame.1 hsame.2.1 (iget_ref s j) (by rw [hsame.2.2]) hready hgap htype hmade
    (fun _ hy => absurd hy List.not_mem_nil) (fun _ hy => absurd hy List.not_mem_nil)

/-- Nobody is about to free what an entry names, if the directory is locked. -/
theorem not_doomed_of_entry (hx : (d, x) ∈ (γ t).known)
    (hfresh : ¬ fresh γ d) (he : e ∈ x.dirents) (hne : e.inum ≠ 0) (hq : q ≠ t) :
    (γ q).stage ≠ .doomed e.inum := by
  intro hdoomed
  obtain ⟨⟨y, hy, hnlink⟩, -, hparent⟩ := (h.each q).doomed hdoomed
  obtain ⟨-, rfl, htype, -⟩ := (h.each t).known hx
  obtain ⟨-, rfl, htypey, -⟩ := (h.each q).known hy
  have hde : d ≠ e.inum := by
    rintro rfl
    exact h.key_ne (Ghost.mem_keys.mpr ⟨_, hx⟩) hq (Ghost.mem_keys.mpr ⟨_, hy⟩)
  have hdir : (s.inode d).type = some .dir := by
    by_contra hdir
    rw [h.tree.flat hdir] at he
    cases he
  rcases (h.tree.shape hdir hfresh).entry he hne with hplain | hdot | ⟨-, hup⟩
  · have hpos := names_pos he hplain
    have hle := h.links.le htypey
    have := names_le_links s.inode e.inum
    omega
  · rw [hdot] at hde
    exact hde rfl
  · exact hparent d hde hup

section
variable (hg : γ t = g) (hready : g.stage = .ready) (hgap : g.hand.gap = none)
include hg hready hgap

theorem iget_entry (hx : (d, x) ∈ g.known)
    (hmade : ∀ k, g.made ≠ some (d, k)) (he : e ∈ x.dirents) (hne : e.inum ≠ 0) :
    Inv strict careful (update γ t {g with hand := ⟨[], none, e.inum :: g.refs⟩})
      (s.iget e.inum) := by
  subst hg
  have hfresh := h.not_fresh_of_key (Ghost.mem_keys.mpr ⟨x, hx⟩) hmade
  have he' : e ∈ (s.inode d).dirents := by
    rw [((h.each t).known hx).2.1]
    exact he
  refine h.igets hready hgap (h.tree.entry he' hne) (fun q k hq hm => ?_)
    fun q hq => h.not_doomed_of_entry hx hfresh he hne hq
  obtain ⟨heq, -⟩ := h.tree.unnamed ⟨q, k, hm⟩ he'
  exact hfresh (heq ▸ ⟨q, k, hm⟩)

theorem iget_root :
    Inv strict careful (update γ t {g with hand := ⟨[], none, ROOTINO :: g.refs⟩})
      (s.iget ROOTINO) := by
  subst hg
  obtain ⟨htype, hfresh, -⟩ := h.tree.root
  refine h.igets hready hgap (by rw [htype]; nofun) (fun q k _ => not_made hfresh q k) ?_
  intro q _ hdoomed
  obtain ⟨⟨x, hx, hnlink⟩, -⟩ := (h.each q).doomed hdoomed
  have hpos := h.nlink_root
  rw [((h.each q).known hx).2.1] at hpos
  omega

theorem iget_made (hmade : g.made = some (j, k)) :
    Inv strict careful (update γ t {g with hand := ⟨[], none, j :: g.refs⟩}) (s.iget j) := by
  subst hg
  refine h.igets hready hgap (by rw [((h.each t).made hmade).1]; nofun)
    (fun q k' hq hm => hq (h.alloc.once hmade hm)) ?_
  intro q hq hdoomed
  obtain ⟨⟨x, hx, -⟩, -⟩ := (h.each q).doomed hdoomed
  exact h.not_key_of_made hmade hq (Ghost.mem_keys.mpr ⟨x, hx⟩)

end

end Inv

/-! ### References that are stored -/

theorem book_files (l : List Inum) : book (update γ t g') {s with opened := l} =
    ((book γ s).setHand none ⟨[], none, l⟩).setHand (some t) g'.hand := by
  simp only [book, Book.setHand, Book.mk.injEq, true_and, and_true]
  funext q
  cases q with
  | none => simp
  | some q =>
    by_cases hq : q = t
    · subst hq
      simp
    · have hne : (some q : Option Slot) ≠ some t := fun h => hq (Option.some.inj h)
      simp [update_of_ne hq, update_of_ne hne]

namespace Inv

variable (h : Inv strict careful γ s)
include h

theorem close (hg : γ t = g) (hi : i ∈ s.opened) (hready : g.stage = .ready) (hgap : g.hand.gap = none) :
    Inv strict careful (update γ t {g with hand := ⟨[], none, i :: g.refs⟩})
      {s with opened := s.opened.erase i} := by
  subst hg
  have hs : Silent γ t s {s with opened := s.opened.erase i} :=
    .of (fun _ => rfl) (fun _ _ => rfl) (fun _ => rfl) fun _ hj => hj
  refine h.rehand_cons hs rfl hready hgap (h.alloc.opened hi) (fun q k _ hq => h.alloc.shut hq hi)
    (fun _ hy => absurd hy List.not_mem_nil) (fun _ => List.mem_of_mem_erase) rfl ?_
  have hperm : ((Fs.book γ s).hand none).refs.Perm (i :: s.opened.erase i) := List.perm_cons_erase hi
  rw [book_files]
  exact h.book.pass (h := ⟨[], none, s.opened.erase i⟩) (Option.some_ne_none t)
    (fun _ hx => absurd hx List.not_mem_nil) rfl rfl hperm (fun _ hx => absurd hx List.not_mem_nil)
    hgap rfl (.refl _)

theorem opens (hg : γ t = g) (hrefs : g.refs.Perm (i :: r))
    (hkeys : ∀ j ∈ g.keys, j ∈ r) (hfile : ∀ j ∈ g.file, j ∈ r)
    (hready : g.stage = .ready) (hgap : g.hand.gap = none)
    (hmade : ∀ k, g.made ≠ some (i, k)) :
    Inv strict careful (update γ t {g with hand := ⟨[], none, r⟩})
      {s with opened := i :: s.opened} := by
  subst hg
  have hi : i ∈ (γ t).refs := hrefs.mem_iff.mpr List.mem_cons_self
  have hs : Silent γ t s {s with opened := i :: s.opened} :=
    .of (fun _ => rfl) (fun _ _ => rfl) (fun _ => rfl) fun _ hj => hj
  refine h.rehand hs rfl hready hkeys hfile
    (fun j hj => .inl (hrefs.mem_iff.mpr (List.mem_cons_of_mem i hj)))
    (fun p hp => absurd hp List.not_mem_nil) (fun j hj => ?_)
    (fun p j hj hp => .inl ⟨hj, gaps_update (fun _ hp => by rw [hgap] at hp; cases hp) hp⟩) ?_
  · rcases List.mem_cons.mp hj with rfl | hj
    · exact .inr (h.whole_of_ref hi hready hmade)
    · exact .inl hj
  · have hne : (none : Option Slot) ≠ some t := (Option.some_ne_none t).symm
    rw [book_files, Book.setHand_comm _ hne]
    exact h.book.pass (h := ⟨[], none, r⟩) hne (fun _ hx => absurd hx List.not_mem_nil) hgap rfl
      hrefs (fun _ hx => absurd hx List.not_mem_nil) rfl rfl (.refl _)

/-- The `cwd` whose reference a thread has taken over gets another directory, or none. -/
theorem set_cwd {v : Option Inum} (hg : γ t = g) (hgap : g.hand.gap = some p)
    (howner : s.owner t = some p) (hrefs : g.refs.Perm (v.toList ++ r))
    (hkeys : ∀ j ∈ g.keys, j ∈ r) (hfile : ∀ j ∈ g.file, j ∈ r)
    (hready : g.stage = .ready) (hmade : g.made = none) :
    Inv strict careful (update γ t {g with hand := ⟨[], none, r⟩})
      {s.setReading t false with cwd := update s.cwd p v} := by
  subst hg
  have hs : Silent γ t s {s.setReading t false with cwd := update s.cwd p v} :=
    .of (fun hq => update_of_ne hq _ _) (fun _ _ => rfl) (fun _ => rfl) fun _ hj => hj
  refine h.rehand hs rfl hready hkeys hfile
    (fun j hj => .inl (hrefs.mem_iff.mpr (List.mem_append_right _ hj)))
    (fun p hp => absurd hp List.not_mem_nil) (fun j hj => .inl hj) (fun p' j hj hp => ?_) ?_
  · by_cases hpp : p' = p
    · subst hpp
      have hv : v = some j := by simpa using hj
      have hj : j ∈ (γ t).refs := by
        rw [hv] at hrefs
        exact hrefs.mem_iff.mpr List.mem_cons_self
      exact .inr (h.whole_of_ref hj hready fun k => by rw [hmade]; nofun)
    · refine .inl ⟨by simpa [update_of_ne hpp] using hj, fun q hq => ?_⟩
      by_cases hqt : q = t
      · subst hqt
        rw [hgap] at hq
        exact hpp (Option.some.inj hq).symm
      · refine hp q ?_
        rw [update_of_ne hqt]
        exact hq
  · rw [book_update rfl]
    exact h.book.close hgap (fun _ hx => absurd hx List.not_mem_nil) rfl hrefs

/-- The child of a `fork` gets a `cwd`, and runs on slot `q`. -/
theorem forks (hg : γ t = g) (hnone : s.cwd p = none) (hunused : ∀ q, s.owner q ≠ some p)
    (hq : s.owner q = none) (hrefs : g.refs.Perm (i :: r)) (hkeys : ∀ j ∈ g.keys, j ∈ r)
    (hfile : ∀ j ∈ g.file, j ∈ r) (hready : g.stage = .ready)
    (hgap : g.hand.gap = none) (hmade : g.made = none) :
    Inv strict careful (update γ t {g with hand := ⟨[], none, r⟩})
      {s with
        cwd := update s.cwd p (some i)
        owner := update s.owner q (some p)} := by
  subst hg
  have hi : i ∈ (γ t).refs := hrefs.mem_iff.mpr List.mem_cons_self
  have hs : Silent γ t s {s with
      cwd := update s.cwd p (some i)
      owner := update s.owner q (some p)} := by
    refine .of (fun _ => rfl) (fun {r} _ hr => ?_) (fun _ => rfl) fun _ hj => hj
    refine update_of_ne (fun hrq => ?_) _ _
    subst hrq
    exact hr hq
  have hwindow : ∀ r, p ∉ (γ r).hand.window := fun r hr => hunused r ((h.each r).window hr).2
  have hfree : (Fs.book γ s).Free (some t) p := by
    intro r _ hr
    cases r with
    | none => cases hr
    | some r => exact hwindow r hr
  refine h.rehand hs rfl hready hkeys hfile
    (fun j hj => .inl (hrefs.mem_iff.mpr (List.mem_cons_of_mem i hj)))
    (fun p hp => absurd hp List.not_mem_nil) (fun j hj => .inl hj) (fun p' j hj hp => ?_) ?_
  · by_cases hpp : p' = p
    · subst hpp
      have hij : i = j := by simpa using hj
      exact .inr (h.whole_of_ref (hij ▸ hi) hready fun k => by rw [hmade]; nofun)
    · exact .inl ⟨by simpa [update_of_ne hpp] using hj,
        gaps_update (fun _ hp => by rw [hgap] at hp; cases hp) hp⟩
  · rw [book_update rfl]
    exact h.book.put (Finset.mem_univ p) hfree hnone (fun _ hx => absurd hx List.not_mem_nil) hgap rfl
      hrefs

theorem spawns (hq : s.owner q = none) (v : Option Share) :
    Inv strict careful γ {s with owner := update s.owner q v} := by
  refine h.unread (t := q) (fun _ => rfl) (fun hne _ => update_of_ne hne _ _) fun hp => ?_
  have := ((h.each q).window hp).2
  rw [hq] at this
  cases this

theorem leaves (hseen : (γ t).hand.seen = []) :
    Inv strict careful γ {s with owner := update s.owner t none} := by
  refine h.unread (t := t) (fun _ => rfl) (fun hq _ => update_of_ne hq _ _) fun hp => ?_
  rw [Hand.window, hseen] at hp
  cases hp

end Inv

end ThreadKernel.Fs
