import ThreadKernel.Fs.Entries

/-! What holds of inodes while calls are on their way.

The ghost of a thread says what it has in hand: references, with what it relies on of
`cwd`; the inodes it has locked, with what they are; the links it has counted ahead of an
entry, or not yet counted down after one; the inode it is making; and how far it is in
`iput`. `Local` ties that to the state, for one thread; the rest of the invariant is about
all of them.

Two things are parameters: whether links are counted exactly, with nothing left behind
(`strict`), and whether nobody waits with a lock in hand for a thread that waits for a lock
above its own (`careful`). -/
namespace ThreadKernel.Fs

open Refcount Interleave Function

/-- How far a thread is in `acquiresleep` or in `iput`. -/
inductive Stage where
  | ready
  | asks (i : Inum) (site : Site)
  /-- `iput` has found no links and no other reference. -/
  | doomed (i : Inum)
  /-- `iput` has found another reference. -/
  | spare (i : Inum)
  /-- `iput` has freed the inode, and has it locked. -/
  | dying (i : Inum)
  /-- `iput` has unlocked the inode, which it may have freed. -/
  | leaving (i : Inum) (freed : Bool)
  deriving DecidableEq

namespace Stage

def asked : Stage → Option (Inum × Site)
  | asks i site => some (i, site)
  | _ => none

/-- The inode that is free and still referenced. -/
def dead : Stage → Option Inum
  | dying i | leaving i true => some i
  | _ => none

def left : Stage → Option Inum
  | leaving i _ => some i
  | _ => none

end Stage

structure Ghost where
  hand : Hand Inum Share
  known : List (Inum × Dinode)
  /-- Those of them that `ilock` has found valid. -/
  loaded : List Inum
  credits : List Inum
  /-- Allocated, and not yet named. -/
  made : Option (Inum × Kind)
  /-- What `link` has found not to be a directory. -/
  file : Option Inum
  stage : Stage

namespace Ghost

def idle : Ghost := ⟨⟨[], none, []⟩, [], [], [], none, none, .ready⟩

def refs (g : Ghost) : List Inum := g.hand.refs

def keys (g : Ghost) : List Inum := g.known.map Prod.fst

/-- The inode that the thread has freed and not yet let go. -/
def dead (g : Ghost) : Option Inum := g.stage.dead

theorem dead_eq (g : Ghost) : g.dead = g.stage.dead := rfl

theorem mem_keys {g : Ghost} {i : Inum} : i ∈ g.keys ↔ ∃ x, (i, x) ∈ g.known := by
  simp [keys]

end Ghost

/-- The file table holds references as a thread does. -/
def book (γ : Slot → Ghost) (s : State) : Book Inum Share (Option Slot) where
  ref := s.ref
  entry := s.cwd
  hand := fun t => t.elim ⟨[], none, s.opened⟩ fun t => (γ t).hand
  dom := Finset.univ

def fresh (γ : Slot → Ghost) (i : Inum) : Prop := ∃ t k, (γ t).made = some (i, k)

def owed (γ : Slot → Ghost) (i : Inum) : Nat := ∑ t, (γ t).credits.count i

/-- How many threads have unlocked `i` in `iput` and not yet counted down. -/
def leavers (s : State) (i : Inum) : Nat := holders s.leaving i

structure Local (s : State) (t : Slot) (g : Ghost) : Prop where
  known : ∀ {i x}, (i, x) ∈ g.known →
    s.lock i = some t ∧ s.inode i = x ∧ x.type ≠ none ∧ i ∈ g.refs ∧ g.dead ≠ some i
  keys : g.keys.Nodup
  locked : ∀ {i}, s.lock i = some t → i ∈ g.keys ∨ g.stage = .dying i
  refs : ∀ {i}, i ∈ g.refs → g.dead = some i ∨ (s.inode i).type ≠ none
  window : ∀ {p}, p ∈ g.hand.window → s.reading t = true ∧ s.owner t = some p
  loaded : ∀ {i}, i ∈ g.loaded → i ∈ g.keys ∧ s.valid i = true
  made : ∀ {i k}, g.made = some (i, k) → (s.inode i).type = some k ∧
    (i ∉ g.keys → s.inode i = ⟨some k, 0, []⟩) ∧ ∀ j ∈ g.keys, j ≠ i → s.born j < s.born i
  file : ∀ {i}, g.file = some i →
    i ∈ g.refs ∧ g.dead ≠ some i ∧ (s.inode i).type ≠ some .dir ∧ i ∈ g.credits
  credit : ∀ {i}, i ∈ g.credits → i ∈ g.keys ∨ g.file = some i
  doomed : ∀ {i}, g.stage = .doomed i → (∃ x, (i, x) ∈ g.known ∧ x.nlink = 0) ∧ s.ref i = 1 ∧
    ∀ d, d ≠ i → (s.inode d).parent ≠ some i
  spare : ∀ {i}, g.stage = .spare i → i ∈ g.keys ∧ leavers s i + 1 < s.ref i
  dying : ∀ {i}, g.stage = .dying i → s.lock i = some t
  wants : s.wants t = g.stage.asked
  asks : ∀ {i site}, g.stage = .asks i site → i ∈ g.refs ∧
    (site = .ilock → ∀ d ∈ g.keys, (s.inode d).type = some .dir ∧
      ((s.inode i).type = some .dir → s.born d < s.born i))
  leaving : s.leaving t = g.stage.left
  left : ∀ {i}, g.stage.left = some i → i ∈ g.refs

/-- What references and names lead to is allocated, and nobody else has an inode that is
being made. -/
structure Alloc (γ : Slot → Ghost) (s : State) : Prop where
  opened : ∀ {i}, i ∈ s.opened → (s.inode i).type ≠ none
  cwd : ∀ {p i}, s.cwd p = some i → (∀ t, (γ t).hand.gap ≠ some p) → (s.inode i).type ≠ none
  alone : ∀ {t q i k}, (γ t).made = some (i, k) → q ≠ t → i ∈ (γ q).refs → (γ q).dead = some i
  once : ∀ {t q i k k'}, (γ t).made = some (i, k) → (γ q).made = some (i, k') → q = t
  shut : ∀ {t i k}, (γ t).made = some (i, k) → i ∉ s.opened
  away : ∀ {t i k p}, (γ t).made = some (i, k) → s.cwd p = some i → ∃ q, (γ q).hand.gap = some p
  dying : ∀ {t i}, (γ t).stage = .dying i → (s.inode i).type = none ∨ fresh γ i

structure Tree (inode : Inum → Dinode) (born : Inum → Nat) (clock : Nat) (fresh : Inum → Prop) :
    Prop where
  zero : (inode 0).type = none
  root : (inode ROOTINO).type = some .dir ∧ ¬ fresh ROOTINO ∧
    (inode ROOTINO).parent = some ROOTINO
  flat : ∀ {d}, (inode d).type ≠ some .dir → (inode d).dirents = []
  shape : ∀ {d}, (inode d).type = some .dir → ¬ fresh d → Shaped d (inode d)
  entry : ∀ {d e}, e ∈ (inode d).dirents → e.inum ≠ 0 → (inode e.inum).type ≠ none
  child : ∀ {d e}, e ∈ (inode d).dirents → e.name.isPlain = true →
    (inode e.inum).type = some .dir → (inode e.inum).parent = some d ∧ born d < born e.inum
  single : ∀ {j}, (inode j).type = some .dir → names inode j ≤ 1
  begun : ∀ {d e}, fresh d → e ∈ (inode d).dirents →
    e = ⟨.dot, d⟩ ∨ (e.name = .dotdot ∧ (inode d).parent = some e.inum)
  unnamed : ∀ {d e}, fresh e.inum → e ∈ (inode d).dirents → d = e.inum ∧ e.name.isPlain = false
  born : ∀ i, born i < clock

structure Links (strict : Prop) (inode : Inum → Dinode) (owed : Inum → Nat)
    (fresh : Inum → Prop) : Prop where
  le : ∀ {i}, (inode i).type ≠ none → links inode i + owed i ≤ (inode i).nlink
  exact : strict → ∀ {i}, (inode i).type ≠ none → links inode i + owed i = (inode i).nlink
  /-- A directory that has been removed is empty. -/
  emptied : strict → ∀ {d e}, (inode d).type = some .dir → ¬ Attached inode d → ¬ fresh d →
    e ∈ (inode d).dirents → e.name.isPlain = true → e.inum = 0

/-- An inode without links is left to somebody who will free it. -/
structure Kept (s : State) (fresh : Inum → Prop) : Prop where
  kept : ∀ {i}, (s.inode i).type ≠ none → (s.inode i).nlink = 0 → ¬ fresh i → leavers s i < s.ref i
  valid : ∀ {i}, (s.inode i).type ≠ none → (s.inode i).nlink = 0 → ¬ fresh i → s.valid i = true

/-- The thread has an inode locked and waits, in `iput`, for one that is not below it. -/
def Upward (s : State) (q : Slot) : Prop :=
  ∃ i j, s.lock i = some q ∧ s.wants q = some (j, .iput) ∧ (s.inode i).names j = 0

/-- Nobody waits with a lock in hand for a thread that waits upward. -/
def Quiet (s : State) : Prop :=
  ∀ {t q i j site}, s.lock i = some t → s.wants t = some (j, site) → s.lock j = some q → ¬ Upward s q

structure Inv (strict careful : Prop) (γ : Slot → Ghost) (s : State) : Prop where
  each : ∀ t, Local s t (γ t)
  book : (book γ s).Sound
  alloc : Alloc γ s
  tree : Tree s.inode s.born s.clock (fresh γ)
  links : Links strict s.inode (owed γ) (fresh γ)
  kept : strict → Kept s (fresh γ)
  calm : s.panic ≠ some .noType
  quiet : careful → Quiet s

variable {strict careful : Prop} {γ : Slot → Ghost} {s s' : State} {t q : Slot} {g g' : Ghost}
  {i j d : Inum} {p : Share} {x : Dinode} {k : Kind} {site : Site}

/-! ### Consequences -/

namespace Inv

variable (h : Inv strict careful γ s)
include h

theorem pos_of_ref (hi : i ∈ (γ t).refs) : 0 < s.ref i :=
  h.book.pos_of_ref (t := some t) hi

theorem type_of_known (hi : (i, x) ∈ (γ t).known) : (s.inode i).type ≠ none := by
  obtain ⟨-, rfl, htype, -⟩ := (h.each t).known hi
  exact htype

theorem key_cases (hi : i ∈ (γ t).keys) :
    s.lock i = some t ∧ (s.inode i).type ≠ none ∧ i ∈ (γ t).refs ∧ (γ t).dead ≠ some i := by
  obtain ⟨x, hx⟩ := Ghost.mem_keys.mp hi
  obtain ⟨hlock, rfl, htype, href, hdying⟩ := (h.each t).known hx
  exact ⟨hlock, htype, href, hdying⟩

theorem key_ne (hi : i ∈ (γ t).keys) (hne : q ≠ t) : i ∉ (γ q).keys := by
  intro hq
  have ht := (h.key_cases hi).1
  rw [(h.key_cases hq).1] at ht
  exact hne (Option.some.inj ht)

/-- What somebody is making is nobody else's. -/
theorem not_key_of_made (hmade : (γ q).made = some (i, k)) (hne : t ≠ q) : i ∉ (γ t).keys := fun hi =>
  (h.key_cases hi).2.2.2 (h.alloc.alone hmade hne (h.key_cases hi).2.2.1)

theorem not_fresh_of_key (hi : i ∈ (γ t).keys)
    (hmade : ∀ k, (γ t).made ≠ some (i, k)) : ¬ fresh γ i := by
  intro ⟨q, k, hq⟩
  by_cases hne : t = q
  · subst hne
    exact hmade k hq
  · exact h.not_key_of_made hq hne hi

theorem nlink_root : 0 < (s.inode ROOTINO).nlink := by
  obtain ⟨htype, -, hparent⟩ := h.tree.root
  have hup : up s.inode ROOTINO = some ROOTINO := by rw [up, if_pos (.inl rfl), hparent]
  have hle := h.links.le (i := ROOTINO) (by rw [htype]; nofun)
  have hpos := links_pos_of_up hup
  omega

theorem inum_ne_zero (hi : (s.inode i).type ≠ none) : i ≠ 0 := by
  rintro rfl
  exact hi h.tree.zero

end Inv

/-! ### What the others see of a step -/

structure Turn (γ : Slot → Ghost) (t : Slot) (s s' : State) : Prop where
  lock : ∀ {i q}, q ≠ t → (s'.lock i = some q ↔ s.lock i = some q) := by intros; exact Iff.rfl
  inode : ∀ {i}, (s.inode i).type ≠ none → i ∉ (γ t).keys →
    s'.inode i = s.inode i ∧ s'.born i = s.born i := by intros; exact ⟨rfl, rfl⟩
  type : ∀ {i q}, q ≠ t → i ∈ (γ q).refs → (s.inode i).type ≠ none →
    (s'.inode i).type = (s.inode i).type ∧ s'.born i = s.born i := by intros; exact ⟨rfl, rfl⟩
  parent : ∀ {d i}, (s'.inode d).parent = some i →
    (s.inode d).parent = some i ∨ i ∈ (γ t).keys := by intros; exact .inl ‹_›
  ref : ∀ {i q}, q ≠ t → (γ q).stage = .doomed i → s'.ref i = s.ref i := by intros; rfl
  reading : ∀ {q}, q ≠ t → s'.reading q = s.reading q := by intros; rfl
  owner : ∀ {q}, q ≠ t → s.owner q ≠ none → s'.owner q = s.owner q := by intros; rfl
  wants : ∀ {q}, q ≠ t → s'.wants q = s.wants q := by intros; rfl
  leaving : ∀ {q}, q ≠ t → s'.leaving q = s.leaving q := by intros; rfl
  spare : ∀ {i q}, q ≠ t → s.lock i = some q → leavers s i + 1 < s.ref i →
    leavers s' i + 1 < s'.ref i := by intros; assumption
  valid : ∀ {i q}, q ≠ t → s.lock i = some q → i ∈ (γ q).refs → s.valid i = true →
    s'.valid i = true := by intros; assumption

namespace Inv

variable (h : Inv strict careful γ s)
include h

/-- A thread is not disturbed by the step of another. -/
theorem others (hturn : Turn γ t s s') (hne : q ≠ t) : Local s' q (γ q) := by
  have hl := h.each q
  have hkey : ∀ {i}, i ∈ (γ q).keys → s'.inode i = s.inode i ∧ s'.born i = s.born i := by
    intro i hi
    exact hturn.inode (h.key_cases hi).2.1 fun hit => h.key_ne hit hne hi
  refine ⟨?_, hl.keys, ?_, ?_, ?_, ?_, ?_, ?_, hl.credit, ?_, ?_, ?_, ?_, ?_, ?_, hl.left⟩
  · intro i x hx
    obtain ⟨hlock, hinode, htype, href, hdying⟩ := hl.known hx
    exact ⟨(hturn.lock hne).mpr hlock, (hkey (Ghost.mem_keys.mpr ⟨x, hx⟩)).1.trans hinode, htype, href,
      hdying⟩
  · intro i hi
    exact hl.locked ((hturn.lock hne).mp hi)
  · intro i hi
    rcases hl.refs hi with hdying | htype
    · exact .inl hdying
    · exact .inr (by rw [(hturn.type hne hi htype).1]; exact htype)
  · intro p hp
    obtain ⟨hreading, howner⟩ := hl.window hp
    refine ⟨(hturn.reading hne).trans hreading, ?_⟩
    rw [hturn.owner hne (by rw [howner]; nofun), howner]
  · intro i hi
    obtain ⟨hkeys, hvalid⟩ := hl.loaded hi
    obtain ⟨hlock, -, href, -⟩ := h.key_cases hkeys
    exact ⟨hkeys, hturn.valid hne hlock href hvalid⟩
  · intro i k hmade
    obtain ⟨htype, hblank, hborn⟩ := hl.made hmade
    obtain ⟨hinode, hi⟩ := hturn.inode (by rw [htype]; nofun) (h.not_key_of_made hmade (Ne.symm hne))
    refine ⟨by rw [hinode]; exact htype, fun hkeys => by rw [hinode]; exact hblank hkeys, ?_⟩
    intro j hj hji
    rw [hi, (hkey hj).2]
    exact hborn j hj hji
  · intro i hi
    obtain ⟨href, hdying, htype, hcredit⟩ := hl.file hi
    refine ⟨href, hdying, ?_, hcredit⟩
    rw [(hturn.type hne href ((hl.refs href).resolve_left hdying)).1]
    exact htype
  · intro i hi
    obtain ⟨⟨x, hx, hnlink⟩, href, hparent⟩ := hl.doomed hi
    refine ⟨⟨x, hx, hnlink⟩, (hturn.ref hne hi).trans href, fun d hd hd' => ?_⟩
    rcases hturn.parent hd' with hbefore | hkeys
    · exact hparent d hd hbefore
    · exact h.key_ne hkeys hne (Ghost.mem_keys.mpr ⟨x, hx⟩)
  · intro i hi
    obtain ⟨hkeys, hlt⟩ := hl.spare hi
    exact ⟨hkeys, hturn.spare hne (h.key_cases hkeys).1 hlt⟩
  · intro i hi
    exact (hturn.lock hne).mpr (hl.dying hi)
  · exact (hturn.wants hne).trans hl.wants
  · intro i site hi
    obtain ⟨href, horder⟩ := hl.asks hi
    refine ⟨href, fun hsite d hd => ?_⟩
    obtain ⟨hdir, hlt⟩ := horder hsite d hd
    have htype : (s.inode i).type ≠ none := (hl.refs href).resolve_left (by rw [Ghost.dead_eq, hi]; nofun)
    rw [(hkey hd).1, (hkey hd).2, (hturn.type hne href htype).1, (hturn.type hne href htype).2]
    exact ⟨hdir, hlt⟩
  · exact (hturn.leaving hne).trans hl.leaving

theorem key_of_asked (hlock : s.lock i = some t)
    (hwants : s.wants t = some (j, site)) : i ∈ (γ t).keys := by
  apply ((h.each t).locked hlock).resolve_right
  intro hdying
  rw [(h.each t).wants, hdying] at hwants
  cases hwants

theorem quiet_turn (hturn : Turn γ t s s') (hwants : s'.wants t = none)
    (hquiet : Quiet s) : Quiet s' := by
  have hother : ∀ {q v}, s'.wants q = some v → q ≠ t := by
    rintro q v hq rfl
    rw [hwants] at hq
    cases hq
  intro u q i j site hi hu hj hup
  obtain ⟨d, c, hd, hq, hnames⟩ := hup
  have hut := hother hu
  have hqt := hother hq
  rw [hturn.wants hut] at hu
  rw [hturn.wants hqt] at hq
  rw [hturn.lock hut] at hi
  rw [hturn.lock hqt] at hd hj
  have hkey := h.key_of_asked hd hq
  refine hquiet hi hu hj ⟨d, c, hd, hq, ?_⟩
  rw [← (hturn.inode (h.key_cases hkey).2.1 fun hdt => h.key_ne hdt hqt hkey).1]
  exact hnames

theorem move (hturn : Turn γ t s s') (hlocal : Local s' t g')
    (hbook : (Fs.book (update γ t g') s').Sound)
    (halloc : Alloc (update γ t g') s')
    (htree : Tree s'.inode s'.born s'.clock (fresh (update γ t g')))
    (hlinks : Links strict s'.inode (owed (update γ t g')) (fresh (update γ t g')))
    (hkept : strict → Kept s' (fresh (update γ t g'))) (hcalm : s'.panic = s.panic)
    (hquiet : g'.stage.asked = none ∨ (careful → Quiet s')) :
    Inv strict careful (update γ t g') s' where
  each := fun q => by
    by_cases hq : q = t
    · subst hq
      simpa using hlocal
    · rw [update_of_ne hq]
      exact h.others hturn hq
  book := hbook
  alloc := halloc
  tree := htree
  links := hlinks
  kept := hkept
  calm := by
    rw [hcalm]
    exact h.calm
  quiet := fun hcareful => by
    rcases hquiet with hasked | hquiet
    · exact h.quiet_turn hturn (hlocal.wants.trans hasked) (h.quiet hcareful)
    · exact hquiet hcareful

end Inv

end ThreadKernel.Fs
