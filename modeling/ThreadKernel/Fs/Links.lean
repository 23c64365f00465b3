import ThreadKernel.Fs.Runs

/-! Link counts, when no call is on its way.

Two more things go wrong. A name may be entered in a directory that has been removed, by a
process that is in it or by a call that found it before; when the directory goes, the link
is still counted and no entry is left. And `iput` tests the count of references before it
counts down: two threads that each see the other's reference both leave an inode without
links as it is. Runs that avoid these keep every allocated inode within reach. -/
namespace ThreadKernel.Fs

open Refcount Interleave Lts

variable {h : List (Move Slot Call)} {s : Pool Op Op.Ans Panic State Slot} {img : Image}
  {inode : Inum → Dinode} {i d : Inum}

/-- As `keepsUp`; further, of those who have a reference to an inode without links one is
left to free it, and names are entered only in directories that have one themselves. -/
def keepsLinks (s : State) (t : Slot) : Op → Prop
  | .readRef i => keepsUp s t (.readRef i) ∧
    ((s.inode i).nlink = 0 → s.ref i ≠ 1 → leavers s i + 1 < s.ref i)
  | .writei d _ e => e.inum ≠ 0 → e.name.isPlain = true → Attached s.inode d
  | o => keepsUp s t o

instance (s : State) (t : Slot) (o : Op) : Decidable (keepsLinks s t o) := by
  apply @Op.casesOn _ o <;> intros <;> dsimp only [keepsLinks] <;> infer_instance

def linkRule : Rule Op State Slot Call := ⟨keepsLinks, fun _ _ _ => True⟩

instance (s : State) (t : Slot) (o : Op) : Decidable (linkRule.op s t o) :=
  inferInstanceAs (Decidable (keepsLinks s t o))

instance (s : State) (t : Slot) (c : Call) : Decidable (linkRule.call s t c) :=
  inferInstanceAs (Decidable True)

theorem linkRule_lawful : Lawful True False linkRule where
  cwd := fun hrule howner hq hown => hrule _ howner _ hq hown
  sole := fun hrule hnlink href hd hdir => hrule.1 hnlink href _ hd hdir
  spare := fun _ hrule hnlink href => hrule.2 hnlink href
  attached := fun _ hrule hne hplain => hrule hne hplain
  quiet := nofun

/-! ### Counting entries -/

/-- The entries that name `i`, other than `.` and than `..` of a directory that has been
removed. -/
def entriesNaming (inode : Inum → Dinode) (i : Inum) : Nat :=
  ∑ d, (inode d).dirents.countP fun e =>
    e.inum = i ∧ e.name ≠ .dot ∧ (e.name = .dotdot → Attached inode d)

theorem Shaped.countP_naming {x : Dinode} (hx : Shaped d x) (hi : i ≠ 0) (A : Prop) [Decidable A] :
    x.dirents.countP (fun e => e.inum = i ∧ e.name ≠ .dot ∧ (e.name = .dotdot → A)) =
      x.names i + if (if A then x.parent else none) = some i then 1 else 0 := by
  obtain ⟨p, rest, hents, -, hrest⟩ := hx.dots
  have hparent : x.parent = some p := by simp [Dinode.parent, hents]
  have hplain : rest.countP (fun e => e.inum = i ∧ e.name ≠ .dot ∧ (e.name = .dotdot → A)) =
      rest.countP fun e => e.inum = i ∧ e.name.isPlain = true := by
    refine List.countP_congr fun e he => ?_
    simp only [decide_eq_true_eq]
    constructor
    · rintro ⟨hinum, _⟩
      exact ⟨hinum, hrest e he (by rw [hinum]; exact hi)⟩
    · rintro ⟨hinum, hname⟩
      refine ⟨hinum, fun hdot => ?_, fun hdot => ?_⟩ <;> rw [hdot] at hname <;> cases hname
  unfold Dinode.names
  rw [hparent, hents]
  simp only [List.countP_cons, hplain]
  by_cases hA : A <;> simp [hA, Name.isPlain]

/-- With nothing on its way, the entries are the links. -/
theorem entriesNaming_eq {fresh : Inum → Prop} {born : Inum → Nat} {clock : Nat}
    (htree : Tree inode born clock fresh) (hfresh : ∀ d, ¬ fresh d) (hi : i ≠ 0) :
    entriesNaming inode i = links inode i := by
  have hone : ∀ d, (inode d).dirents.countP (fun e =>
      e.inum = i ∧ e.name ≠ .dot ∧ (e.name = .dotdot → Attached inode d)) =
      (inode d).names i + if up inode d = some i then 1 else 0 := by
    intro d
    by_cases hdir : (inode d).type = some .dir
    · exact (htree.shape hdir (hfresh d)).countP_naming hi _
    · have hnil := htree.flat hdir
      simp [hnil, up, Dinode.names, Dinode.parent]
  unfold entriesNaming links names holders
  rw [Finset.sum_congr rfl fun d _ => hone d, Finset.sum_add_distrib, Finset.card_filter]

/-! ### What is within reach -/

/-- What entries lead to from the root, an open file or a current directory. -/
inductive Within (s : State) : Inum → Prop where
  | root : Within s ROOTINO
  | opened {i : Inum} (hi : i ∈ s.opened) : Within s i
  | cwd {p : Share} {i : Inum} (hi : s.cwd p = some i) : Within s i
  | entry {d : Inum} {e : Dirent} (hd : Within s d) (he : e ∈ (s.inode d).dirents)
    (hne : e.inum ≠ 0) : Within s e.inum

theorem not_fresh_idle (d : Inum) : ¬ fresh (fun _ => .idle) d := by
  intro ⟨t, k, hmade⟩
  cases hmade

/-- No thread is in a call. -/
structure Rest (s : State) : Prop where
  inv : Inv True False (fun _ => .idle) s

namespace Rest

variable {s : State} (hs : Rest s)
include hs

theorem nlink_eq (hi : (s.inode i).type ≠ none) : (s.inode i).nlink = links s.inode i := by
  have hexact := hs.inv.links.exact trivial hi
  have howed : owed (fun _ : Slot => Ghost.idle) i = 0 := by simp [owed, Ghost.idle]
  omega

/-- What nothing names has no links, for a directory that has been removed is empty. -/
theorem links_eq_zero (hroot : i ≠ ROOTINO) (hnames : names s.inode i = 0) : links s.inode i = 0 := by
  by_contra hpos
  have hholders : 0 < holders (up s.inode) i := by
    unfold links at hpos
    omega
  obtain ⟨c, hc⟩ := Finset.card_pos.mp hholders
  have hup : up s.inode c = some i := (Finset.mem_filter.mp hc).2
  unfold up at hup
  split at hup
  · rename_i hattached
    rcases hattached with rfl | hnamed
    · rw [hs.inv.tree.root.2.2] at hup
      exact hroot (Option.some.inj hup).symm
    · obtain ⟨p, e, he, rfl, hplain⟩ := names_pos_iff.mp hnamed
      have hdir : (s.inode e.inum).type = some .dir := by
        by_contra hflat
        simp [Dinode.parent, hs.inv.tree.flat hflat] at hup
      have hparent := (hs.inv.tree.child he hplain hdir).1
      rw [hup] at hparent
      cases hparent
      have hzero := hs.inv.links.emptied trivial (hs.inv.tree.dir_of_entry he)
        (fun hattached => hattached.elim hroot fun hpos => by omega) (not_fresh_idle i) he hplain
      rw [hzero, hs.inv.tree.zero] at hdir
      cases hdir
  · cases hup

theorem within_of_ref (href : 0 < s.ref i) : Within s i := by
  have hbal := hs.inv.book.balanced i
  by_cases hopen : i ∈ s.opened
  · exact .opened hopen
  · have hrefs : ∑ t, ((book (fun _ => .idle) s).hand t).refs.count i = 0 := by
      refine Finset.sum_eq_zero fun t _ => ?_
      cases t with
      | none => exact List.count_eq_zero.mpr hopen
      | some t => rfl
    have hcard : 0 < ((book (fun _ => .idle) s).counted i).card := by
      have hsame : (book (fun _ => .idle) s).ref i = s.ref i := rfl
      omega
    obtain ⟨p, hp⟩ := Finset.card_pos.mp hcard
    exact .cwd (Book.mem_counted.mp hp).2.1

theorem ref_pos (hi : (s.inode i).type ≠ none) (hlinks : links s.inode i = 0) : 0 < s.ref i := by
  have hkept := (hs.inv.kept trivial).kept hi (by rw [hs.nlink_eq hi, hlinks]) (not_fresh_idle i)
  omega

theorem within_of_unnamed (hi : (s.inode i).type ≠ none) (hroot : i ≠ ROOTINO)
    (hnames : names s.inode i = 0) : Within s i :=
  hs.within_of_ref (hs.ref_pos hi (hs.links_eq_zero hroot hnames))

/-- By induction on when the directory was made: its parent is older. -/
theorem within_of_dir (hdir : (s.inode d).type = some .dir) : Within s d := by
  induction hborn : s.born d using Nat.strong_induction_on generalizing d with
  | _ n ih =>
    by_cases hroot : d = ROOTINO
    · rw [hroot]
      exact .root
    · by_cases hnames : names s.inode d = 0
      · exact hs.within_of_unnamed (by rw [hdir]; nofun) hroot hnames
      · obtain ⟨p, e, he, rfl, hplain⟩ := names_pos_iff.mp (Nat.pos_of_ne_zero hnames)
        have hlt := (hs.inv.tree.child he hplain hdir).2
        have hp := ih (s.born p) (by omega) (hs.inv.tree.dir_of_entry he) rfl
        exact .entry hp he (hs.inv.inum_ne_zero (by rw [hdir]; nofun))

theorem within_of_allocated (hi : (s.inode i).type ≠ none) : Within s i := by
  by_cases hnames : names s.inode i = 0
  · by_cases hroot : i = ROOTINO
    · rw [hroot]
      exact .root
    · exact hs.within_of_unnamed hi hroot hnames
  · obtain ⟨d, e, he, rfl, -⟩ := names_pos_iff.mp (Nat.pos_of_ne_zero hnames)
    exact .entry (hs.within_of_dir (hs.inv.tree.dir_of_entry he)) he (hs.inv.inum_ne_zero hi)

end Rest

end ThreadKernel.Fs
