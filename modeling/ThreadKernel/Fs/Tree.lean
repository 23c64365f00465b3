import ThreadKernel.Fs.Invariant

/-! Changes to the directories: an entry for an inode, an entry cleared, the entries of a
directory that is being made, and inodes that are allocated and freed.

Each keeps the tree, and changes the links by what the thread has counted. -/
namespace ThreadKernel.Fs

open Refcount Function

variable {strict : Prop} {inode inode' : Inum → Dinode} {born : Inum → Nat} {clock : Nat}
  {fresh fresh' : Inum → Prop} {owed owed' : Inum → Nat} {i j c d p : Inum} {name : Name} {off : Nat}
  {e : Dirent} {x : Dinode} {k : Kind}

/-! ### What is not a directory -/

namespace Tree

section

variable (h : Tree inode born clock fresh)
include h

theorem dir_of_entry (he : e ∈ (inode d).dirents) : (inode d).type = some .dir := by
  by_contra hdir
  rw [h.flat hdir] at he
  cases he

theorem ne_zero (hi : (inode i).type ≠ none) : i ≠ 0 := by
  intro heq
  rw [heq] at hi
  exact hi h.zero

theorem ne_zero_of_dir (hi : (inode i).type = some .dir) : i ≠ 0 :=
  h.ne_zero (by rw [hi]; nofun)

theorem parent_of_flat (hdir : (inode d).type ≠ some .dir) : (inode d).parent = none := by
  rw [Dinode.parent, h.flat hdir]
  rfl

theorem up_zero : up inode 0 = none := by
  unfold up
  rw [h.parent_of_flat (by rw [h.zero]; nofun), ite_self]

theorem names_of_fresh (hd : fresh d) : (inode d).names i = 0 := by
  apply List.countP_eq_zero.mpr
  intro e he
  rcases h.begun hd he with rfl | ⟨hname, -⟩
  · simp [Name.isPlain]
  · simp [hname, Name.isPlain]

theorem unnamed_of_fresh (hi : fresh i) : names inode i = 0 := by
  by_contra hne
  obtain ⟨d, e, he, rfl, hplain⟩ := names_pos_iff.mp (Nat.pos_of_ne_zero hne)
  rw [(h.unnamed hi he).2] at hplain
  cases hplain

theorem not_attached_of_fresh (hi : fresh i) : ¬ Attached inode i := by
  intro hattached
  rcases hattached with rfl | hpos
  · exact h.root.2.1 hi
  · rw [h.unnamed_of_fresh hi] at hpos
    cases hpos

theorem up_of_fresh (hi : fresh i) : up inode i = none :=
  if_neg (h.not_attached_of_fresh hi)

theorem child_ne_root (hdir : (inode c).type = some .dir)
    (hparent : (inode c).parent = some d) (hborn : born d < born c) : c ≠ ROOTINO := by
  intro heq
  subst heq
  rw [h.root.2.2] at hparent
  cases hparent
  omega

end

end Tree

section
variable (h : Links strict inode owed fresh) (htype : ∀ i, (inode' i).type = (inode i).type)
include h htype

/-- Links, link counts and what is owed change together. -/
theorem Links.change (hcount : ∀ {i}, (inode i).type ≠ none →
      links inode' i + owed' i + (inode i).nlink = links inode i + owed i + (inode' i).nlink)
    (hemptied : strict → ∀ {d e}, (inode d).type = some .dir → ¬ Attached inode' d → ¬ fresh' d →
      e ∈ (inode' d).dirents → e.name.isPlain = true → e.inum = 0) :
    Links strict inode' owed' fresh' := by
  refine ⟨fun {i} hi => ?_, fun hstrict {i} hi => ?_, fun hstrict {d e} hd => ?_⟩
  · rw [htype] at hi
    have := h.le hi
    have := hcount hi
    omega
  · rw [htype] at hi
    have := h.exact hstrict hi
    have := hcount hi
    omega
  · rw [htype] at hd
    exact hemptied hstrict hd

theorem Links.relink (hnlink : ∀ i, (inode' i).nlink = (inode i).nlink)
    (hcount : ∀ {i}, (inode i).type ≠ none → links inode' i + owed' i = links inode i + owed i)
    (hemptied : strict → ∀ {d e}, (inode d).type = some .dir → ¬ Attached inode' d → ¬ fresh' d →
      e ∈ (inode' d).dirents → e.name.isPlain = true → e.inum = 0) :
    Links strict inode' owed' fresh' :=
  h.change htype (fun {i} hi => by rw [hnlink i, hcount hi]) hemptied

end

/-! ### Only link counts change -/

theorem Tree.congr (h : Tree inode born clock fresh) (htype : ∀ i, (inode' i).type = (inode i).type)
    (hdirents : ∀ i, (inode' i).dirents = (inode i).dirents) : Tree inode' born clock fresh := by
  have hparent : ∀ i, (inode' i).parent = (inode i).parent := fun i => by
    rw [Dinode.parent, Dinode.parent, hdirents]
  have hnames : ∀ i, names inode' i = names inode i := fun i => by
    simp only [names, Dinode.names, hdirents]
  exact {
    zero := by rw [htype]; exact h.zero
    root := by rw [htype, hparent]; exact h.root
    flat := fun hd => by rw [hdirents]; exact h.flat (by rw [← htype]; exact hd)
    shape := fun {d} hd hfresh => by
      obtain ⟨p, rest, hx, hp, hrest⟩ := (h.shape (by rw [← htype]; exact hd) hfresh).dots
      exact ⟨p, rest, by rw [hdirents]; exact hx, hp, hrest⟩
    entry := fun he hne => by rw [htype]; exact h.entry (by rw [← hdirents]; exact he) hne
    child := fun he hplain hdir => by
      rw [hparent]
      exact h.child (by rw [← hdirents]; exact he) hplain (by rw [← htype]; exact hdir)
    single := fun hj => by rw [hnames]; exact h.single (by rw [← htype]; exact hj)
    begun := fun hd he => by
      rw [hparent]
      exact h.begun hd (by rw [← hdirents]; exact he)
    unnamed := fun hfresh he => h.unnamed hfresh (by rw [← hdirents]; exact he)
    born := h.born}

theorem Links.recount (h : Links strict inode owed fresh) {n : Nat}
    (howed : n + owed d = (inode d).nlink + owed' d) (hrest : ∀ i, i ≠ d → owed' i = owed i) :
    Links strict (update inode d {inode d with nlink := n}) owed' fresh := by
  have hdirents : ∀ i, (update inode d {inode d with nlink := n} i).dirents = (inode i).dirents :=
    Update.keeps Dinode.dirents rfl
  have hnames : ∀ i, names (update inode d {inode d with nlink := n}) i = names inode i := fun i => by
    simp only [names, Dinode.names, hdirents]
  have hlinks : ∀ i, links (update inode d {inode d with nlink := n}) i = links inode i :=
    fun i => links_congr (fun c => up_congr (hnames c) (by rw [Dinode.parent, Dinode.parent, hdirents]))
      (hnames i)
  refine h.change (Update.keeps Dinode.type rfl) (fun {i} _ => ?_)
    fun hstrict {c e} hc hattached hfresh he hplain => ?_
  · rw [hlinks]
    by_cases hid : i = d
    · subst hid
      simp only [update_self]
      omega
    · rw [update_of_ne hid, hrest i hid]
  · rw [hdirents] at he
    exact h.emptied hstrict hc (fun hatt => hattached ((attached_congr (hnames c)).mpr hatt)) hfresh he hplain

/-! ### A plain entry -/

section Entry

variable (h : Tree inode born clock fresh) (hdir : (inode d).type = some .dir) (hfresh : ¬ fresh d)
include h hdir hfresh

theorem Tree.parent_set (hoff : 2 ≤ off) (hplain : e.name.isPlain = true) (i : Inum) :
    (update inode d ((inode d).setDirent off e) i).parent = (inode i).parent := by
  exact Update.keeps Dinode.parent ((h.shape hdir hfresh).setDirent hoff fun _ => hplain).2 i

/-- A directory gets a plain entry, or loses one. -/
theorem Tree.set (hoff : 2 ≤ off) (hplain : e.name.isPlain = true)
    (htype : e.inum ≠ 0 → (inode e.inum).type ≠ none)
    (hchild : (inode e.inum).type = some .dir → (inode e.inum).parent = some d ∧ born d < born e.inum)
    (hsingle : ∀ {j}, (inode j).type = some .dir →
      names (update inode d ((inode d).setDirent off e)) j ≤ 1)
    (hnew : ∀ {i}, fresh' i → fresh i ∧ i ≠ e.inum)
    (hdone : ∀ {i}, (inode i).type = some .dir → ¬ fresh' i → ¬ fresh i ∨ (i ≠ d ∧ Shaped i (inode i))) :
    Tree (update inode d ((inode d).setDirent off e)) born clock fresh' := by
  have htypes : ∀ i, (update inode d ((inode d).setDirent off e) i).type = (inode i).type :=
    Update.keeps Dinode.type rfl
  have hparent := h.parent_set hdir hfresh hoff hplain
  have hmem : ∀ {i e'}, e' ∈ (update inode d ((inode d).setDirent off e) i).dirents →
      e' ∈ (inode i).dirents ∨ (i = d ∧ e' = e) := by
    intro i e' he'
    by_cases hi : i = d
    · subst hi
      rw [update_self] at he'
      exact (mem_setDirent he').imp_right fun heq => ⟨rfl, heq⟩
    · rw [update_of_ne hi] at he'
      exact .inl he'
  exact {
    zero := by rw [htypes]; exact h.zero
    root := by
      rw [htypes, hparent]
      exact ⟨h.root.1, fun hf => h.root.2.1 (hnew hf).1, h.root.2.2⟩
    flat := fun {i} hi => by
      rw [htypes] at hi
      have hid : i ≠ d := fun heq => hi (by rw [heq]; exact hdir)
      rw [update_of_ne hid]
      exact h.flat hi
    shape := fun {i} hi hf => by
      rw [htypes] at hi
      by_cases hid : i = d
      · subst hid
        rw [update_self]
        exact ((h.shape hdir hfresh).setDirent hoff fun _ => hplain).1
      · rw [update_of_ne hid]
        rcases hdone hi hf with hf | ⟨-, hshape⟩
        · exact h.shape hi hf
        · exact hshape
    entry := fun {i e'} he' hne => by
      rw [htypes]
      rcases hmem he' with he' | ⟨-, rfl⟩
      · exact h.entry he' hne
      · exact htype hne
    child := fun {i e'} he' hp hdir' => by
      rw [htypes] at hdir'
      rw [hparent]
      rcases hmem he' with he' | ⟨rfl, rfl⟩
      · exact h.child he' hp hdir'
      · exact hchild hdir'
    single := fun hj => hsingle (by rw [← htypes]; exact hj)
    begun := fun {i e'} hf he' => by
      rw [hparent]
      rcases hmem he' with he' | ⟨rfl, -⟩
      · exact h.begun (hnew hf).1 he'
      · exact absurd (hnew hf).1 hfresh
    unnamed := fun {i e'} hf he' => by
      rcases hmem he' with he' | ⟨-, rfl⟩
      · exact h.unnamed (hnew hf).1 he'
      · exact absurd rfl (hnew hf).2
    born := h.born}

end Entry

/-- `..` still counts as it did where no name has come or gone. -/
theorem Tree.up_rest (h : Tree inode born clock fresh) (hparent : ∀ i, (inode' i).parent = (inode i).parent)
    (hnames : ∀ b, b ≠ 0 → b ≠ c → names inode' b = names inode b) :
    ∀ b, b ≠ c → up inode' b = up inode b := by
  intro b hb
  by_cases hb0 : b = 0
  · subst hb0
    rw [h.up_zero, up, hparent, h.parent_of_flat (by rw [h.zero]; simp), ite_self]
  · exact up_congr (hnames b hb0 hb) (hparent b)

/-- The names of an inode when an empty slot is filled. -/
theorem names_fill (hname : name.isPlain = true) (hi : i ≠ 0) :
    names (update inode d ((inode d).setDirent (inode d).emptySlot ⟨name, c⟩)) i =
      names inode i + (if c = i then 1 else 0) := by
  have hupdate := names_update inode d i ((inode d).setDirent (inode d).emptySlot ⟨name, c⟩)
  have hcount : ((inode d).setDirent (inode d).emptySlot ⟨name, c⟩).names i =
      (inode d).names i + (if c = i then 1 else 0) := by
    rw [Dinode.names, countP_setDirent, Dinode.names]
    · simp [hname]
    · intro e' he'
      have hzero := emptySlot_zero he'
      simp [hzero, Ne.symm hi]
  omega

/-- The names of an inode when an entry is cleared. -/
theorem names_clear (hget : (inode d).dirents[off]? = some ⟨name, c⟩) (hname : name.isPlain = true)
    (hi : i ≠ 0) :
    names (update inode d ((inode d).setDirent off ⟨.plain 0, 0⟩)) i + (if c = i then 1 else 0) =
      names inode i := by
  have hupdate := names_update inode d i ((inode d).setDirent off ⟨.plain 0, 0⟩)
  have hcount : ((inode d).setDirent off ⟨.plain 0, 0⟩).names i + (if c = i then 1 else 0) =
      (inode d).names i := by
    have hclear := countP_clear (e := ⟨.plain 0, 0⟩) (fun e => e.inum = i ∧ e.name.isPlain = true) hget
      (by simp [Ne.symm hi])
    simpa [hname, Dinode.names] using hclear
  omega

/-- What a link is made to: a directory that is ready, or no directory. -/
structure Linkable (inode : Inum → Dinode) (born : Inum → Nat) (d c : Inum) : Prop where
  type : (inode c).type ≠ none
  ne : c ≠ d
  dir : (inode c).type = some .dir → names inode c = 0 ∧ (inode c).parent = some d ∧
    born d < born c ∧ Shaped c (inode c)

section Link

variable (h : Tree inode born clock fresh) (hdir : (inode d).type = some .dir) (hfresh : ¬ fresh d)
  (hname : name.isPlain = true)
include h hdir hfresh hname

theorem Tree.link (hc : Linkable inode born d c) (hnew : ∀ {i}, fresh' i → fresh i ∧ i ≠ c)
    (hdone : ∀ {i}, fresh i → fresh' i ∨ i = c) :
    Tree (update inode d ((inode d).setDirent (inode d).emptySlot ⟨name, c⟩)) born clock
      fresh' := by
  refine h.set hdir hfresh ((h.shape hdir hfresh).two_le_emptySlot (h.ne_zero_of_dir hdir)) hname (fun _ => hc.type)
    (fun hcd => ⟨(hc.dir hcd).2.1, (hc.dir hcd).2.2.1⟩) (fun {j} hj => ?_) hnew (fun {i} hi hf => ?_)
  · rw [names_fill hname (h.ne_zero_of_dir hj)]
    split
    · rename_i hcj
      subst hcj
      have := (hc.dir hj).1
      omega
    · rw [Nat.add_zero]
      exact h.single hj
  · by_cases hif : fresh i
    · obtain rfl := (hdone hif).resolve_left hf
      exact .inr ⟨hc.ne, (hc.dir hi).2.2.2⟩
    · exact .inl hif

/-- A link counts for the inode and, when that is a directory, for the one that has it. -/
theorem Tree.links_link (hc : Linkable inode born d c) (hi : i ≠ 0) :
    links (update inode d ((inode d).setDirent (inode d).emptySlot ⟨name, c⟩)) i =
      links inode i + (if c = i then 1 else 0) +
        (if (inode c).type = some .dir ∧ d = i then 1 else 0) := by
  have hparent := h.parent_set hdir hfresh (e := ⟨name, c⟩)
    ((h.shape hdir hfresh).two_le_emptySlot (h.ne_zero_of_dir hdir)) hname
  have hchange := links_change (h.up_rest hparent fun b hb0 hb => by
    rw [names_fill hname hb0, if_neg (Ne.symm hb), Nat.add_zero]) i
  rw [names_fill hname hi] at hchange
  by_cases hcd : (inode c).type = some .dir
  · obtain ⟨hzero, hpc, hborn, -⟩ := hc.dir hcd
    have hup : up inode c = none := by
      refine if_neg fun hatt => ?_
      rcases hatt with heq | hpos
      · exact h.child_ne_root hcd hpc hborn heq
      · rw [hzero] at hpos
        cases hpos
    have hup' : up (update inode d ((inode d).setDirent (inode d).emptySlot ⟨name, c⟩)) c =
        some d := by
      have hpos : 0 < names (update inode d
          ((inode d).setDirent (inode d).emptySlot ⟨name, c⟩)) c := by
        rw [names_fill hname (h.ne_zero hc.type), if_pos rfl]
        exact Nat.succ_pos _
      rw [up, if_pos (.inr hpos), hparent, hpc]
    rw [hup, hup'] at hchange
    simp only [reduceCtorEq, if_false, Option.some.injEq, hcd, true_and] at hchange ⊢
    omega
  · have hnone := h.parent_of_flat hcd
    have hup : up inode c = none := by rw [up, hnone, ite_self]
    have hup' : up (update inode d ((inode d).setDirent (inode d).emptySlot ⟨name, c⟩)) c =
        none := by rw [up, hparent, hnone, ite_self]
    rw [hup, hup'] at hchange
    simp only [reduceCtorEq, if_false, hcd, false_and] at hchange ⊢
    omega

theorem Links.link (hl : Links strict inode owed fresh) (hc : Linkable inode born d c)
    (hrule : strict → Attached inode d) (hnew : ∀ {i}, fresh' i → fresh i ∧ i ≠ c)
    (hdone : ∀ {i}, fresh i → fresh' i ∨ i = c)
    (howed : ∀ i, i ≠ 0 → owed i = owed' i + (if c = i then 1 else 0) +
      (if (inode c).type = some .dir ∧ d = i then 1 else 0)) :
    Links strict (update inode d ((inode d).setDirent (inode d).emptySlot ⟨name, c⟩)) owed'
      fresh' := by
  refine hl.relink (Update.keeps Dinode.type rfl) (Update.keeps Dinode.nlink rfl) (fun {i} hi => ?_)
    fun hstrict {b e} hb hatt hf he hplain => ?_
  · rw [h.links_link hdir hfresh hname hc (h.ne_zero hi)]
    have := howed i (h.ne_zero hi)
    omega
  · have hb0 : b ≠ 0 := h.ne_zero_of_dir hb
    have hbc : b ≠ c := fun heq => by
      subst heq
      refine hatt (.inr ?_)
      rw [names_fill hname hb0, if_pos rfl]
      omega
    have hold : ¬ Attached inode b := fun hold => by
      apply hatt ((attached_congr _).mpr hold)
      rw [names_fill hname hb0, if_neg (Ne.symm hbc), Nat.add_zero]
    have hbd : b ≠ d := fun heq => hold (heq ▸ hrule hstrict)
    rw [update_of_ne hbd] at he
    exact hl.emptied hstrict hb hold (fun hfb => (hdone hfb).elim hf hbc) he hplain

end Link

/-! ### An entry is cleared -/

section Unlink

variable (h : Tree inode born clock fresh) (hdir : (inode d).type = some .dir) (hfresh : ¬ fresh d)
  (hget : (inode d).dirents[off]? = some ⟨name, c⟩) (hname : name.isPlain = true)
include h hdir hfresh hget hname

omit hdir hfresh in
theorem Tree.child_of_get (hcd : (inode c).type = some .dir) :
    (inode c).parent = some d ∧ born d < born c ∧ c ≠ d ∧ c ≠ ROOTINO ∧ names inode c = 1 := by
  have hmem : (⟨name, c⟩ : Dirent) ∈ (inode d).dirents := List.mem_of_getElem? hget
  have hchild : (inode c).parent = some d ∧ born d < born c := h.child hmem hname hcd
  obtain ⟨hparent, hborn⟩ := hchild
  have hpos : 0 < names inode c := names_pos_iff.mpr ⟨d, _, hmem, rfl, hname⟩
  have hle := h.single hcd
  have hne : c ≠ d := fun heq => by
    subst heq
    omega
  exact ⟨hparent, hborn, hne, h.child_ne_root hcd hparent hborn, by omega⟩

theorem Tree.unlink (hzero : ¬ fresh 0) : Tree (update inode d ((inode d).setDirent off ⟨.plain 0, 0⟩)) born clock
    fresh := by
  refine h.set hdir hfresh ((h.shape hdir hfresh).two_le_of_plain hget hname) rfl
    (fun hne => absurd rfl hne) (fun hzero => ?_) (fun {j} hj => ?_) (fun {i} hf => ⟨hf, ?_⟩)
    (fun _ hf => .inl hf)
  · rw [h.zero] at hzero
    cases hzero
  · have := names_clear hget hname (h.ne_zero_of_dir hj)
    have := h.single hj
    omega
  · intro heq
    rw [heq] at hf
    exact hzero hf

theorem Tree.links_unlink (hi : i ≠ 0) :
    links (update inode d ((inode d).setDirent off ⟨.plain 0, 0⟩)) i + (if c = i then 1 else 0) +
        (if (inode c).type = some .dir ∧ d = i then 1 else 0) = links inode i := by
  have hparent := h.parent_set hdir hfresh (e := ⟨.plain 0, 0⟩)
    ((h.shape hdir hfresh).two_le_of_plain hget hname) rfl
  have hchange := links_change (h.up_rest hparent fun b hb0 hb => by
    have hclear := names_clear hget hname hb0
    rwa [if_neg (Ne.symm hb), Nat.add_zero] at hclear) i
  have hclear := names_clear hget hname hi
  by_cases hcd : (inode c).type = some .dir
  · obtain ⟨hpc, -, -, hroot, hone⟩ := h.child_of_get hget hname hcd
    have hup : up inode c = some d := by
      rw [up, if_pos (.inr (by omega)), hpc]
    have hup' : up (update inode d ((inode d).setDirent off ⟨.plain 0, 0⟩)) c = none := by
      have hnone := names_clear hget hname (h.ne_zero_of_dir hcd)
      rw [if_pos rfl] at hnone
      refine if_neg fun hatt => ?_
      rcases hatt with heq | hpos
      · exact hroot heq
      · omega
    rw [hup, hup'] at hchange
    simp only [reduceCtorEq, if_false, Option.some.injEq, hcd, true_and] at hchange ⊢
    omega
  · have hnone := h.parent_of_flat hcd
    have hup : up inode c = none := by rw [up, hnone, ite_self]
    have hup' : up (update inode d ((inode d).setDirent off ⟨.plain 0, 0⟩)) c = none := by
      rw [up, hparent, hnone, ite_self]
    rw [hup, hup'] at hchange
    simp only [reduceCtorEq, if_false, hcd, false_and] at hchange ⊢
    omega

theorem Links.unlink (hl : Links strict inode owed fresh)
    (hempty : strict → (inode c).type = some .dir → ∀ e ∈ (inode c).dirents,
      e.name.isPlain = true → e.inum = 0)
    (howed : ∀ i, i ≠ 0 → owed' i = owed i + (if c = i then 1 else 0) +
      (if (inode c).type = some .dir ∧ d = i then 1 else 0)) :
    Links strict (update inode d ((inode d).setDirent off ⟨.plain 0, 0⟩)) owed' fresh := by
  refine hl.relink (Update.keeps Dinode.type rfl) (Update.keeps Dinode.nlink rfl) (fun {i} hi => ?_)
    fun hstrict {b e} hb hatt hf he hplain => ?_
  · have := h.links_unlink hdir hfresh hget hname (h.ne_zero hi)
    have := howed i (h.ne_zero hi)
    omega
  · by_cases hbc : b = c
    · subst hbc
      rw [update_of_ne (h.child_of_get hget hname hb).2.2.1] at he
      exact hempty hstrict hb e he hplain
    · have hnames : names (update inode d ((inode d).setDirent off ⟨.plain 0, 0⟩)) b =
          names inode b := by
        have hclear := names_clear hget hname (h.ne_zero_of_dir hb)
        rwa [if_neg (Ne.symm hbc), Nat.add_zero] at hclear
      have hold : ¬ Attached inode b := fun hold => hatt ((attached_congr hnames).mpr hold)
      by_cases hbd : b = d
      · subst hbd
        rw [update_self] at he
        rcases mem_setDirent he with he | rfl
        · exact hl.emptied hstrict hb hold hf he hplain
        · rfl
      · rw [update_of_ne hbd] at he
        exact hl.emptied hstrict hb hold hf he hplain

end Unlink

/-! ### A directory that is being made -/

/-- What a directory has while it is made: `.`, and then `..`. -/
structure Begun (inode : Inum → Dinode) (fresh : Inum → Prop) (d : Inum) (l : List Dirent) : Prop where
  dots : l = [⟨.dot, d⟩] ∨
    ∃ p, l = [⟨.dot, d⟩, ⟨.dotdot, p⟩] ∧ (inode p).type ≠ none ∧ ¬ fresh p

section Dots

variable {l : List Dirent} (h : Tree inode born clock fresh) (hfresh : fresh d)
  (hl : Begun inode fresh d l)
include h hfresh hl

theorem Tree.names_dots (i : Inum) :
    names (update inode d {inode d with dirents := l}) i = names inode i := by
  have hupdate := names_update inode d i {inode d with dirents := l}
  have hold := h.names_of_fresh (i := i) hfresh
  have hnew : ({inode d with dirents := l} : Dinode).names i = 0 := by
    rcases hl.dots with rfl | ⟨p, rfl, -⟩ <;> simp [Dinode.names, Name.isPlain]
  omega

theorem Tree.links_dots (i : Inum) :
    links (update inode d {inode d with dirents := l}) i = links inode i := by
  have hnames := h.names_dots hfresh hl
  refine links_congr (fun b => ?_) (hnames i)
  by_cases hb : b = d
  · subst hb
    rw [h.up_of_fresh hfresh]
    exact if_neg fun hatt => h.not_attached_of_fresh hfresh ((attached_congr (hnames b)).mp hatt)
  · exact up_congr (hnames b) (by rw [update_of_ne hb])

theorem Tree.dots (hdir : (inode d).type = some .dir) :
    Tree (update inode d {inode d with dirents := l}) born clock fresh := by
  have hnames := h.names_dots hfresh hl
  have hne : ∀ {i}, i ≠ d → update inode d {inode d with dirents := l} i = inode i :=
    fun hi => update_of_ne hi _ _
  have htypes : ∀ i, (update inode d {inode d with dirents := l} i).type = (inode i).type :=
    Update.keeps Dinode.type rfl
  have hroot : ROOTINO ≠ d := fun heq => h.root.2.1 (heq ▸ hfresh)
  have hmem : ∀ {i e}, e ∈ (update inode d {inode d with dirents := l} i).dirents →
      (i ≠ d ∧ e ∈ (inode i).dirents) ∨ (i = d ∧ e ∈ l) := by
    intro i e he
    by_cases hi : i = d
    · subst hi
      rw [update_self] at he
      exact .inr ⟨rfl, he⟩
    · rw [hne hi] at he
      exact .inl ⟨hi, he⟩
  have hdots : ∀ {e}, e ∈ l → e = ⟨.dot, d⟩ ∨ (e.name = .dotdot ∧ (inode e.inum).type ≠ none ∧
      ¬ fresh e.inum ∧ ({inode d with dirents := l} : Dinode).parent = some e.inum) := by
    intro e he
    rcases hl.dots with rfl | ⟨p, rfl, htype, hp⟩
    · exact .inl (List.mem_singleton.mp he)
    · rcases List.mem_cons.mp he with rfl | he
      · exact .inl rfl
      · obtain rfl := List.mem_singleton.mp he
        exact .inr ⟨rfl, htype, hp, by simp [Dinode.parent]⟩
  have hplain : ∀ {e}, e ∈ l → e.name.isPlain = false := by
    intro e he
    rcases hdots he with rfl | ⟨hname, -⟩
    · rfl
    · rw [hname]
      rfl
  exact {
    zero := by rw [htypes]; exact h.zero
    root := by rw [hne hroot]; exact h.root
    flat := fun {i} hi => by
      rw [htypes] at hi
      rw [hne fun heq => hi (by rw [heq]; exact hdir)]
      exact h.flat hi
    shape := fun {i} hi hf => by
      rw [htypes] at hi
      rw [hne fun heq => hf (by rw [heq]; exact hfresh)]
      exact h.shape hi hf
    entry := fun {i e} he hz => by
      rw [htypes]
      rcases hmem he with ⟨-, he⟩ | ⟨-, he⟩
      · exact h.entry he hz
      · rcases hdots he with rfl | ⟨-, htype, -⟩
        · rw [hdir]
          simp
        · exact htype
    child := fun {i e} he hp hdir' => by
      rw [htypes] at hdir'
      rcases hmem he with ⟨-, he⟩ | ⟨-, he⟩
      · have hed : e.inum ≠ d := fun heq => by
          have hun := h.unnamed (by rw [heq]; exact hfresh) he
          rw [hun.2] at hp
          cases hp
        rw [hne hed]
        exact h.child he hp hdir'
      · rw [hplain he] at hp
        cases hp
    single := fun hj => by
      rw [hnames]
      exact h.single (by rw [← htypes]; exact hj)
    begun := fun {i e} hf he => by
      rcases hmem he with ⟨hi, hel⟩ | ⟨rfl, hel⟩
      · rw [hne hi]
        exact h.begun hf hel
      · rw [update_self]
        exact (hdots hel).imp_right fun hdot => ⟨hdot.1, hdot.2.2.2⟩
    unnamed := fun {i e} hf he => by
      rcases hmem he with ⟨-, hel⟩ | ⟨rfl, hel⟩
      · exact h.unnamed hf hel
      · rcases hdots hel with rfl | ⟨-, -, hnot, -⟩
        · exact ⟨rfl, rfl⟩
        · exact absurd hf hnot
    born := h.born}

theorem Links.dots (hlinks : Links strict inode owed fresh) :
    Links strict (update inode d {inode d with dirents := l}) owed fresh := by
  refine hlinks.relink (Update.keeps Dinode.type rfl) (Update.keeps Dinode.nlink rfl) (fun {i} _ => ?_)
    fun hstrict {b e} hb hatt hf he hplain => ?_
  · rw [h.links_dots hfresh hl]
  · rw [update_of_ne fun heq => hf (by rw [heq]; exact hfresh)] at he
    exact hlinks.emptied hstrict hb
      (fun hold => hatt ((attached_congr (h.names_dots hfresh hl b)).mpr hold)) hf he hplain

end Dots

/-! ### Inodes are allocated and freed -/

/-- Nothing leads to `i`, and it leads nowhere that counts. -/
structure Loose (inode : Inum → Dinode) (i : Inum) : Prop where
  entry : ∀ {d e}, d ≠ i → e ∈ (inode d).dirents → e.inum ≠ i
  root : i ≠ ROOTINO
  zero : i ≠ 0

section Replace

variable (h : Tree inode born clock fresh) (hi : Loose inode i) (hx : x.dirents = [])
include h hi hx

omit h hi hx in
theorem names_replace (inode : Inum → Dinode) (i : Inum) (hx : x.dirents = []) (j : Inum) :
    names (update inode i x) j + (inode i).names j = names inode j := by
  have hupdate := names_update inode i j x
  have hzero : x.names j = 0 := by rw [Dinode.names, hx]; rfl
  omega

omit h in
theorem mem_replace (he : e ∈ (update inode i x d).dirents) :
    d ≠ i ∧ e ∈ (inode d).dirents ∧ e.inum ≠ i := by
  by_cases hd : d = i
  · subst hd
    rw [update_self, hx] at he
    cases he
  · rw [update_of_ne hd] at he
    exact ⟨hd, he, hi.entry hd he⟩

omit h in
theorem up_replace (hup : up (update inode i x) d = some j) : up inode d = some j ∧ j ≠ i := by
  unfold up at hup
  split at hup
  · rename_i hatt
    obtain ⟨e, hfind, rfl⟩ := Option.map_eq_some_iff.mp hup
    obtain ⟨hd, he, hne⟩ := mem_replace hi hx (List.mem_of_find?_eq_some hfind)
    rw [update_of_ne hd] at hup
    have hle := names_replace inode i hx d
    have hold : Attached inode d := hatt.imp_right fun hpos => by omega
    rw [up, if_pos hold]
    exact ⟨hup, hne⟩
  · cases hup

theorem Tree.up_same (hempty : ∀ j, j ≠ 0 → (inode i).names j = 0) (d : Inum) :
    up (update inode i x) d = up inode d := by
  by_cases hd : d = i
  · subst hd
    have hnone : x.parent = none := by rw [Dinode.parent, hx]; rfl
    have hatt : ¬ Attached inode d := by
      intro hatt
      rcases hatt with heq | hpos
      · exact hi.root heq
      · obtain ⟨c, e, he, heq, hplain⟩ := names_pos_iff.mp hpos
        by_cases hc : c = d
        · subst hc
          have := List.countP_eq_zero.mp (hempty c hi.zero) e he
          simp [heq, hplain] at this
        · exact hi.entry hc he heq
    rw [up, up, if_neg hatt, update_self, hnone, ite_self]
  · by_cases hd0 : d = 0
    · subst hd0
      rw [h.up_zero, up, update_of_ne hd, h.parent_of_flat (by rw [h.zero]; simp), ite_self]
    · have hnames := names_replace inode i hx d
      rw [hempty d hd0, Nat.add_zero] at hnames
      exact up_congr hnames (by rw [update_of_ne hd])

/-- An inode that nothing leads to becomes another one, without entries. -/
theorem Tree.replace {born' : Inum → Nat} {clock' : Nat} (hborn : ∀ {j}, j ≠ i → born' j = born j)
    (hclock : ∀ j, born' j < clock') (hfresh : ∀ {j}, j ≠ i → (fresh' j ↔ fresh j))
    (hshape : x.type = some .dir → fresh' i) :
    Tree (update inode i x) born' clock' fresh' := by
  have hne : ∀ {j}, j ≠ i → update inode i x j = inode j := fun hj => update_of_ne hj _ _
  exact {
    zero := by rw [hne (Ne.symm hi.zero)]; exact h.zero
    root := by
      rw [hne (Ne.symm hi.root), hfresh (Ne.symm hi.root)]
      exact h.root
    flat := fun {d} hd => by
      by_cases hdi : d = i
      · subst hdi
        rw [update_self]
        exact hx
      · rw [hne hdi] at hd ⊢
        exact h.flat hd
    shape := fun {d} hd hf => by
      by_cases hdi : d = i
      · subst hdi
        rw [update_self] at hd
        exact absurd (hshape hd) hf
      · rw [hne hdi] at hd ⊢
        exact h.shape hd fun hfd => hf ((hfresh hdi).mpr hfd)
    entry := fun {d e} he hz => by
      obtain ⟨hd, he, hei⟩ := mem_replace hi hx he
      rw [hne hei]
      exact h.entry he hz
    child := fun {d e} he hp hdir => by
      obtain ⟨hd, he, hei⟩ := mem_replace hi hx he
      rw [hne hei] at hdir ⊢
      rw [hborn hd, hborn hei]
      exact h.child he hp hdir
    single := fun {j} hj => by
      by_cases hji : j = i
      · subst hji
        have hzero : names (update inode j x) j = 0 := by
          by_contra hpos
          obtain ⟨d, e, he, heq, -⟩ := names_pos_iff.mp (Nat.pos_of_ne_zero hpos)
          obtain ⟨hd, he, hei⟩ := mem_replace hi hx he
          exact hi.entry hd he heq
        omega
      · rw [hne hji] at hj
        have := names_replace inode i hx j
        have := h.single hj
        omega
    begun := fun {d e} hf he => by
      obtain ⟨hd, he, -⟩ := mem_replace hi hx he
      rw [hne hd]
      exact h.begun ((hfresh hd).mp hf) he
    unnamed := fun {d e} hf he => by
      obtain ⟨hd, he, hei⟩ := mem_replace hi hx he
      exact h.unnamed ((hfresh hei).mp hf) he
    born := hclock}

theorem Links.replace (hl : Links strict inode owed fresh) (hfresh : ∀ {j}, j ≠ i → (fresh' j ↔ fresh j))
    (hempty : strict → ∀ j, j ≠ 0 → (inode i).names j = 0)
    (hown : x.type ≠ none → owed i = 0 ∧ x.nlink = 0)
    (hshape : x.type = some .dir → fresh' i) :
    Links strict (update inode i x) owed fresh' := by
  have hne : ∀ {j}, j ≠ i → update inode i x j = inode j := fun hj => update_of_ne hj _ _
  have hnames := names_replace inode i hx
  have hself : links (update inode i x) i = 0 := by
    have hnone : names (update inode i x) i = 0 := by
      by_contra hpos
      obtain ⟨d, e, he, heq, -⟩ := names_pos_iff.mp (Nat.pos_of_ne_zero hpos)
      exact (mem_replace hi hx he).2.2 heq
    have hup : holders (up (update inode i x)) i = 0 := by
      apply Finset.card_eq_zero.mpr
      apply Finset.filter_eq_empty_iff.mpr
      intro d _ hd
      exact (up_replace hi hx hd).2 rfl
    rw [links, hnone, hup]
  have hle : ∀ j, links (update inode i x) j ≤ links inode j := fun j =>
    Nat.add_le_add (by have := hnames j; omega) (holders_mono fun d hd => (up_replace hi hx hd).1)
  have hsame : strict → ∀ j, j ≠ 0 → names (update inode i x) j = names inode j := by
    intro hstrict j hj
    have := hnames j
    have := hempty hstrict j hj
    omega
  refine ⟨fun {j} hj => ?_, fun hstrict {j} hj => ?_, fun hstrict {b e} hb hatt hf he hplain => ?_⟩
  · by_cases hji : j = i
    · subst hji
      rw [update_self] at hj ⊢
      have := hown hj
      omega
    · rw [hne hji] at hj ⊢
      have := hl.le hj
      have := hle j
      omega
  · by_cases hji : j = i
    · subst hji
      rw [update_self] at hj ⊢
      have := hown hj
      omega
    · rw [hne hji] at hj ⊢
      rw [links_congr (h.up_same hi hx (hempty hstrict)) (hsame hstrict j (h.ne_zero hj))]
      exact hl.exact hstrict hj
  · by_cases hbi : b = i
    · subst hbi
      rw [update_self] at hb
      exact absurd (hshape hb) hf
    · rw [hne hbi] at hb he
      have hnames := hsame hstrict b (h.ne_zero_of_dir hb)
      exact hl.emptied hstrict hb (fun hold => hatt ((attached_congr hnames).mpr hold)) (fun hfb => hf ((hfresh hbi).mpr hfb)) he hplain

end Replace

end ThreadKernel.Fs
