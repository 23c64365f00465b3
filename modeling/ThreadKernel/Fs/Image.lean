import ThreadKernel.Fs.Safety

/-! The image that `mkfs` makes meets the invariant.

The root is the only directory; its entries are `.`, `..`, one for each file, and empty
ones up to the end of a block. -/
namespace ThreadKernel.Fs

open Refcount Interleave

variable {i d : Inum} {e : Dirent} {n : Nat} {l : List Nat}

namespace Image

theorem mem_dirents (hl : n + l.length ≤ NINODES) (he : e ∈ dirents n l) :
    e.name.isPlain = true ∧ n ≤ e.inum.val ∧ e.inum.val < n + l.length := by
  induction l generalizing n with
  | nil => cases he
  | cons m l ih =>
    simp only [List.length_cons] at hl
    rcases List.mem_cons.mp he with rfl | he
    · have hval : (Fin.ofNat NINODES n).val = n := Nat.mod_eq_of_lt (by omega)
      simp only [hval, List.length_cons]
      exact ⟨rfl, le_rfl, by omega⟩
    · obtain ⟨hplain, hle, hlt⟩ := ih (by omega) he
      simp only [List.length_cons]
      exact ⟨hplain, by omega, by omega⟩

theorem countP_dirents (hl : n + l.length ≤ NINODES) (i : Inum) :
    (dirents n l).countP (fun e => e.inum = i ∧ e.name.isPlain = true) =
      if n ≤ i.val ∧ i.val < n + l.length then 1 else 0 := by
  induction l generalizing n with
  | nil =>
    rw [if_neg (by simp)]
    rfl
  | cons m l ih =>
    simp only [List.length_cons] at hl ⊢
    have hval : (Fin.ofNat NINODES n).val = n := Nat.mod_eq_of_lt (by omega)
    have hiff : Fin.ofNat NINODES n = i ↔ n = i.val := by
      rw [Fin.ext_iff, hval]
    rw [dirents, List.countP_cons, ih (by omega)]
    simp only [hiff, Name.isPlain, and_true, decide_eq_true_eq]
    split <;> split <;> split <;> omega

variable (img : Image)

theorem root_names (hi : i ≠ 0) :
    img.root.names i = if 2 ≤ i.val ∧ i.val < 2 + img.files.length then 1 else 0 := by
  have hfits := img.fits
  have hpad : (List.replicate (padding (img.files.length + 2)) (⟨.plain 0, 0⟩ : Dirent)).countP
      (fun e => e.inum = i ∧ e.name.isPlain = true) = 0 := by
    apply List.countP_eq_zero.mpr
    intro e he
    rw [List.eq_of_mem_replicate he]
    simp [Ne.symm hi]
  show List.countP _ (⟨.dot, ROOTINO⟩ :: ⟨.dotdot, ROOTINO⟩ :: (dirents 2 img.files ++ _)) = _
  rw [List.countP_cons, List.countP_cons, List.countP_append, hpad, countP_dirents (by omega)]
  simp [Name.isPlain]

theorem mem_root (he : e ∈ img.root.dirents) :
    e = ⟨.dot, ROOTINO⟩ ∨ e = ⟨.dotdot, ROOTINO⟩ ∨
      (e.name.isPlain = true ∧ (e.inum = 0 ∨ (2 ≤ e.inum.val ∧ e.inum.val < 2 + img.files.length))) := by
  have hfits := img.fits
  rcases List.mem_cons.mp he with rfl | he
  · exact .inl rfl
  rcases List.mem_cons.mp he with rfl | he
  · exact .inr (.inl rfl)
  rcases List.mem_append.mp he with he | he
  · obtain ⟨hplain, hrange⟩ := mem_dirents (by omega) he
    exact .inr (.inr ⟨hplain, .inr hrange⟩)
  · rw [List.eq_of_mem_replicate he]
    exact .inr (.inr ⟨rfl, .inl rfl⟩)

theorem inode_root : img.inode ROOTINO = img.root := if_pos rfl

theorem inode_file (hle : 2 ≤ i.val) (hlt : i.val < 2 + img.files.length) :
    img.inode i = ⟨some .file, 1, []⟩ := by
  have hne : i ≠ ROOTINO := fun heq => by
    rw [heq] at hle
    exact absurd hle (by decide)
  rw [inode, if_neg hne, if_pos ⟨hle, by omega⟩]

theorem inode_cases (i : Inum) : (i = ROOTINO ∧ img.inode i = img.root) ∨
    (2 ≤ i.val ∧ i.val < 2 + img.files.length ∧ img.inode i = ⟨some .file, 1, []⟩) ∨
    (i ≠ ROOTINO ∧ ¬ (2 ≤ i.val ∧ i.val < 2 + img.files.length) ∧ img.inode i = ⟨none, 0, []⟩) := by
  by_cases hroot : i = ROOTINO
  · exact .inl ⟨hroot, by rw [hroot]; exact img.inode_root⟩
  · by_cases hfile : 2 ≤ i.val ∧ i.val < 2 + img.files.length
    · exact .inr (.inl ⟨hfile.1, hfile.2, img.inode_file hfile.1 hfile.2⟩)
    · refine .inr (.inr ⟨hroot, hfile, ?_⟩)
      rw [inode, if_neg hroot, if_neg (by omega)]

theorem dirents_of_ne (hi : i ≠ ROOTINO) : (img.inode i).dirents = [] := by
  rcases img.inode_cases i with ⟨heq, -⟩ | ⟨-, -, hfile⟩ | ⟨-, -, hnone⟩
  · exact absurd heq hi
  · rw [hfile]
  · rw [hnone]

theorem dir_iff : (img.inode i).type = some .dir ↔ i = ROOTINO := by
  rcases img.inode_cases i with ⟨heq, hroot⟩ | ⟨hle, -, hfile⟩ | ⟨hne, -, hnone⟩
  · exact ⟨fun _ => heq, fun _ => by rw [hroot]; rfl⟩
  · rw [hfile]
    refine ⟨nofun, fun heq => ?_⟩
    rw [heq] at hle
    exact absurd hle (by decide)
  · rw [hnone]
    exact ⟨nofun, fun heq => absurd heq hne⟩

theorem names_inode (i : Inum) : names img.inode i = img.root.names i := by
  unfold names
  rw [Finset.sum_eq_single ROOTINO]
  · rw [inode_root]
  · intro d _ hd
    rw [Dinode.names, img.dirents_of_ne hd]
    rfl
  · exact fun hnot => absurd (Finset.mem_univ _) hnot

theorem root_parent : img.root.parent = some ROOTINO := rfl

theorem tree : Tree img.inode (fun _ => 0) 1 (fun _ => False) := by
  have hroot := img.inode_root
  have hmem : ∀ {d e}, e ∈ (img.inode d).dirents → d = ROOTINO ∧ e ∈ img.root.dirents := by
    intro d e he
    by_cases hd : d = ROOTINO
    · rw [hd, hroot] at he
      exact ⟨hd, he⟩
    · rw [img.dirents_of_ne hd] at he
      cases he
  have hplain : ∀ {e}, e ∈ img.root.dirents → e.name.isPlain = true → e.inum ≠ ROOTINO := by
    intro e he hp heq
    rcases img.mem_root he with rfl | rfl | ⟨-, hzero | ⟨hle, -⟩⟩
    · cases hp
    · cases hp
    · rw [hzero] at heq
      cases heq
    · rw [heq] at hle
      exact absurd hle (by decide)
  exact {
    zero := by
      rcases img.inode_cases 0 with ⟨heq, -⟩ | ⟨hle, -⟩ | ⟨-, -, hnone⟩
      · cases heq
      · exact absurd hle (by decide)
      · rw [hnone]
    root := by
      exact ⟨rfl, id, img.root_parent⟩
    flat := fun {d} hd => img.dirents_of_ne fun heq => hd (img.dir_iff.mpr heq)
    shape := fun {d} hd _ => by
      obtain rfl := img.dir_iff.mp hd
      refine ⟨ROOTINO, _, rfl, by decide, fun e he hne => ?_⟩
      rcases List.mem_append.mp he with he | he
      · exact (mem_dirents (by have := img.fits; omega) he).1
      · rw [List.eq_of_mem_replicate he]
        rfl
    entry := fun {d e} he hne => by
      rcases img.mem_root (hmem he).2 with rfl | rfl | ⟨-, hzero | ⟨hle, hlt⟩⟩
      · rw [hroot]
        nofun
      · rw [hroot]
        nofun
      · exact absurd hzero hne
      · rw [img.inode_file hle hlt]
        nofun
    child := fun {d e} he hp hdir => absurd (img.dir_iff.mp hdir) (hplain (hmem he).2 hp)
    single := fun {j} hj => by
      obtain rfl := img.dir_iff.mp hj
      rw [names_inode, root_names _ (by decide), if_neg fun h => absurd h.1 (by decide)]
      exact Nat.zero_le _
    begun := nofun
    unnamed := nofun
    born := fun _ => Nat.one_pos}

theorem up_inode (d : Inum) : up img.inode d = if d = ROOTINO then some ROOTINO else none := by
  unfold up
  by_cases hd : d = ROOTINO
  · rw [if_pos hd, if_pos (.inl hd), hd, inode_root]
    exact img.root_parent
  · rw [if_neg hd, Dinode.parent, img.dirents_of_ne hd]
    exact ite_self _

theorem links_inode (hi : (img.inode i).type ≠ none) : links img.inode i = (img.inode i).nlink := by
  have hi0 : i ≠ 0 := fun heq => hi (by rw [heq]; exact img.tree.zero)
  have hup : holders (up img.inode) i = if i = ROOTINO then 1 else 0 := by
    unfold holders
    by_cases heq : i = ROOTINO
    · rw [if_pos heq, Finset.card_eq_one]
      refine ⟨ROOTINO, ?_⟩
      ext d
      simp [up_inode, heq]
    · rw [if_neg heq, Finset.card_eq_zero, Finset.filter_eq_empty_iff]
      intro d _ hd
      rw [up_inode] at hd
      split at hd
      · exact heq (Option.some.inj hd).symm
      · cases hd
  rw [links, names_inode, root_names _ hi0, hup]
  rcases img.inode_cases i with ⟨heq, hroot⟩ | ⟨hle, hlt, hfile⟩ | ⟨-, -, hnone⟩
  · rw [hroot, if_pos heq, heq, if_neg fun h => absurd h.1 (by decide)]
    rfl
  · have hne : i ≠ ROOTINO := fun heq => by
      rw [heq] at hle
      exact absurd hle (by decide)
    rw [if_pos ⟨hle, hlt⟩, if_neg hne, hfile]
  · rw [hnone] at hi
    exact absurd rfl hi

theorem boot_inv (strict careful : Prop) : Inv strict careful (fun _ => .idle) img.boot where
  each := fun t => {
    known := by rintro _ _ ⟨⟩
    keys := List.nodup_nil
    locked := by rintro _ ⟨⟩
    refs := by rintro _ ⟨⟩
    window := by rintro _ ⟨⟩
    loaded := by rintro _ ⟨⟩
    made := by rintro _ _ ⟨⟩
    file := by rintro _ ⟨⟩
    credit := by rintro _ ⟨⟩
    doomed := by rintro _ ⟨⟩
    spare := by rintro _ ⟨⟩
    dying := by rintro _ ⟨⟩
    wants := rfl
    asks := by rintro _ _ ⟨⟩
    leaving := rfl
    left := by rintro _ ⟨⟩}
  book := by
    refine ⟨fun {t} => ?_, fun {t} => ?_, fun {t t'} _ => ?_, fun {t} => ?_, fun i => ?_⟩
    · cases t <;> rintro _ _ ⟨⟩
    · cases t <;> rintro _ ⟨⟩
    · cases t <;> rintro _ ⟨⟩
    · cases t <;> rintro _ ⟨⟩
    · have hgap : ∀ t, ((book (fun _ => .idle) img.boot).hand t).gap = none := fun t => by cases t <;> rfl
      have hcounted : (book (fun _ => .idle) img.boot).counted i = if i = ROOTINO then {0} else ∅ := by
        ext p
        rw [Book.mem_counted]
        simp only [hgap]
        show _ ∧ (if p = 0 then some ROOTINO else none) = some i ∧ _ ↔ _
        by_cases hi : i = ROOTINO
        · by_cases hp : p = 0 <;> simp [hi, hp, book]
        · by_cases hp : p = 0 <;> simp [hi, hp, Ne.symm hi]
      have hsum : ∑ t, ((book (fun _ => .idle) img.boot).hand t).refs.count i = 0 :=
        Finset.sum_eq_zero fun t _ => by cases t <;> rfl
      rw [hcounted, hsum]
      show (if i = ROOTINO then 1 else 0) = _
      split <;> rfl
  alloc := {
    opened := by rintro _ ⟨⟩
    cwd := fun {p i} hp _ => by
      have hp : (if p = 0 then some ROOTINO else none) = some i := hp
      split at hp
      · cases hp
        show (img.inode ROOTINO).type ≠ none
        rintro ⟨⟩
      · cases hp
    alone := by intros; contradiction
    once := by intros; contradiction
    shut := by rintro _ _ _ ⟨⟩
    away := by intros; contradiction
    dying := by rintro _ _ ⟨⟩}
  tree := by
    have hfresh : fresh (fun _ => .idle) = fun _ => False := by
      funext i
      exact eq_false (by rintro ⟨_, _, ⟨⟩⟩)
    rw [hfresh]
    exact img.tree
  links := by
    have howed : ∀ i, owed (fun _ => .idle) i = 0 := fun i => Finset.sum_eq_zero fun _ _ => rfl
    refine ⟨fun {i} hi => ?_, fun _ {i} hi => ?_, fun _ {d e} hd hatt _ _ _ => ?_⟩
    · rw [howed, Nat.add_zero]
      exact (img.links_inode hi).le
    · rw [howed, Nat.add_zero]
      exact img.links_inode hi
    · exact absurd (.inl (img.dir_iff.mp hd)) hatt
  kept := fun _ => by
    have hpos : ∀ {i}, (img.inode i).type ≠ none → (img.inode i).nlink ≠ 0 := by
      intro i hi
      rcases img.inode_cases i with ⟨-, hroot⟩ | ⟨-, -, hfile⟩ | ⟨-, -, hnone⟩
      · rw [hroot]
        rintro ⟨⟩
      · rw [hfile]
        rintro ⟨⟩
      · rw [hnone] at hi
        exact absurd rfl hi
    exact ⟨fun hi hzero _ => absurd hzero (hpos hi), fun hi hzero _ => absurd hzero (hpos hi)⟩
  calm := by rintro ⟨⟩
  quiet := fun _ _ _ _ _ _ hi => by cases hi

end Image

end ThreadKernel.Fs
