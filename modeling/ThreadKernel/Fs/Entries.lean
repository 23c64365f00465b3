import ThreadKernel.Fs.Calls
import ThreadKernel.Library.Refcount
import ThreadKernel.Library.Update

/-! Directory entries, and how many name an inode.

A directory that is made has `.` and `..` in its first two slots; all other entries have
plain names. A directory is attached when a plain entry names it, or when it is the root.
The links of an inode are the plain entries that name it and the attached directories
whose `..` does. -/
namespace ThreadKernel.Fs

open Refcount Function

variable {l : List Dirent} {name : Name} {off : Nat} {e : Dirent} {i j d p : Inum} {x : Dinode}
  {e' : Dirent}

/-! ### Loops over the entries -/

theorem scan_some (h : scan name l = some (off, i)) :
    i ≠ 0 ∧ l[off]? = some ⟨name, i⟩ := by
  induction l generalizing off with
  | nil => cases h
  | cons e es ih =>
    unfold scan at h
    split at h
    · rename_i he
      cases h
      obtain ⟨hne, rfl⟩ := he
      exact ⟨hne, rfl⟩
    · obtain ⟨⟨off', i'⟩, hscan, heq⟩ := Option.map_eq_some_iff.mp h
      cases heq
      obtain ⟨hne, hget⟩ := ih hscan
      exact ⟨hne, by simpa using hget⟩

theorem scan_none (h : scan name l = none) (he : e ∈ l) (hne : e.inum ≠ 0) : e.name ≠ name := by
  induction l with
  | nil => cases he
  | cons e' es ih =>
    unfold scan at h
    split at h
    · cases h
    · rename_i hnot
      rcases List.mem_cons.mp he with rfl | he
      · exact fun hname => hnot ⟨hne, hname⟩
      · exact ih (Option.map_eq_none_iff.mp h) he

theorem emptySlot_zero (h : x.dirents[x.emptySlot]? = some e) : e.inum = 0 := by
  obtain ⟨hlt, rfl⟩ := List.getElem?_eq_some_iff.mp h
  exact of_decide_eq_true (List.findIdx_getElem (w := hlt))

/-! ### One entry is written -/

theorem mem_setDirent (h : e' ∈ (x.setDirent off e).dirents) :
    e' ∈ x.dirents ∨ e' = e := by
  unfold Dinode.setDirent at h
  split at h
  · exact List.mem_or_eq_of_mem_set h
  · rcases List.mem_append.mp h with h | h
    · exact .inl h
    · exact .inr (List.mem_singleton.mp h)

/-- The entries of some kind, when one is written over an entry or at the end. -/
theorem countP_setDirent (P : Dirent → Bool) (hold : ∀ e', x.dirents[off]? = some e' → P e' = false) :
    (x.setDirent off e).dirents.countP P = x.dirents.countP P + (if P e then 1 else 0) := by
  unfold Dinode.setDirent
  split
  · rename_i hlt
    have hget : P x.dirents[off] = false := hold _ (List.getElem?_eq_getElem hlt)
    rw [List.countP_set hlt, hget]
    simp
  · simp [List.countP_append]

theorem countP_clear (P : Dirent → Bool) (hget : x.dirents[off]? = some e') (he : P e = false) :
    (x.setDirent off e).dirents.countP P + (if P e' then 1 else 0) = x.dirents.countP P := by
  obtain ⟨hlt, rfl⟩ := List.getElem?_eq_some_iff.mp hget
  unfold Dinode.setDirent
  simp only [hlt, if_true]
  rw [List.countP_set hlt, he]
  have hpos : P x.dirents[off] = true → 0 < x.dirents.countP P := fun h =>
    List.countP_pos_iff.mpr ⟨_, List.getElem_mem hlt, h⟩
  split
  · have := hpos ‹_›
    simp
    omega
  · simp

/-! ### Directories that are made -/

/-- `..` -/
def Dinode.parent (x : Dinode) : Option Inum :=
  (x.dirents.find? fun e => e.name = .dotdot).map Dirent.inum

structure Shaped (d : Inum) (x : Dinode) : Prop where
  dots : ∃ p rest, x.dirents = ⟨.dot, d⟩ :: ⟨.dotdot, p⟩ :: rest ∧ p ≠ 0 ∧
    ∀ e ∈ rest, e.inum ≠ 0 → e.name.isPlain = true

namespace Shaped

section
variable (h : Shaped d x)
include h

/-- What is not plain is `.` and names the directory, or is `..`. -/
theorem entry (he : e ∈ x.dirents) (hne : e.inum ≠ 0) :
    e.name.isPlain = true ∨ e = ⟨.dot, d⟩ ∨ (e.name = .dotdot ∧ x.parent = some e.inum) := by
  obtain ⟨p, rest, hx, -, hrest⟩ := h.dots
  rw [hx] at he
  rcases List.mem_cons.mp he with rfl | he
  · exact .inr (.inl rfl)
  · rcases List.mem_cons.mp he with rfl | he
    · exact .inr (.inr ⟨rfl, by simp [Dinode.parent, hx]⟩)
    · exact .inl (hrest e he hne)

/-- Looking up `.` or `..` finds it. -/
theorem scan_plain (hd : d ≠ 0) (hscan : scan name x.dirents = none) :
    name.isPlain = true := by
  obtain ⟨p, rest, hx, hp, -⟩ := h.dots
  cases name with
  | plain n => rfl
  | dot => exact absurd rfl (scan_none hscan (e := ⟨.dot, d⟩) (by simp [hx]) hd)
  | dotdot => exact absurd rfl (scan_none hscan (e := ⟨.dotdot, p⟩) (by simp [hx]) hp)

theorem two_le_of_plain (hget : x.dirents[off]? = some e)
    (hplain : e.name.isPlain = true) : 2 ≤ off := by
  obtain ⟨p, rest, hx, -, -⟩ := h.dots
  rw [hx] at hget
  match off with
  | 0 =>
    cases hget
    cases hplain
  | 1 =>
    cases hget
    cases hplain
  | n + 2 => omega

theorem two_le_emptySlot (hd : d ≠ 0) : 2 ≤ x.emptySlot := by
  obtain ⟨p, rest, hx, hp, -⟩ := h.dots
  simp [Dinode.emptySlot, hx, List.findIdx_cons, hd, hp]

/-- A plain entry, or an empty one, after the first two. -/
theorem setDirent (hoff : 2 ≤ off) (he : e.inum ≠ 0 → e.name.isPlain = true) :
    Shaped d (x.setDirent off e) ∧ (x.setDirent off e).parent = x.parent := by
  obtain ⟨p, rest, hx, hp, hrest⟩ := h.dots
  obtain ⟨n, rfl⟩ := Nat.exists_eq_add_of_le' hoff
  have hnew : (x.setDirent (n + 2) e).dirents = ⟨.dot, d⟩ :: ⟨.dotdot, p⟩ ::
      ((⟨none, 0, rest⟩ : Dinode).setDirent n e).dirents := by
    unfold Dinode.setDirent
    simp only [hx, List.length_cons]
    by_cases hlt : n < rest.length
    · rw [if_pos (by omega), if_pos hlt]
      rfl
    · rw [if_neg (by omega), if_neg hlt]
      rfl
  refine ⟨⟨p, _, hnew, hp, fun e' he' hne => ?_⟩, by simp [Dinode.parent, hnew, hx]⟩
  rcases mem_setDirent he' with he' | rfl
  · exact hrest e' he' hne
  · exact he hne

theorem empty (hempty : x.isEmpty = true) (he : e ∈ x.dirents)
    (hplain : e.name.isPlain = true) : e.inum = 0 := by
  obtain ⟨p, rest, hx, -, -⟩ := h.dots
  rw [hx] at he
  rcases List.mem_cons.mp he with rfl | he
  · cases hplain
  · rcases List.mem_cons.mp he with rfl | he
    · cases hplain
    · have hall : ∀ e ∈ rest, e.inum = 0 := by simpa [Dinode.isEmpty, hx] using hempty
      exact hall e he

end

end Shaped

/-! ### Counting -/

def Dinode.names (x : Dinode) (i : Inum) : Nat :=
  x.dirents.countP fun e => e.inum = i ∧ e.name.isPlain = true

/-- The plain entries that name `i`. -/
def names (inode : Inum → Dinode) (i : Inum) : Nat := ∑ d, (inode d).names i

def Attached (inode : Inum → Dinode) (d : Inum) : Prop := d = ROOTINO ∨ 0 < names inode d

instance (inode : Inum → Dinode) (d : Inum) : Decidable (Attached inode d) :=
  inferInstanceAs (Decidable (_ ∨ _))

/-- What `..` of an attached directory names. -/
def up (inode : Inum → Dinode) (d : Inum) : Option Inum :=
  if Attached inode d then (inode d).parent else none

def links (inode : Inum → Dinode) (i : Inum) : Nat := names inode i + holders (up inode) i

variable {inode inode' : Inum → Dinode}

theorem names_update (inode : Inum → Dinode) (d i : Inum) (x : Dinode) :
    names (update inode d x) i + (inode d).names i = names inode i + x.names i := by
  have hnew := Finset.add_sum_erase Finset.univ
    (fun c => (update inode d x c).names i) (Finset.mem_univ d)
  have hold := Finset.add_sum_erase Finset.univ (fun c => (inode c).names i) (Finset.mem_univ d)
  have hrest : ∑ c ∈ Finset.univ.erase d, (update inode d x c).names i =
      ∑ c ∈ Finset.univ.erase d, (inode c).names i := by
    refine Finset.sum_congr rfl fun c hc => ?_
    rw [update_of_ne (Finset.ne_of_mem_erase hc)]
  simp only [update_self] at hnew
  unfold names
  omega

theorem names_pos_iff : 0 < names inode i ↔
    ∃ d e, e ∈ (inode d).dirents ∧ e.inum = i ∧ e.name.isPlain = true := by
  unfold names
  rw [Finset.sum_pos_iff]
  simp only [Finset.mem_univ, true_and, Dinode.names, List.countP_pos_iff, decide_eq_true_eq]

theorem names_pos (he : e ∈ (inode d).dirents) (hplain : e.name.isPlain = true) :
    0 < names inode e.inum :=
  names_pos_iff.mpr ⟨d, e, he, rfl, hplain⟩

theorem attached_congr (h : names inode' d = names inode d) : Attached inode' d ↔ Attached inode d := by
  unfold Attached
  rw [h]

theorem up_congr (hnames : names inode' d = names inode d)
    (hparent : (inode' d).parent = (inode d).parent) : up inode' d = up inode d := by
  unfold up
  rw [hparent]
  simp only [attached_congr hnames]

theorem links_congr (hup : ∀ d, up inode' d = up inode d) (hnames : names inode' i = names inode i) :
    links inode' i = links inode i := by
  rw [links, links, hnames, funext hup]

/-- `..` of one directory counts that did not, or the other way round. -/
theorem links_change (hup : ∀ d, d ≠ j → up inode' d = up inode d) (i : Inum) :
    links inode' i + names inode i + (if up inode j = some i then 1 else 0) =
      links inode i + names inode' i + (if up inode' j = some i then 1 else 0) := by
  have := holders_update j hup i
  unfold links
  omega

theorem names_le_links (inode : Inum → Dinode) (i : Inum) : names inode i ≤ links inode i :=
  Nat.le_add_right _ _

theorem links_pos_of_up (h : up inode d = some i) : 0 < links inode i := by
  have := holders_pos h
  unfold links
  omega

end ThreadKernel.Fs
