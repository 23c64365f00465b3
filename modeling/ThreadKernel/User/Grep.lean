import ThreadKernel.Library.Bytes

/-! `grep.c`: the matcher, and the loop that cuts the input into lines.

A string is the list of its characters, without the terminator; `[]` is a pointer at it. -/
namespace ThreadKernel.Grep

open Bytes

/-- A character that does not end a string. -/
abbrev Chr := {b : Byte // b ≠ 0}

def newline : Chr := ⟨10, by decide⟩
def dollar : Chr := ⟨36, by decide⟩
def star : Chr := ⟨42, by decide⟩
def dot : Chr := ⟨46, by decide⟩
def caret : Chr := ⟨94, by decide⟩

/-! ### The matcher -/

/-- `matchstar(c, re, text)`, where `here` is `matchhere(re, ·)`. -/
def matchstar (c : Chr) (here : List Chr → Bool) : List Chr → Bool
  | [] => here []
  | x :: text => here (x :: text) || ((x == c || c == dot) && matchstar c here text)

/-- The last test of `matchhere`, where `here` is `matchhere(re+1, ·)`. -/
def matchone (c : Chr) (here : List Chr → Bool) : List Chr → Bool
  | [] => false
  | x :: text => (c == dot || c == x) && here text

def matchhere : List Chr → List Chr → Bool
  | [], _ => true
  | [c], text => if c = dollar then text.isEmpty else matchone c (matchhere []) text
  | c :: d :: re, text =>
    if d = star then matchstar c (matchhere re) text else matchone c (matchhere (d :: re)) text

/-- The loop of `match`. -/
def matchany (here : List Chr → Bool) : List Chr → Bool
  | [] => here []
  | x :: text => here (x :: text) || matchany here text

/-- `match(re, text)`. -/
def matchRe (re text : List Chr) : Bool :=
  if re.head? = some caret then matchhere re.tail text else matchany (matchhere re) text

/-! ### The language of a pattern -/

inductive Atom where
  | any
  | lit (c : Chr)
  deriving DecidableEq

def Atom.Admits : Atom → Chr → Prop
  | .any, _ => True
  | .lit c, x => x = c

inductive Item where
  | one (a : Atom)
  | many (a : Atom)
  /-- The end of the text. -/
  | eot
  deriving DecidableEq

def atom (c : Chr) : Atom := if c = dot then .any else .lit c

/-- A pattern, read from left to right. -/
def items : List Chr → List Item
  | [] => []
  | [c] => if c = dollar then [.eot] else [.one (atom c)]
  | c :: d :: re => if d = star then .many (atom c) :: items re else .one (atom c) :: items (d :: re)

/-- The strings of a list of items, where `rest` follows in the text. -/
def Lang (rest : List Chr) : List Item → List Chr → Prop
  | [], w => w = []
  | .one a :: l, w => ∃ x v, w = x :: v ∧ a.Admits x ∧ Lang rest l v
  | .many a :: l, w => ∃ u v, w = u ++ v ∧ (∀ x ∈ u, a.Admits x) ∧ Lang rest l v
  | .eot :: l, w => w ++ rest = [] ∧ Lang rest l w

/-- The text begins with a string of the items. -/
def Begins (l : List Item) (text : List Chr) : Prop :=
  ∃ w rest, text = w ++ rest ∧ Lang rest l w

variable {a : Atom} {l : List Item} {here : List Chr → Bool} {c x : Chr} {text : List Chr}

theorem admits_atom : (atom c).Admits x ↔ c = dot ∨ c = x := by
  unfold atom
  split
  · rename_i hdot
    exact ⟨fun _ => .inl hdot, fun _ => trivial⟩
  · rename_i hdot
    exact ⟨fun h => .inr h.symm, fun h => (h.resolve_left hdot).symm⟩

theorem begins_one : Begins (.one a :: l) text ↔ ∃ x t, text = x :: t ∧ a.Admits x ∧ Begins l t := by
  constructor
  · rintro ⟨_, rest, rfl, x, v, rfl, hx, hv⟩
    exact ⟨x, v ++ rest, rfl, hx, v, rest, rfl, hv⟩
  · rintro ⟨x, _, rfl, hx, v, rest, rfl, hv⟩
    exact ⟨x :: v, rest, rfl, x, v, rfl, hx, hv⟩

theorem begins_many :
    Begins (.many a :: l) text ↔ ∃ u t, text = u ++ t ∧ (∀ x ∈ u, a.Admits x) ∧ Begins l t := by
  constructor
  · rintro ⟨_, rest, rfl, u, v, rfl, hu, hv⟩
    exact ⟨u, v ++ rest, List.append_assoc .., hu, v, rest, rfl, hv⟩
  · rintro ⟨u, _, rfl, hu, v, rest, rfl, hv⟩
    exact ⟨u ++ v, rest, (List.append_assoc ..).symm, u, v, rfl, hu, hv⟩

theorem begins_eot : Begins [.eot] text ↔ text = [] := by
  constructor
  · rintro ⟨w, rest, rfl, hend, -⟩
    exact hend
  · rintro rfl
    exact ⟨[], [], rfl, rfl, rfl⟩

theorem matchone_iff (hhere : ∀ t, here t = true ↔ Begins l t) :
    matchone c here text = true ↔ Begins (.one (atom c) :: l) text := by
  rw [begins_one]
  cases text with
  | nil => exact ⟨nofun, fun ⟨_, _, h, _⟩ => nomatch h⟩
  | cons x text =>
    simp only [matchone, Bool.and_eq_true, Bool.or_eq_true, beq_iff_eq, hhere, ← admits_atom]
    constructor
    · intro ⟨hx, h⟩
      exact ⟨x, text, rfl, hx, h⟩
    · rintro ⟨_, _, heq, hx, h⟩
      cases heq
      exact ⟨hx, h⟩

/-- `matchstar` passes over characters that `c` admits. -/
theorem matchstar_iff (hhere : ∀ t, here t = true ↔ Begins l t) :
    matchstar c here text = true ↔ Begins (.many (atom c) :: l) text := by
  rw [begins_many]
  induction text with
  | nil =>
    rw [matchstar, hhere]
    constructor
    · intro h
      exact ⟨[], [], rfl, nofun, h⟩
    · rintro ⟨u, t, heq, -, h⟩
      rwa [(List.append_eq_nil_iff.mp heq.symm).2] at h
  | cons x text ih =>
    simp only [matchstar, Bool.or_eq_true, Bool.and_eq_true, beq_iff_eq, ih, hhere]
    constructor
    · rintro (h | ⟨hx, u, t, rfl, hu, h⟩)
      · exact ⟨[], _, rfl, nofun, h⟩
      · refine ⟨x :: u, t, rfl, ?_, h⟩
        intro y hy
        rcases List.mem_cons.mp hy with rfl | hy
        · exact admits_atom.mpr (hx.symm.imp_right Eq.symm)
        · exact hu y hy
    · rintro ⟨u, t, heq, hu, h⟩
      cases u with
      | nil =>
        rw [heq]
        exact .inl h
      | cons y u =>
        cases heq
        have hx := admits_atom.mp (hu x List.mem_cons_self)
        exact .inr ⟨hx.symm.imp_left Eq.symm, u, t, rfl, fun y hy => hu y (List.mem_cons_of_mem _ hy), h⟩

theorem matchhere_iff (re text : List Chr) : matchhere re text = true ↔ Begins (items re) text := by
  induction re using items.induct generalizing text with
  | case1 => exact ⟨fun _ => ⟨[], text, rfl, rfl⟩, fun _ => rfl⟩
  | case2 =>
    rw [matchhere, items, if_pos rfl, if_pos rfl, begins_eot, List.isEmpty_iff]
  | case3 c hc =>
    rw [matchhere, items, if_neg hc, if_neg hc]
    exact matchone_iff fun t => ⟨fun _ => ⟨[], t, rfl, rfl⟩, fun _ => rfl⟩
  | case4 c re ih =>
    exact matchstar_iff ih
  | case5 c d re hd ih =>
    rw [matchhere, items, if_neg hd, if_neg hd]
    exact matchone_iff ih

theorem matchany_iff : matchany here text = true ↔ ∃ pre t, text = pre ++ t ∧ here t = true := by
  induction text with
  | nil => simp [matchany]
  | cons x text ih =>
    simp only [matchany, Bool.or_eq_true, ih]
    constructor
    · rintro (h | ⟨pre, t, rfl, h⟩)
      · exact ⟨[], _, rfl, h⟩
      · exact ⟨x :: pre, t, rfl, h⟩
    · rintro ⟨pre, t, heq, h⟩
      cases pre with
      | nil =>
        rw [heq]
        exact .inl h
      | cons y pre =>
        cases heq
        exact .inr ⟨pre, t, rfl, h⟩

/-- `match` returns 1 exactly when a part of the text, or the beginning of it after `^`, is in
the language of the pattern. -/
theorem matchRe_iff (re text : List Chr) :
    matchRe re text = true ↔
      if re.head? = some caret then ∃ w rest, text = w ++ rest ∧ Lang rest (items re.tail) w
      else ∃ pre w rest, text = pre ++ (w ++ rest) ∧ Lang rest (items re) w := by
  unfold matchRe
  split
  · exact matchhere_iff re.tail text
  · rw [matchany_iff]
    constructor
    · rintro ⟨pre, t, rfl, h⟩
      obtain ⟨w, rest, rfl, hw⟩ := (matchhere_iff re t).mp h
      exact ⟨pre, w, rest, rfl, hw⟩
    · rintro ⟨pre, w, rest, rfl, hw⟩
      exact ⟨pre, w ++ rest, rfl, (matchhere_iff re _).mpr ⟨w, rest, rfl, hw⟩⟩

/-! ### The loop -/

/-- `sizeof(buf)`. -/
abbrev BUFSZ : Nat := 1024

/-- `strchr(p, '\n')` again and again: the lines it finds, of which the first begins with
`line`, and what is left at `p`. -/
def cut (line : List Chr) : List Chr → List (List Chr) × List Chr
  | [] => ([], line)
  | x :: p =>
    if x = newline then Prod.map (line :: ·) id (cut [] p) else cut (line ++ [x]) p

/-- What `write` puts out of some lines. -/
def printed (re : List Chr) (lines : List (List Chr)) : List Chr :=
  (lines.filter (matchRe re)).flatMap (· ++ [newline])

/-- The first `m` bytes of `buf` before the next `read`: nothing if `p == buf`. -/
def kept (buf : List Chr) : List Chr :=
  if (cut [] buf).1 = [] then [] else (cut [] buf).2

/-- `grep(pattern, fd)`, where the calls of `read` return these bytes and then 0. -/
def grep (re : List Chr) (held : List Chr) : List (List Chr) → List Chr
  | [] => []
  | chunk :: reads =>
    printed re (cut [] (held ++ chunk)).1 ++ grep re (kept (held ++ chunk)) reads

/-- `read` returns something, and no more than it is asked for. -/
def Reads (held : List Chr) : List (List Chr) → Prop
  | [] => True
  | chunk :: reads =>
    chunk ≠ [] ∧ chunk.length ≤ BUFSZ - held.length - 1 ∧ Reads (kept (held ++ chunk)) reads

instance Reads.decide : (held : List Chr) → (reads : List (List Chr)) → Decidable (Reads held reads)
  | _, [] => instDecidableTrue
  | held, chunk :: reads =>
    have := Reads.decide (kept (held ++ chunk)) reads
    inferInstanceAs (Decidable (_ ∧ _ ∧ _))

def join (lines : List (List Chr)) : List Chr := lines.flatMap (· ++ [newline])

variable {re line p q held : List Chr} {lines reads : List (List Chr)}

theorem cut_fst_eq_nil : (cut line p).1 = [] ↔ newline ∉ p := by
  induction p generalizing line with
  | nil => simp [cut]
  | cons x p ih =>
    rw [cut]
    split
    · rename_i hx
      simp [hx]
    · rename_i hx
      simp [ih, Ne.symm hx]

theorem join_cut (line p : List Chr) : join (cut line p).1 ++ (cut line p).2 = line ++ p := by
  induction p generalizing line with
  | nil => simp [cut, join]
  | cons x p ih =>
    rw [cut]
    split
    · rename_i hx
      have hp : _ = p := ih []
      show (line ++ [newline]) ++ join (cut [] p).1 ++ (cut [] p).2 = line ++ x :: p
      rw [List.append_assoc, hp, hx, List.append_assoc]
      rfl
    · rw [ih, List.append_assoc]
      rfl

theorem newline_not_mem_cut (h : newline ∉ line) : newline ∉ (cut line p).2 := by
  induction p generalizing line with
  | nil => exact h
  | cons x p ih =>
    rw [cut]
    split
    · exact ih List.not_mem_nil
    · rename_i hx
      exact ih (by simp [h, Ne.symm hx])

theorem cut_of_not_mem (h : newline ∉ p) : cut line (p ++ q) = cut (line ++ p) q := by
  induction p generalizing line with
  | nil => simp
  | cons x p ih =>
    have hx : x ≠ newline := fun heq => h (heq ▸ List.mem_cons_self)
    rw [List.cons_append, cut, if_neg hx, ih fun hp => h (List.mem_cons_of_mem _ hp), List.append_assoc]
    rfl

/-- The lines of the whole are those of a part and of what is left with the rest. -/
theorem cut_append (h : newline ∉ line) :
    (cut line (p ++ q)).1 = (cut line p).1 ++ (cut [] ((cut line p).2 ++ q)).1 := by
  induction p generalizing line with
  | nil =>
    rw [List.nil_append, cut, cut_of_not_mem h]
    rfl
  | cons x p ih =>
    rw [List.cons_append, cut, cut]
    split
    · exact congrArg (line :: ·) (ih List.not_mem_nil)
    · rename_i hx
      exact ih (by simp [h, Ne.symm hx])

theorem cut_join (h : ∀ l ∈ lines, newline ∉ l) : (cut [] (join lines)).1 = lines := by
  induction lines with
  | nil => rfl
  | cons l lines ih =>
    have hl := h l List.mem_cons_self
    rw [join, List.flatMap_cons, List.append_assoc, cut_of_not_mem hl, List.singleton_append, cut,
      if_pos rfl]
    exact congrArg (l :: ·) (ih fun l hl => h l (List.mem_cons_of_mem _ hl))

theorem newline_not_mem_kept (buf : List Chr) : newline ∉ kept buf := by
  unfold kept
  split
  · exact List.not_mem_nil
  · exact newline_not_mem_cut List.not_mem_nil

theorem grep_of_newlines (hheld : newline ∉ held) (h : ∀ chunk ∈ reads, newline ∈ chunk) :
    grep re held reads = printed re (cut [] (held ++ reads.flatten)).1 := by
  induction reads generalizing held with
  | nil => rw [grep, List.flatten_nil, List.append_nil, cut_fst_eq_nil.mpr hheld]; rfl
  | cons chunk reads ih =>
    have hcut : (cut [] (held ++ chunk)).1 ≠ [] := fun heq =>
      cut_fst_eq_nil.mp heq (List.mem_append_right _ (h chunk List.mem_cons_self))
    have hkept : kept (held ++ chunk) = (cut [] (held ++ chunk)).2 := if_neg hcut
    rw [grep, ih (newline_not_mem_kept _) fun c hc => h c (List.mem_cons_of_mem _ hc), hkept,
      List.flatten_cons, ← List.append_assoc, cut_append (p := held ++ chunk) List.not_mem_nil]
    simp only [printed, List.filter_append, List.flatMap_append]

theorem matchRe_nil (text : List Chr) : matchRe [] text = true := by
  cases text <;> rfl

theorem printed_nil (lines : List (List Chr)) : printed [] lines = join lines := by
  rw [printed, List.filter_eq_self.mpr fun l _ => matchRe_nil l, join]

theorem length_cut (buf : List Chr) :
    (join (cut [] buf).1).length + (kept buf).length ≤ buf.length ∧
      (newline ∉ buf → (join (cut [] buf).1).length + (kept buf).length = 0) := by
  have hlen := congrArg List.length (join_cut [] buf)
  rw [List.length_append, List.nil_append] at hlen
  unfold kept
  split
  · rename_i hnil
    rw [hnil]
    exact ⟨Nat.zero_le _, fun _ => rfl⟩
  · rename_i hne
    exact ⟨Nat.le_of_eq hlen, fun h => absurd (cut_fst_eq_nil.mpr h) hne⟩

/-- With the empty pattern everything is written that is not dropped. -/
theorem length_grep_nil_le (held : List Chr) (reads : List (List Chr)) :
    (grep [] held reads).length ≤ (held ++ reads.flatten).length := by
  induction reads generalizing held with
  | nil => exact Nat.zero_le _
  | cons chunk reads ih =>
    have hcut := (length_cut (held ++ chunk)).1
    have hrest := ih (kept (held ++ chunk))
    simp only [grep, printed_nil, List.flatten_cons, List.length_append] at hcut hrest ⊢
    omega

theorem newlines_of_length (hheld : newline ∉ held) (hr : Reads held reads)
    (h : (held ++ reads.flatten).length ≤ (grep [] held reads).length) :
    ∀ chunk ∈ reads, newline ∈ chunk := by
  induction reads generalizing held with
  | nil => nofun
  | cons chunk reads ih =>
    obtain ⟨hne, -, hr⟩ := hr
    have hpos := List.length_pos_iff.mpr hne
    have hcut := length_cut (held ++ chunk)
    have hrest := length_grep_nil_le (kept (held ++ chunk)) reads
    simp only [grep, printed_nil, List.flatten_cons, List.length_append] at h hcut hrest
    have hmem : newline ∈ chunk := by
      by_contra hnot
      have := hcut.2 fun hm => (List.mem_append.mp hm).elim hheld hnot
      omega
    intro c hc
    rcases List.mem_cons.mp hc with rfl | hc
    · exact hmem
    · refine ih (newline_not_mem_kept _) hr ?_ c hc
      simp only [List.length_append]
      omega

/-- However `read` cuts the lines, `grep` writes those that match, for every pattern, exactly
when there is a newline in everything that `read` returns. -/
theorem grep_prints_iff (hlines : ∀ l ∈ lines, newline ∉ l) (hr : Reads [] reads)
    (hin : reads.flatten = join lines) :
    (∀ re, grep re [] reads = printed re lines) ↔ ∀ chunk ∈ reads, newline ∈ chunk := by
  constructor
  · intro h
    refine newlines_of_length List.not_mem_nil hr ?_
    exact Nat.le_of_eq (by rw [h [], printed_nil, List.nil_append, hin])
  · intro h re
    rw [grep_of_newlines List.not_mem_nil h, List.nil_append, hin, cut_join hlines]

def letter : Chr := ⟨97, by decide⟩

/-- Two lines, which `read` returns one after the other. -/
theorem grep_prints_each_line :
    grep [letter] [] [[letter, newline], [dot, newline]] = printed [letter] [[letter], [dot]] :=
  (grep_prints_iff (by decide) (by decide) (by decide)).mpr (by decide) [letter]

/-- A line in one piece is written; in two pieces, the first of which has no newline, it is lost. -/
theorem grep_drops_piece :
    Reads [] [[letter, dot, newline]] ∧ Reads [] [[letter], [dot, newline]] ∧
      grep [letter] [] [[letter, dot, newline]] = [letter, dot, newline] ∧
      grep [letter] [] [[letter], [dot, newline]] = [] := by
  decide

end ThreadKernel.Grep
