import ThreadKernel.Fs.Image

/-! What holds of names along runs of calls.

Two things go wrong with `..`. A directory that has been removed keeps its entries while
somebody has it open or is in it; its `..` is no longer counted as a link, so what it names
may be freed before it, and allocated again. And threads of one process share `cwd`: one
may change it, and drop the reference, while another has read it and has no reference of
its own yet. Runs that avoid both keep the directories a tree. -/
namespace ThreadKernel.Fs

open Refcount Interleave Lts

variable {R : Rule Op State Slot Call} {img : Image} {h : List (Move Slot Call)}
  {s : Pool Op Op.Ans Panic State Slot} {γ : Slot → Ghost} {i d : Inum}

/-- `cwd` is not read while another thread of the process relies on it, and `iput` frees no
inode that `..` of another directory names. -/
def keepsUp (s : State) (t : Slot) : Op → Prop
  | .readCwd => ∀ p ∈ s.owner t, ∀ q, q ≠ t → s.owner q = some p → s.reading q = false
  | .readRef i => (s.inode i).nlink = 0 → s.ref i = 1 →
    ∀ d, d ≠ i → (s.inode d).type = some .dir → (s.inode d).parent ≠ some i
  | _ => True

instance (s : State) (t : Slot) (o : Op) : Decidable (keepsUp s t o) := by
  apply @Op.casesOn _ o <;> intros <;> dsimp only [keepsUp] <;> infer_instance

def treeRule : Rule Op State Slot Call := ⟨keepsUp, fun _ _ _ => True⟩

instance (s : State) (t : Slot) (o : Op) : Decidable (treeRule.op s t o) :=
  inferInstanceAs (Decidable (keepsUp s t o))

instance (s : State) (t : Slot) (c : Call) : Decidable (treeRule.call s t c) :=
  inferInstanceAs (Decidable True)

theorem treeRule_lawful : Lawful False False treeRule where
  cwd := fun hrule howner hq hown => hrule _ howner _ hq hown
  sole := fun hrule hnlink href hd hdir => hrule hnlink href _ hd hdir
  spare := nofun
  attached := nofun
  quiet := nofun

theorem Run.inv {strict careful : Prop} (hR : Lawful strict careful R)
    (hr : Run (Guarded system.Step R.Keeps) (.start img.boot) h s) :
    ∃ γ, Inv strict careful γ s.shared ∧ ∀ t, s.Idle t → γ t = .idle := by
  obtain ⟨γ, hI, hsafe⟩ := System.run_safe (O := outline strict careful) (img.boot_inv strict careful)
    (fun _ _ _ hcall => code_ok hR hcall) hr
  exact ⟨γ, hI, fun t hidle => (hsafe t).idle_eq hidle⟩

/-! ### Entries name inodes that are allocated -/

def bare : Image := ⟨[], by decide⟩

def dirPath : Path := ⟨true, [.plain 1]⟩

def subPath : Path := ⟨true, [.plain 1, .plain 2]⟩

/-- The thread that kills the others of its process: `exec` does at its start, and `exit` at
its end, when `cwd` is gone. -/
def killer (s : Pool Op Op.Ans Panic State Slot) : Move Slot Call → Option Slot
  | .call t (.exec _) => some t
  | .call _ _ => none
  | .go t =>
    if (s.prog t).next = some .leave ∧ (s.shared.owner t).bind s.shared.cwd = none then some t
    else none

/-- None of those is in a call: a thread that is killed there keeps its locks and its
references. -/
def SparesCalls (s : Pool Op Op.Ans Panic State Slot) (m : Move Slot Call) : Prop :=
  ∀ t ∈ killer s m, ∀ q, q ≠ t → s.shared.owner q = s.shared.owner t → s.Idle q

instance (s : Pool Op Op.Ans Panic State Slot) (m : Move Slot Call) : Decidable (SparesCalls s m) :=
  inferInstanceAs (Decidable (∀ _ ∈ _, _))

def restRule (s : Pool Op Op.Ans Panic State Slot) (m : Move Slot Call) : Prop :=
  treeRule.Keeps s m ∧ SparesCalls s m

instance (s : Pool Op Op.Ans Panic State Slot) (m : Move Slot Call) : Decidable (restRule s m) :=
  inferInstanceAs (Decidable (_ ∧ _))

/-- What entries lead to from the root. -/
inductive Reaches (inode : Inum → Dinode) : Inum → Prop where
  | root : Reaches inode ROOTINO
  | entry {d : Inum} {e : Dirent} (hd : Reaches inode d) (he : e ∈ (inode d).dirents)
    (hne : e.inum ≠ 0) : Reaches inode e.inum

/-- The same, without `.` and `..`. -/
inductive Descends (inode : Inum → Dinode) : Inum → Prop where
  | root : Descends inode ROOTINO
  | entry {d : Inum} {e : Dirent} (hd : Descends inode d) (he : e ∈ (inode d).dirents)
    (hne : e.inum ≠ 0) (hplain : e.name.isPlain = true) : Descends inode e.inum

theorem Descends.reaches {inode : Inum → Dinode} (hd : Descends inode d) : Reaches inode d := by
  induction hd with
  | root => exact .root
  | entry _ he hne _ ih => exact .entry ih he hne

section Tree

variable {strict careful : Prop} {s : State} (hI : Inv strict careful γ s)
include hI

/-- The entry that leads to a directory is the only one, and is in its parent. -/
theorem Inv.descends (hd : Descends s.inode d) (hdir : (s.inode d).type = some .dir) :
    ¬ fresh γ d ∧ (d = ROOTINO ∨ ∃ p, Descends s.inode p ∧ (s.inode d).parent = some p ∧
      (s.inode p).names d = 1 ∧ names s.inode d = 1) := by
  cases hd with
  | root => exact ⟨hI.tree.root.2.1, .inl rfl⟩
  | entry hc he hne hp =>
    rename_i c e
    have hparent := (hI.tree.child he hp hdir).1
    have hpos : 0 < (s.inode c).names e.inum := by
      apply List.countP_pos_iff.mpr
      exact ⟨e, he, decide_eq_true ⟨rfl, hp⟩⟩
    have hle := hI.tree.single hdir
    have hsum : (s.inode c).names e.inum ≤ names s.inode e.inum :=
      Finset.single_le_sum (f := fun d => (s.inode d).names e.inum) (fun _ _ => Nat.zero_le _)
        (Finset.mem_univ c)
    refine ⟨fun hf => ?_, .inr ⟨c, hc, hparent, by omega, by omega⟩⟩
    rw [(hI.tree.unnamed hf he).2] at hp
    cases hp

/-- `.` and `..` lead to no other directories. -/
theorem Inv.descends_of_reaches (hd : Reaches s.inode d) : Descends s.inode d := by
  induction hd with
  | root => exact .root
  | entry hc he hne ih =>
    have hdir := hI.tree.dir_of_entry he
    obtain ⟨hfresh, hup⟩ := hI.descends ih hdir
    rcases (hI.tree.shape hdir hfresh).entry he hne with hp | rfl | ⟨-, hparent⟩
    · exact .entry ih he hne hp
    · exact ih
    · rcases hup with rfl | ⟨p, hp, hpc, -⟩
      · rw [hI.tree.root.2.2] at hparent
        rw [← Option.some.inj hparent]
        exact ih
      · rw [hpc] at hparent
        rw [← Option.some.inj hparent]
        exact hp

end Tree

/-- Every directory that is reachable has `.` and `..` first, and but for the root is named
by one other entry, which is in its parent; `unlink` clears no entry of a directory that has
more. -/
theorem directory_tree (hr : Run (Guarded system.Step treeRule.Keeps) (.start img.boot) h s) :
    (∀ d, Reaches s.shared.inode d → (s.shared.inode d).type = some .dir →
      ∃ p, (s.shared.inode d).dirents[0]? = some ⟨.dot, d⟩ ∧
        (s.shared.inode d).dirents[1]? = some ⟨.dotdot, p⟩ ∧
        (d = ROOTINO → p = ROOTINO) ∧
        (d ≠ ROOTINO → Reaches s.shared.inode p ∧ (s.shared.inode p).names d = 1 ∧
          names s.shared.inode d = 1)) ∧
    ∀ t d off e e', (s.prog t).next = some (.writei d off e) → e.inum = 0 →
      (s.shared.inode d).dirents[off]? = some e' → (s.shared.inode e'.inum).type = some .dir →
      (s.shared.inode e'.inum).isEmpty = true := by
  obtain ⟨γ, hI, -⟩ := Run.inv treeRule_lawful hr
  refine ⟨fun d hd hdir => ?_, fun t d off e e' hnext hzero hget hdir => ?_⟩
  · obtain ⟨hfresh, hup⟩ := hI.descends (hI.descends_of_reaches hd) hdir
    obtain ⟨p, rest, hx, -, -⟩ := (hI.tree.shape hdir hfresh).dots
    have hparent : (s.shared.inode d).parent = some p := by simp [Dinode.parent, hx]
    refine ⟨p, by rw [hx]; rfl, by rw [hx]; rfl, fun heq => ?_, fun hne => ?_⟩
    · subst heq
      rw [hI.tree.root.2.2] at hparent
      exact (Option.some.inj hparent).symm
    · obtain ⟨p', hp, hpd, hnames⟩ := hup.resolve_left hne
      rw [hparent] at hpd
      cases hpd
      exact ⟨hp.reaches, hnames⟩
  · have hassert := System.run_asserts (O := outline False False) (img.boot_inv False False)
      (fun _ _ _ hcall => code_ok treeRule_lawful hcall) hr hnext trivial
    exact hassert hzero e' hget hdir

/-- `unlink` is about to clear the entry for `/a/g`. -/
theorem directory_tree_unlink : ∃ h s,
    Run (Guarded system.Step treeRule.Keeps) (.start bare.boot) h s ∧
    (s.shared.inode 3).dirents[1]? = some ⟨.dotdot, 2⟩ ∧ names s.shared.inode 3 = 1 ∧
    (s.shared.inode 3).isEmpty = true := by
  have hrun := system.exists_of_moves treeRule bare.boot
    (Move.calls 0 (Call.mkdir dirPath) 39 ++ Move.calls 0 (Call.mkdir subPath) 52 ++
      Move.calls 0 (Call.unlink subPath) 27)
    (P := fun s => (s.prog 0).next = some (.writei 2 2 ⟨.plain 0, 0⟩) ∧
      ⟨.plain 1, 2⟩ ∈ (s.shared.inode 1).dirents ∧ ⟨.plain 2, 3⟩ ∈ (s.shared.inode 2).dirents ∧
      (s.shared.inode 2).dirents[2]? = some ⟨.plain 2, 3⟩ ∧
      (s.shared.inode 3).dirents[1]? = some ⟨.dotdot, 2⟩ ∧
      (s.shared.inode 3).type = some .dir) (by decide +kernel)
  obtain ⟨h, s, hr, hnext, ha, hg, hget, hup, hdir⟩ := hrun
  have hreach : Reaches s.shared.inode 3 := .entry (.entry .root ha (by decide)) hg (by decide)
  obtain ⟨htree, hempty⟩ := directory_tree hr
  obtain ⟨p, -, -, -, hparent⟩ := htree 3 hreach hdir
  exact ⟨h, s, hr, hup, (hparent (by decide)).2.2, hempty 0 2 2 _ _ hnext rfl hget hdir⟩

/-- `open` of `/a/g/../b` is in `/a/g` when that and `/a` are removed; a `mkdir` gets the
inode of `/a`, and before it locks it, `b` is made there. -/
theorem first_entry_taken : ∃ h s, Run system.Step (.start bare.boot) h s ∧
    s.shared.panic = none ∧ (∀ t, t ≤ 1 → s.Idle t) ∧ Reaches s.shared.inode 2 ∧
    (s.shared.inode 2).type = some .dir ∧
    (s.shared.inode 2).dirents = [⟨.plain 4, 3⟩, ⟨.dot, 2⟩, ⟨.dotdot, 1⟩] := by
  obtain ⟨h, s, hr, hpanic, hidle, hx, hdir, hentries⟩ := system.reaches_of_moves bare.boot
    (Move.calls 0 (Call.mkdir dirPath) 39 ++ Move.calls 0 (Call.mkdir subPath) 52 ++
      Move.calls 0 (Call.fork 1 1) 3 ++
      Move.calls 1 (Call.opens ⟨true, [.plain 1, .plain 2, .dotdot, .plain 4]⟩ true false true) 25 ++
      Move.calls 0 (Call.unlink subPath) 43 ++ Move.calls 0 (Call.unlink dirPath) 32 ++
      Move.calls 0 (Call.mkdir ⟨true, [.plain 3]⟩) 13 ++ List.replicate 43 (Move.go 1) ++
      List.replicate 26 (Move.go 0))
    (P := fun s => s.shared.panic = none ∧ (∀ t, t ≤ 1 → s.Idle t) ∧
      ⟨.plain 3, 2⟩ ∈ (s.shared.inode 1).dirents ∧ (s.shared.inode 2).type = some .dir ∧
      (s.shared.inode 2).dirents = [⟨.plain 4, 3⟩, ⟨.dot, 2⟩, ⟨.dotdot, 1⟩]) (by decide +kernel)
  exact ⟨h, s, hr, hpanic, hidle, .entry .root hx (by decide), hdir, hentries⟩

end ThreadKernel.Fs
