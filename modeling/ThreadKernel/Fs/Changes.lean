import ThreadKernel.Fs.Locks
import ThreadKernel.Fs.Tree

/-! Operations that change inodes.

What a thread changes it has locked, but for an inode that it allocates, which nothing
leads to. A link is counted before there is an entry for it, and counted down after the
entry is gone; in between it is a credit of the thread. -/
namespace ThreadKernel.Fs

open Refcount Interleave Function

variable {strict careful : Prop} {γ : Slot → Ghost} {s s' : State} {t q : Slot} {g g' : Ghost}
  {i j c d m : Inum} {p : Share} {x y : Dinode} {k : Kind} {name : Name} {off n : Nat}
  {rest : List (Inum × Dinode)} {credits : List Inum} {made : Option (Inum × Kind)}
  {file : Option Inum}

theorem owed_change (i : Inum) :
    owed (update γ t g') i + (γ t).credits.count i = owed γ i + g'.credits.count i := by
  have hnew := Finset.add_sum_erase Finset.univ
    (fun q => (update γ t g' q).credits.count i) (Finset.mem_univ t)
  have hold := Finset.add_sum_erase Finset.univ (fun q => (γ q).credits.count i) (Finset.mem_univ t)
  have hrest : ∑ q ∈ Finset.univ.erase t, (update γ t g' q).credits.count i =
      ∑ q ∈ Finset.univ.erase t, (γ q).credits.count i := by
    apply Finset.sum_congr rfl
    intro q hq
    rw [update_of_ne (Finset.ne_of_mem_erase hq)]
  simp only [update_self] at hnew
  unfold owed
  omega

/-! ### A locked inode changes -/

section Rewrite

theorem Local.rewrite (hl : Local s t g) (hready : g.stage = .ready)
    (hperm : g.known.Perm ((d, x) :: rest)) (htype : y.type = x.type)
    (hmade : ∀ m, made = some m → g.made = some m)
    (hfile : ∀ i, file = some i → i ∈ g.refs ∧ (s.inode i).type ≠ some .dir ∧ i ∈ credits)
    (hcredit : ∀ i ∈ credits, i ∈ g.keys ∨ file = some i) :
    Local (s.setInode d y) t
      {g with known := (d, y) :: rest, credits := credits, made := made, file := file} := by
  have hd : (d, x) ∈ g.known := hperm.mem_iff.mpr List.mem_cons_self
  obtain ⟨hlock, hinode, hsome, href, hdead⟩ := hl.known hd
  obtain ⟨hrest, -, -⟩ := known_rest hl hperm
  have hkeys : g.keys.Perm (d :: rest.map Prod.fst) := hperm.map Prod.fst
  have hne : ∀ {i}, i ≠ d → (s.setInode d y).inode i = s.inode i := fun hi => update_of_ne hi _ _
  have hself : (s.setInode d y).inode d = y := update_self ..
  have htypes : ∀ i, ((s.setInode d y).inode i).type = (s.inode i).type :=
    Update.keeps Dinode.type (by rw [hinode, htype])
  exact {hl with
    known := fun {i z} hz => by
      rcases List.mem_cons.mp hz with heq | hz
      · cases heq
        exact ⟨hlock, hself, by rw [htype]; exact hsome, href, hdead⟩
      · obtain ⟨hlocki, hinodei, hrest'⟩ := hl.known (hrest _ hz).1
        exact ⟨hlocki, by rw [hne (hrest _ hz).2]; exact hinodei, hrest'⟩
    keys := hkeys.nodup_iff.mp hl.keys
    locked := fun hi => (hl.locked hi).imp_left hkeys.mem_iff.mp
    refs := fun hi => by
      rw [htypes]
      exact hl.refs hi
    loaded := fun hi => ⟨hkeys.mem_iff.mp (hl.loaded hi).1, (hl.loaded hi).2⟩
    made := fun {m k} hm => by
      obtain ⟨htypem, hblank, hborn⟩ := hl.made (hmade _ hm)
      refine ⟨by rw [htypes]; exact htypem, fun hkey => ?_, fun j hj hji => hborn j (hkeys.mem_iff.mpr hj) hji⟩
      have hmd : m ≠ d := fun heq => hkey (heq ▸ List.mem_cons_self)
      rw [hne hmd]
      exact hblank fun hm => hkey (hkeys.mem_iff.mp hm)
    file := fun {i} hi => by
      obtain ⟨hrefi, htypei, hcrediti⟩ := hfile i hi
      exact ⟨hrefi, by rw [Ghost.dead_eq, hready]; nofun, by rw [htypes]; exact htypei, hcrediti⟩
    credit := fun {i} hi => (hcredit i hi).imp_left hkeys.mem_iff.mp
    doomed := fun hi => by rw [hready] at hi; cases hi
    spare := fun hi => by rw [hready] at hi; cases hi
    asks := fun hi => by rw [hready] at hi; cases hi}

variable (h : Inv strict careful γ s) (hready : (γ t).stage = .ready)
  (hperm : (γ t).known.Perm ((d, x) :: rest))
include h hready hperm

theorem Inv.alloc_rewrite (htype : y.type = x.type) (hhand : g'.hand = (γ t).hand)
    (hstage : g'.stage = (γ t).stage)
    (hmade : g'.made = (γ t).made ∨ (g'.made = none ∧ ∀ m k, (γ t).made = some (m, k) → m ∈ (γ t).keys)) :
    Alloc (update γ t g') (s.setInode d y) := by
  have hinode := ((h.each t).known (hperm.mem_iff.mpr List.mem_cons_self)).2.1
  have htypes : ∀ i, ((s.setInode d y).inode i).type = (s.inode i).type :=
    Update.keeps Dinode.type (by rw [hinode, htype])
  have hhands := Update.keeps Ghost.hand hhand
  have hstages := Update.keeps Ghost.stage hstage
  have hold : ∀ {q m}, (update γ t g' q).made = some m → (γ q).made = some m := by
    intro q m hm
    rcases hmade with hmade | ⟨hnone, -⟩
    · rw [Update.keeps Ghost.made hmade] at hm
      exact hm
    · by_cases hq : q = t
      · rw [hq, update_self, hnone] at hm
        cases hm
      · rw [update_of_ne hq] at hm
        exact hm
  refine ⟨fun hi => ?_, fun hp hgap => ?_, fun {u q i k} hm hq hi => ?_, fun hm hm' => ?_, fun hm => ?_,
    fun hm hp => ?_, fun {q i} hq => ?_⟩
  · rw [htypes]
    exact h.alloc.opened hi
  · rw [htypes]
    exact h.alloc.cwd hp fun q => by rw [← hhands q]; exact hgap q
  · rw [Ghost.refs, hhands q] at hi
    rw [Ghost.dead_eq, hstages q]
    exact h.alloc.alone (hold hm) hq hi
  · exact h.alloc.once (hold hm) (hold hm')
  · exact h.alloc.shut (hold hm)
  · obtain ⟨q, hq⟩ := h.alloc.away (hold hm) hp
    exact ⟨q, by rw [hhands q]; exact hq⟩
  · rw [hstages q] at hq
    rw [htypes]
    rcases h.alloc.dying hq with hnone | ⟨u, k, hu⟩
    · exact .inl hnone
    · refine .inr ⟨u, k, ?_⟩
      by_cases hut : u = t
      · subst hut
        rw [update_self]
        rcases hmade with hmade | ⟨-, hkeys⟩
        · rw [hmade]
          exact hu
        · -- the lock of what is being made would be that of the thread that has freed it
          have hlock := (h.each q).dying hq
          rw [(h.key_cases (hkeys i k hu)).1] at hlock
          cases hlock
          rw [hready] at hq
          cases hq
      · rw [update_of_ne hut]
        exact hu

theorem Inv.rewrite (htype : y.type = x.type)
    (hparent : ∀ i, y.parent = some i → x.parent = some i ∨ i ∈ (γ t).keys)
    (hmade : made = (γ t).made ∨ (made = none ∧ ∀ m k, (γ t).made = some (m, k) → m ∈ (γ t).keys))
    (hfile : ∀ i, file = some i → i ∈ (γ t).refs ∧ (s.inode i).type ≠ some .dir ∧ i ∈ credits)
    (hcredit : ∀ i ∈ credits, i ∈ (γ t).keys ∨ file = some i)
    (hg : g' = {γ t with known := (d, y) :: rest, credits := credits, made := made, file := file})
    (htree : Tree (update s.inode d y) s.born s.clock (fresh (update γ t g')))
    (hlinks : Links strict (update s.inode d y) (owed (update γ t g'))
      (fresh (update γ t g')))
    (hkept : strict → Kept (s.setInode d y) (fresh (update γ t g'))) :
    Inv strict careful (update γ t g') (s.setInode d y) := by
  subst hg
  have hl := h.each t
  have hd : (d, x) ∈ (γ t).known := hperm.mem_iff.mpr List.mem_cons_self
  have hkey : d ∈ (γ t).keys := Ghost.mem_keys.mpr ⟨x, hd⟩
  have hinode := (hl.known hd).2.1
  have hne : ∀ {i}, i ≠ d → (s.setInode d y).inode i = s.inode i := fun hi => update_of_ne hi _ _
  have hself : (s.setInode d y).inode d = y := update_self ..
  have hturn : Turn γ t s (s.setInode d y) := by
    refine {inode := fun {i} _ hi => ?_, type := fun {i q} _ _ _ => ⟨?_, rfl⟩, parent := fun {c i} hc => ?_}
    · exact ⟨hne fun heq => hi (heq ▸ hkey), rfl⟩
    · exact Update.keeps Dinode.type (by rw [hinode, htype]) i
    · by_cases hcd : c = d
      · rw [hcd, hself] at hc
        rw [hcd, hinode]
        exact hparent i hc
      · rw [hne hcd] at hc
        exact .inl hc
  have hold : ∀ m, made = some m → (γ t).made = some m := by
    intro m hm
    rcases hmade with hmade | ⟨hnone, -⟩
    · rw [← hmade]
      exact hm
    · rw [hnone] at hm
      cases hm
  refine h.move hturn (hl.rewrite hready hperm htype hold hfile hcredit) ?_
    (h.alloc_rewrite hready hperm htype rfl rfl hmade) htree hlinks hkept rfl (.inl (by rw [hready]; rfl))
  exact h.book_same rfl rfl rfl rfl

end Rewrite

/-- What has links, or is as it was, is no more left behind than before. -/
theorem Kept.rewrite {fresh fresh' : Inum → Prop} (hk : Kept s fresh)
    (htype : ∀ j, ((s.setInode d y).inode j).type = (s.inode j).type)
    (hnlink : ∀ j, (s.inode j).type ≠ none → ¬ fresh' j → ((s.setInode d y).inode j).nlink = 0 →
      ((s.inode j).nlink = 0 ∧ ¬ fresh j) ∨ (leavers s j < s.ref j ∧ s.valid j = true)) :
    Kept (s.setInode d y) fresh' := by
  refine ⟨fun {j} hj hzero hfresh => ?_, fun {j} hj hzero hfresh => ?_⟩
  · rw [htype] at hj
    rcases hnlink j hj hfresh hzero with ⟨hold, hnot⟩ | ⟨hlt, -⟩
    · exact hk.kept hj hold hnot
    · exact hlt
  · rw [htype] at hj
    rcases hnlink j hj hfresh hzero with ⟨hold, hnot⟩ | ⟨-, hvalid⟩
    · exact hk.valid hj hold hnot
    · exact hvalid

namespace Inv

section Locked

variable (h : Inv strict careful γ s) (hready : (γ t).stage = .ready)
  (hperm : (γ t).known.Perm ((d, x) :: rest))
include h hready hperm

omit hready in
theorem inode_eq : s.inode d = x := ((h.each t).known (hperm.mem_iff.mpr List.mem_cons_self)).2.1

omit h hready in
theorem key_head : d ∈ (γ t).keys := Ghost.mem_keys.mpr ⟨x, hperm.mem_iff.mpr List.mem_cons_self⟩

omit hready in
theorem type_setInode (htype : y.type = x.type) (i : Inum) :
    ((s.setInode d y).inode i).type = (s.inode i).type :=
  Update.keeps Dinode.type (by rw [h.inode_eq hperm, htype]) i

omit hready in
theorem nlink_eq_zero (hzero : ((s.setInode d y).inode i).nlink = 0) (hnlink : y.nlink = x.nlink) :
    (s.inode i).nlink = 0 :=
  (Update.keeps Dinode.nlink (by rw [h.inode_eq hperm, hnlink]) i).symm.trans hzero

/-- A link count changes, and what the thread is owed changes with it. -/
theorem recounts (hcount : n + (γ t).credits.count d = x.nlink + credits.count d)
    (hrest : ∀ i, i ≠ d → credits.count i = (γ t).credits.count i)
    (hfile : ∀ i, file = some i → i ∈ (γ t).refs ∧ (s.inode i).type ≠ some .dir ∧ i ∈ credits)
    (hcredit : ∀ i ∈ credits, i ∈ (γ t).keys ∨ file = some i)
    (hloaded : strict → n = 0 → d ∈ (γ t).loaded) :
    Inv strict careful
      (update γ t
        {γ t with known := (d, {x with nlink := n}) :: rest, credits := credits, file := file})
      (s.setNlink d n) := by
  generalize hg : ({γ t with
    known := (d, {x with nlink := n}) :: rest, credits := credits, file := file} : Ghost) = g'
  have hl := h.each t
  have hx := h.inode_eq hperm
  have hfresh : fresh (update γ t g') = fresh γ := fresh_update (by rw [← hg])
  have howed : ∀ i, owed (update γ t g') i + (γ t).credits.count i =
      owed γ i + credits.count i := fun i => by rw [owed_change, ← hg]
  unfold State.setNlink
  rw [hx]
  have htypes : ∀ i, ((s.setInode d {x with nlink := n}).inode i).type = (s.inode i).type :=
    h.type_setInode hperm rfl
  refine h.rewrite hready hperm rfl (fun _ hp => .inl hp) (.inl rfl) hfile hcredit hg.symm ?_ ?_ ?_
  · rw [hfresh]
    exact h.tree.congr htypes (Update.keeps Dinode.dirents (by rw [hx]))
  · rw [hfresh, ← hx]
    refine h.links.recount ?_ fun i hi => ?_
    · have := howed d
      rw [hx]
      omega
    · have := howed i
      rw [hrest i hi] at this
      omega
  · intro hstrict
    rw [hfresh]
    refine (h.kept hstrict).rewrite htypes fun j hj hnot hzero => ?_
    by_cases hjd : j = d
    · subst hjd
      have hself : (s.setInode j {x with nlink := n}).inode j = {x with nlink := n} := update_self ..
      rw [hself] at hzero
      have href := (h.key_cases (key_head hperm)).2.2.1
      exact .inr ⟨h.leavers_lt href (by rw [hready]; nofun), (hl.loaded (hloaded hstrict hzero)).2⟩
    · have hne : (s.setInode d {x with nlink := n}).inode j = s.inode j := update_of_ne hjd _ _
      rw [hne] at hzero
      exact .inl ⟨hzero, hnot⟩

/-- A plain entry for an inode whose links have been counted. -/
theorem enters (credits : List Inum) (made : Option (Inum × Kind)) (file : Option Inum)
    (hdir : x.type = some .dir) (hfresh : ¬ fresh γ d) (hname : name.isPlain = true)
    (hc : Linkable s.inode s.born d c) (hrule : strict → Attached s.inode d)
    (hmade : made = (γ t).made ∨ (made = none ∧ ∀ m k, (γ t).made = some (m, k) → m ∈ (γ t).keys))
    (hfile : ∀ i, file = some i → i ∈ (γ t).refs ∧ (s.inode i).type ≠ some .dir ∧ i ∈ credits)
    (hcredit : ∀ i ∈ credits, i ∈ (γ t).keys ∨ file = some i)
    (hpaid : ∀ i, (γ t).credits.count i = credits.count i + (if c = i then 1 else 0) +
      (if (s.inode c).type = some .dir ∧ d = i then 1 else 0))
    (hg : g' = {γ t with
      known := (d, x.setDirent x.emptySlot ⟨name, c⟩) :: rest
      credits := credits
      made := made
      file := file})
    (hnew : ∀ {i}, fresh (update γ t g') i → fresh γ i ∧ i ≠ c)
    (hdone : ∀ {i}, fresh γ i → fresh (update γ t g') i ∨ i = c) :
    Inv strict careful (update γ t g')
      (s.setInode d ((s.inode d).setDirent x.emptySlot ⟨name, c⟩)) := by
  have hx := h.inode_eq hperm
  have howed : ∀ i, owed (update γ t g') i + (γ t).credits.count i =
      owed γ i + credits.count i := fun i => by rw [owed_change, hg]
  have hd : d ≠ 0 := h.inum_ne_zero (h.key_cases (key_head hperm)).2.1
  have htypes : ∀ i, ((s.setInode d (x.setDirent x.emptySlot ⟨name, c⟩)).inode i).type =
      (s.inode i).type := h.type_setInode hperm rfl
  have hlinks : Links strict
      (update s.inode d ((s.inode d).setDirent (s.inode d).emptySlot ⟨name, c⟩))
      (owed (update γ t g')) (fresh (update γ t g')) := by
    refine Links.link h.tree (by rw [hx]; exact hdir) hfresh hname h.links hc hrule hnew hdone ?_
    intro i _
    have := howed i
    have := hpaid i
    omega
  have htree := h.tree.link (by rw [hx]; exact hdir) hfresh hname hc hnew hdone
  rw [hx] at hlinks htree ⊢
  refine h.rewrite hready hperm rfl (fun i hp => .inl ?_) hmade hfile hcredit hg htree hlinks ?_
  · have hshape := h.tree.shape (d := d) (by rw [hx]; exact hdir) hfresh
    rw [hx] at hshape
    rw [← (hshape.setDirent (e := ⟨name, c⟩) (hshape.two_le_emptySlot hd) fun _ => hname).2]
    exact hp
  · intro hstrict
    refine (h.kept hstrict).rewrite htypes fun j hj hnot hzero => .inl ⟨?_, ?_⟩
    · exact h.nlink_eq_zero hperm hzero rfl
    · intro hfj
      rcases hdone hfj with hf | rfl
      · exact hnot hf
      · -- it has a link now, so it has not been left behind
        have hle := hlinks.le (i := j) (by rw [← htypes] at hj; exact hj)
        have hj0 : j ≠ 0 := h.inum_ne_zero hj
        have hnames : names (update s.inode d
            ((s.inode d).setDirent (s.inode d).emptySlot ⟨name, j⟩)) j = names s.inode j + _ :=
          names_fill hname hj0
        rw [if_pos rfl, hx] at hnames
        have := names_le_links (update s.inode d (x.setDirent x.emptySlot ⟨name, j⟩)) j
        have hzero : (update s.inode d (x.setDirent x.emptySlot ⟨name, j⟩) j).nlink = 0 := hzero
        omega

/-- An entry is cleared; its links are to be counted down. -/
theorem clears (credits : List Inum) (hdir : x.type = some .dir) (hfresh : ¬ fresh γ d)
    (hget : x.dirents[off]? = some ⟨name, c⟩) (hname : name.isPlain = true)
    (hempty : (s.inode c).type = some .dir → (s.inode c).isEmpty = true)
    (hfile : ∀ i, (γ t).file = some i → i ∈ credits)
    (hcredit : ∀ i ∈ credits, i ∈ (γ t).keys ∨ (γ t).file = some i)
    (hpaid : ∀ i, credits.count i = (γ t).credits.count i + (if c = i then 1 else 0) +
      (if (s.inode c).type = some .dir ∧ d = i then 1 else 0))
    (hc : ¬ fresh γ c) :
    Inv strict careful
      (update γ t
        {γ t with known := (d, x.setDirent off ⟨.plain 0, 0⟩) :: rest, credits := credits})
      (s.setInode d ((s.inode d).setDirent off ⟨.plain 0, 0⟩)) := by
  generalize hg : ({γ t with
    known := (d, x.setDirent off ⟨.plain 0, 0⟩) :: rest, credits := credits} : Ghost) = g'
  have hx := h.inode_eq hperm
  have hnew : fresh (update γ t g') = fresh γ := fresh_update (by rw [← hg])
  have howed : ∀ i, owed (update γ t g') i + (γ t).credits.count i =
      owed γ i + credits.count i := fun i => by rw [owed_change, ← hg]
  have hzero : ¬ fresh γ 0 := by
    intro ⟨q, k, hq⟩
    have htype := ((h.each q).made hq).1
    rw [h.tree.zero] at htype
    cases htype
  have htypes : ∀ i, ((s.setInode d (x.setDirent off ⟨.plain 0, 0⟩)).inode i).type =
      (s.inode i).type := h.type_setInode hperm rfl
  have hdir' : (s.inode d).type = some .dir := by rw [hx]; exact hdir
  have hget' : (s.inode d).dirents[off]? = some ⟨name, c⟩ := by rw [hx]; exact hget
  have hlinks : Links strict (update s.inode d ((s.inode d).setDirent off ⟨.plain 0, 0⟩))
      (owed (update γ t g')) (fresh γ) := by
    refine Links.unlink h.tree hdir' hfresh hget' hname h.links (fun _ hcd e he hplain => ?_) ?_
    · exact (h.tree.shape hcd hc).empty (hempty hcd) he hplain
    · intro i _
      have := howed i
      have := hpaid i
      omega
  have htree := h.tree.unlink hdir' hfresh hget' hname hzero
  rw [hx] at hlinks htree ⊢
  refine h.rewrite hready hperm rfl (fun i hp => .inl ?_) (.inl rfl)
    (fun i hi => ⟨((h.each t).file hi).1, ((h.each t).file hi).2.2.1, hfile i hi⟩) hcredit hg.symm
    (by rw [hnew]; exact htree) (by rw [hnew]; exact hlinks) ?_
  · have hshape := h.tree.shape hdir' hfresh
    rw [hx] at hshape
    rw [← (hshape.setDirent (e := ⟨.plain 0, 0⟩) (hshape.two_le_of_plain hget hname)
      fun hne => absurd rfl hne).2]
    exact hp
  · intro hstrict
    rw [hnew]
    exact (h.kept hstrict).rewrite htypes fun j _ hnot hzero =>
      .inl ⟨h.nlink_eq_zero hperm hzero rfl, hnot⟩

theorem dots {l : List Dirent} (hmade : (γ t).made = some (d, .dir)) (hl : Begun s.inode (fresh γ) d l)
    (hparent : ∀ e ∈ l, e.name = .dotdot → e.inum ∈ (γ t).keys) :
    Inv strict careful (update γ t {γ t with known := (d, {x with dirents := l}) :: rest})
      (s.setInode d {x with dirents := l}) := by
  generalize hg : ({γ t with known := (d, {x with dirents := l}) :: rest} : Ghost) = g'
  have hx := h.inode_eq hperm
  have hnew : fresh (update γ t g') = fresh γ := fresh_update (by rw [← hg])
  have howed : owed (update γ t g') = owed γ := owed_update (by rw [← hg])
  have hfresh : fresh γ d := ⟨t, .dir, hmade⟩
  have htypes : ∀ i, ((s.setInode d {x with dirents := l}).inode i).type = (s.inode i).type :=
    h.type_setInode hperm rfl
  have htree := h.tree.dots hfresh hl ((h.each t).made hmade).1
  have hlinks := Links.dots h.tree hfresh hl h.links
  rw [hx] at htree hlinks
  refine h.rewrite hready hperm rfl (fun i hp => .inr ?_) (.inl rfl)
    (fun i hi => ⟨((h.each t).file hi).1, ((h.each t).file hi).2.2⟩) (fun i hi => (h.each t).credit hi)
    hg.symm (by rw [hnew]; exact htree) (by rw [hnew, howed]; exact hlinks) ?_
  · obtain ⟨e, hfind, rfl⟩ := Option.map_eq_some_iff.mp hp
    have hname := List.find?_some hfind
    exact hparent e (List.mem_of_find?_eq_some hfind) (of_decide_eq_true hname)
  · intro hstrict
    rw [hnew]
    exact (h.kept hstrict).rewrite htypes fun j _ hnot hzero =>
      .inl ⟨h.nlink_eq_zero hperm hzero rfl, hnot⟩

end Locked

/-! ### Inodes are freed and allocated -/

section
variable (h : Inv strict careful γ s)
include h

theorem loose_of_doomed (hstage : (γ t).stage = .doomed i) : Loose s.inode i := by
  obtain ⟨⟨x, hx, hnlink⟩, -, hparent⟩ := (h.each t).doomed hstage
  obtain ⟨-, rfl, htype, -⟩ := (h.each t).known hx
  have hle := h.links.le htype
  have hzero := names_le_links s.inode i
  refine ⟨fun {d e} hd he heq => ?_, fun heq => ?_, h.inum_ne_zero htype⟩
  · subst heq
    have hdots : e.name.isPlain = true ∨ e = ⟨.dot, d⟩ ∨
        (e.name = .dotdot ∧ (s.inode d).parent = some e.inum) := by
      by_cases hfd : fresh γ d
      · exact .inr (h.tree.begun hfd he)
      · exact (h.tree.shape (h.tree.dir_of_entry he) hfd).entry he (h.inum_ne_zero htype)
    rcases hdots with hplain | hdot | ⟨-, hup⟩
    · have := names_pos he hplain
      omega
    · rw [hdot] at hd
      exact hd rfl
    · exact hparent d hd hup
  · have := h.nlink_root
    subst heq
    omega

theorem frees (hg : γ t = g) (hstage : g.stage = .doomed i)
    (hperm : g.known.Perm ((i, x) :: rest)) {loaded : List Inum}
    (hloaded : ∀ j ∈ loaded, j ∈ g.loaded ∧ j ≠ i) (hmade : g.made = none) :
    Inv strict careful
      (update γ t {g with known := rest, loaded := loaded, stage := .dying i}) (s.free i) := by
  subst hg
  generalize hg : ({γ t with known := rest, loaded := loaded, stage := .dying i} : Ghost) = g'
  have hl := h.each t
  have hkey := key_head hperm
  obtain ⟨hlock, htype, href, -⟩ := h.key_cases hkey
  obtain ⟨⟨y, hy, hnlink⟩, hone, -⟩ := hl.doomed hstage
  obtain ⟨-, rfl, -⟩ := hl.known hy
  obtain ⟨hrest, hkeys, hnodup⟩ := known_rest hl hperm
  have hloose := h.loose_of_doomed hstage
  have hfresh : ¬ fresh γ i := h.not_fresh_of_key hkey fun k => by rw [hmade]; simp
  have hnew : fresh (update γ t g') = fresh γ := fresh_update (by rw [← hg])
  have howed : owed (update γ t g') = owed γ := owed_update (by rw [← hg])
  have hle := h.links.le htype
  have hcredit : i ∉ (γ t).credits := by
    intro hi
    have hpos := List.count_pos_iff.mpr hi
    have := Finset.single_le_sum (f := fun q => (γ q).credits.count i) (fun _ _ => Nat.zero_le _)
      (Finset.mem_univ t)
    have : (γ t).credits.count i ≤ owed γ i := this
    omega
  have hother : ∀ {j}, j ≠ i → (s.free i).inode j = s.inode j := fun hj => update_of_ne hj _ _
  have hself : (s.free i).inode i = ⟨none, (s.inode i).nlink, []⟩ := update_self ..
  have hturn : Turn γ t s (s.free i) := by
    refine {inode := fun {j} _ hj => ⟨hother fun heq => hj (heq ▸ hkey), rfl⟩,
            type := fun {j q} hq hj _ => ?_, parent := fun {c j} hc => ?_, valid := fun {j q} hq hj _ hv => ?_}
    · have hji : j ≠ i := fun heq => h.not_ref_of_one hone href hq (heq ▸ hj)
      rw [hother hji]
      exact ⟨rfl, rfl⟩
    · by_cases hci : c = i
      · rw [hci, hself] at hc
        cases hc
      · rw [hother hci] at hc
        exact .inl hc
    · show update s.valid i false j = true
      rw [update_of_ne]
      · exact hv
      · intro heq
        rw [heq, hlock] at hj
        exact hq (Option.some.inj hj).symm
  have hempty : strict → ∀ j, j ≠ 0 → (s.inode i).names j = 0 := by
    intro hstrict j hj
    apply List.countP_eq_zero.mpr
    intro e he hplain
    simp only [decide_eq_true_eq] at hplain
    have hatt : ¬ Attached s.inode i := by
      intro hatt
      rcases hatt with heq | hpos
      · exact hloose.root heq
      · have := names_le_links s.inode i
        omega
    have := h.links.emptied hstrict (h.tree.dir_of_entry he) hatt hfresh he hplain.2
    exact hj (hplain.1.symm.trans this)
  have hquiet : g'.hand = (γ t).hand ∧ g'.made = (γ t).made ∧ g'.stage = .dying i := by
    rw [← hg]
    exact ⟨rfl, rfl, rfl⟩
  refine h.move hturn ?_ ?_ ?_ ?_ ?_ ?_ rfl (.inl (by rw [hquiet.2.2]; rfl))
  · subst hg
    have hdead : ∀ {j}, j ≠ i → (Stage.dying i).dead ≠ some j := fun hj heq =>
      hj (Option.some.inj heq).symm
    exact {
      known := fun {j z} hz => by
        obtain ⟨hmem, hji⟩ := hrest _ hz
        obtain ⟨hlockj, hinodej, htypej, hrefj, -⟩ := hl.known hmem
        exact ⟨hlockj, (hother hji).trans hinodej, htypej, hrefj, hdead hji⟩
      keys := hnodup
      locked := fun {j} hj => by
        have hold := (hl.locked hj).resolve_right (by rw [hstage]; simp)
        rcases hkeys j hold with rfl | hmem
        · exact .inr rfl
        · exact .inl hmem
      refs := fun {j} hj => by
        by_cases hji : j = i
        · subst hji
          exact .inl rfl
        · rw [hother hji]
          exact .inr ((hl.refs hj).resolve_left (by rw [Ghost.dead_eq, hstage]; rintro ⟨⟩))
      window := hl.window
      loaded := fun {j} hj => by
        obtain ⟨hold, hji⟩ := hloaded j hj
        obtain ⟨hkeyj, hvalid⟩ := hl.loaded hold
        refine ⟨(hkeys j hkeyj).resolve_left hji, ?_⟩
        show update s.valid i false j = true
        rw [update_of_ne hji]
        exact hvalid
      made := fun hm => by
        rw [hmade] at hm
        cases hm
      file := fun {j} hj => by
        obtain ⟨hrefj, -, htypej, hcreditj⟩ := hl.file hj
        have hji : j ≠ i := fun heq => hcredit (heq ▸ hcreditj)
        exact ⟨hrefj, hdead hji, by rw [hother hji]; exact htypej, hcreditj⟩
      credit := fun {j} hj => by
        have hji : j ≠ i := fun heq => hcredit (heq ▸ hj)
        exact (hl.credit hj).imp_left fun hkeyj => (hkeys j hkeyj).resolve_left hji
      doomed := by simp
      spare := by simp
      dying := fun {j} hj => by
        cases hj
        exact hlock
      wants := hl.wants.trans (by rw [hstage]; rfl)
      asks := by simp
      leaving := hl.leaving.trans (by rw [hstage]; rfl)
      left := by rintro _ ⟨⟩}
  · exact h.book_same hquiet.1 rfl rfl rfl
  · have hhands := Update.keeps Ghost.hand hquiet.1
    have hmades := Update.keeps Ghost.made hquiet.2.1
    refine ⟨fun {j} hj => ?_, fun {p j} hp hgap => ?_, fun {u q j k} hm hq hj => ?_, fun hm hm' => ?_,
      fun hm => ?_, fun hm hp => ?_, fun {q j} hq => ?_⟩
    · rw [hother]
      · exact h.alloc.opened hj
      · rintro rfl
        have htwo := h.book.two_of_refs (t := some t) (Option.some_ne_none t).symm href hj
        have : (Fs.book γ s).ref j = 1 := hone
        omega
    · have hgaps : ∀ q, (γ q).hand.gap ≠ some p := fun q => by rw [← hhands q]; exact hgap q
      rw [hother]
      · exact h.alloc.cwd hp hgaps
      · rintro rfl
        have hcounted : p ∈ (Fs.book γ s).counted j := by
          refine Book.mem_counted.mpr ⟨Finset.mem_univ p, hp, fun q hq => ?_⟩
          cases q with
          | none => cases hq
          | some q => exact hgaps q hq
        have htwo := h.book.two_of_counted (t := some t) hcounted href
        have : (Fs.book γ s).ref j = 1 := hone
        omega
    · rw [hmades u] at hm
      rw [Ghost.refs, hhands q] at hj
      have hold := h.alloc.alone hm hq hj
      by_cases hqt : q = t
      · subst hqt
        rw [Ghost.dead_eq, hstage] at hold
        cases hold
      · rw [update_of_ne hqt]
        exact hold
    · rw [hmades] at hm hm'
      exact h.alloc.once hm hm'
    · rw [hmades] at hm
      exact h.alloc.shut hm
    · rw [hmades] at hm
      obtain ⟨q, hq⟩ := h.alloc.away hm hp
      exact ⟨q, by rw [hhands q]; exact hq⟩
    · by_cases hji : j = i
      · rw [hji, hself]
        exact .inl rfl
      · rw [hother hji, hnew]
        by_cases hqt : q = t
        · subst hqt
          rw [update_self, hquiet.2.2] at hq
          exact absurd (Stage.dying.inj hq).symm hji
        · rw [update_of_ne hqt] at hq
          exact h.alloc.dying hq
  · rw [hnew]
    exact h.tree.replace hloose rfl (fun _ => rfl) h.tree.born (fun _ => Iff.rfl) (by simp)
  · rw [hnew, howed]
    exact Links.replace h.tree hloose rfl h.links (fun _ => Iff.rfl) hempty (fun hne => absurd rfl hne) (by simp)
  · intro hstrict
    rw [hnew]
    have hji : ∀ {j}, ((s.free i).inode j).type ≠ none → j ≠ i := by
      rintro j hj rfl
      rw [hself] at hj
      exact hj rfl
    refine ⟨fun {j} hj hzero hnot => ?_, fun {j} hj hzero hnot => ?_⟩
    · have hne := hji hj
      rw [hother hne] at hj hzero
      exact (h.kept hstrict).kept hj hzero hnot
    · have hne := hji hj
      show update s.valid i false j = true
      rw [update_of_ne hne]
      rw [hother hne] at hj hzero
      exact (h.kept hstrict).valid hj hzero hnot

theorem loose_of_free (hi : (s.inode i).type = none) (hi0 : i ≠ 0) :
    Loose s.inode i where
  entry := fun _ he heq => h.tree.entry he (heq ▸ hi0) (heq ▸ hi)
  root := fun heq => by
    rw [heq, h.tree.root.1] at hi
    cases hi
  zero := hi0

theorem allocs (hg : γ t = g) (hready : g.stage = .ready)
    (hmade : g.made = none) (hi : (s.inode i).type = none) (hi0 : i ≠ 0) :
    Inv strict careful (update γ t {g with made := some (i, k)}) (s.ialloc i k) := by
  subst hg
  generalize hg : ({γ t with made := some (i, k)} : Ghost) = g'
  have hl := h.each t
  have hloose := h.loose_of_free hi hi0
  have hother : ∀ {j}, j ≠ i → (s.ialloc i k).inode j = s.inode j := fun hj => update_of_ne hj _ _
  have hself : (s.ialloc i k).inode i = ⟨some k, 0, []⟩ := update_self ..
  have hborn : ∀ {j}, j ≠ i → (s.ialloc i k).born j = s.born j := fun hj => update_of_ne hj _ _
  have hborni : (s.ialloc i k).born i = s.clock := update_self ..
  have hne : ∀ {j}, (s.inode j).type ≠ none → j ≠ i := fun hj heq => hj (heq ▸ hi)
  have hquiet : g'.hand = (γ t).hand ∧ g'.made = some (i, k) ∧ g'.stage = (γ t).stage ∧
      g'.credits = (γ t).credits := by
    rw [← hg]
    exact ⟨rfl, rfl, rfl, rfl⟩
  have hnew : ∀ {j}, j ≠ i → (fresh (update γ t g') j ↔ fresh γ j) := by
    intro j hj
    apply exists_congr
    intro q
    apply exists_congr
    intro k'
    by_cases hq : q = t
    · subst hq
      rw [update_self, hquiet.2.1, hmade]
      exact ⟨fun heq => absurd (congrArg Prod.fst (Option.some.inj heq)).symm hj, (by simp)⟩
    · rw [update_of_ne hq]
  have hfi : fresh (update γ t g') i := ⟨t, k, by rw [update_self]; exact hquiet.2.1⟩
  have howed : owed (update γ t g') = owed γ := owed_update hquiet.2.2.2
  have hdebt : owed γ i = 0 := by
    apply Finset.sum_eq_zero
    intro q _
    apply List.count_eq_zero.mpr
    intro hq
    rcases (h.each q).credit hq with hkey | hfile
    · exact (h.key_cases hkey).2.1 hi
    · obtain ⟨href, hdead, -⟩ := (h.each q).file hfile
      exact (((h.each q).refs href).resolve_left hdead) hi
  have hturn : Turn γ t s (s.ialloc i k) := by
    refine {inode := fun {j} hj _ => ⟨hother (hne hj), hborn (hne hj)⟩,
            type := fun {j q} _ _ hj => ⟨by rw [hother (hne hj)], hborn (hne hj)⟩,
            parent := fun {c j} hc => ?_}
    by_cases hci : c = i
    · rw [hci, hself] at hc
      cases hc
    · rw [hother hci] at hc
      exact .inl hc
  have hhands := Update.keeps Ghost.hand hquiet.1
  have hstages := Update.keeps Ghost.stage hquiet.2.2.1
  have hmades : ∀ {q j k'}, (update γ t g' q).made = some (j, k') →
      (q = t ∧ j = i) ∨ (j ≠ i ∧ q ≠ t ∧ (γ q).made = some (j, k')) := by
    intro q j k' hq
    by_cases hqt : q = t
    · subst hqt
      rw [update_self, hquiet.2.1] at hq
      cases hq
      exact .inl ⟨rfl, rfl⟩
    · rw [update_of_ne hqt] at hq
      refine .inr ⟨fun heq => ?_, hqt, hq⟩
      have := ((h.each q).made hq).1
      rw [heq, hi] at this
      cases this
  have hrefs : ∀ {q j}, j ∈ (γ q).refs → j = i → (γ q).dead = some i := by
    intro q j hj heq
    subst heq
    exact ((h.each q).refs hj).resolve_right (fun hne => hne hi)
  refine h.move hturn ?_ ?_ ?_ ?_ ?_ ?_ rfl (.inl (by rw [hquiet.2.2.1, hready]; rfl))
  · subst hg
    have hready' : (γ t).dead = none := by rw [Ghost.dead_eq, hready]; rfl
    exact {hl with
      known := fun {j z} hz => by
        obtain ⟨hlockj, hinodej, htypej, hrefj, hdeadj⟩ := hl.known hz
        exact ⟨hlockj, (hother (hne (by rw [hinodej]; exact htypej))).trans hinodej, htypej, hrefj, hdeadj⟩
      refs := fun {j} hj => by
        have htypej := (hl.refs hj).resolve_left (by rw [hready']; simp)
        rw [hother (hne htypej)]
        exact .inr htypej
      made := fun {j k'} hj => by
        cases hj
        refine ⟨by rw [hself], fun _ => hself, fun d hd hdi => ?_⟩
        rw [hborni, hborn hdi]
        exact h.tree.born d
      file := fun {j} hj => by
        obtain ⟨hrefj, hdeadj, htypej, hcreditj⟩ := hl.file hj
        rw [hother (hne ((hl.refs hrefj).resolve_left hdeadj))]
        exact ⟨hrefj, hdeadj, htypej, hcreditj⟩
      doomed := fun hj => by rw [hready] at hj; cases hj
      spare := fun hj => by rw [hready] at hj; cases hj
      asks := fun hj => by rw [hready] at hj; cases hj}
  · exact h.book_same hquiet.1 rfl rfl rfl
  · have htype : ∀ {j}, (s.inode j).type ≠ none → ((s.ialloc i k).inode j).type ≠ none := by
      intro j hj
      rw [hother (hne hj)]
      exact hj
    refine ⟨fun hj => htype (h.alloc.opened hj), fun {p j} hp hgap => ?_, fun {u q j k'} hm hq hj => ?_,
      fun {u q j k' l} hm hm' => ?_, fun {u j k'} hm hj => ?_, fun {u j k' p} hm hp => ?_, fun {q j} hq => ?_⟩
    · exact htype (h.alloc.cwd hp fun q => by rw [← hhands q]; exact hgap q)
    · rw [Ghost.refs, hhands q] at hj
      rw [Ghost.dead_eq, hstages q]
      rcases hmades hm with ⟨-, rfl⟩ | ⟨-, -, hm⟩
      · exact hrefs hj rfl
      · exact h.alloc.alone hm hq hj
    · rcases hmades hm with ⟨rfl, rfl⟩ | ⟨hji, -, hm⟩
      · rcases hmades hm' with ⟨rfl, -⟩ | ⟨hji, -, -⟩
        · rfl
        · exact absurd rfl hji
      · rcases hmades hm' with ⟨-, hji'⟩ | ⟨-, -, hm'⟩
        · exact absurd hji' hji
        · exact h.alloc.once hm hm'
    · rcases hmades hm with ⟨-, rfl⟩ | ⟨-, -, hm⟩
      · exact h.alloc.opened hj hi
      · exact h.alloc.shut hm hj
    · rcases hmades hm with ⟨-, rfl⟩ | ⟨-, -, hm⟩
      · by_contra hgap
        refine h.alloc.cwd hp (fun q hq => hgap ⟨q, ?_⟩) hi
        rw [hhands q]
        exact hq
      · obtain ⟨q, hq⟩ := h.alloc.away hm hp
        exact ⟨q, by rw [hhands q]; exact hq⟩
    · rw [hstages q] at hq
      by_cases hji : j = i
      · rw [hji]
        exact .inr hfi
      · rw [hother hji, hnew hji]
        exact h.alloc.dying hq
  · refine h.tree.replace hloose rfl hborn (fun j => ?_) hnew fun _ => hfi
    by_cases hji : j = i
    · rw [hji, hborni]
      exact Nat.lt_succ_self _
    · rw [hborn hji]
      exact Nat.lt_succ_of_lt (h.tree.born j)
  · rw [howed]
    refine Links.replace h.tree hloose rfl h.links hnew (fun _ j _ => ?_) (fun _ => ⟨hdebt, rfl⟩) fun _ => hfi
    rw [Dinode.names, h.tree.flat (by rw [hi]; simp)]
    rfl
  · intro hstrict
    have hji : ∀ {j}, ¬ fresh (update γ t g') j → j ≠ i := fun hnot heq => hnot (heq ▸ hfi)
    refine ⟨fun {j} hj hzero hnot => ?_, fun {j} hj hzero hnot => ?_⟩
    · rw [hother (hji hnot)] at hj hzero
      exact (h.kept hstrict).kept hj hzero fun hf => hnot ((hnew (hji hnot)).mpr hf)
    · rw [hother (hji hnot)] at hj hzero
      exact (h.kept hstrict).valid hj hzero fun hf => hnot ((hnew (hji hnot)).mpr hf)

end

end Inv

end ThreadKernel.Fs
