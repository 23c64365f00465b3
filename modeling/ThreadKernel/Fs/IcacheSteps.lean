import ThreadKernel.Fs.Icache

/-! What the steps of the inode cache keep.

The ghost of a thread says how far it is in `ilock` or `iput`. An entry that is in use and
valid is as on the disk, except between the last write of `iput` and the end of its valid
bit, and for an inode that `ilock` has found free: there the thread that has the lock
stands at `lost`. -/
namespace ThreadKernel.Icache

open Refcount Interleave Fs Function

/-- How far a thread is in `ilock` or in `iput`. -/
inductive Stage where
  | ready
  /-- `ilock` has the lock. -/
  | loading (ip : Ix)
  /-- `iput` has the lock. -/
  | putting (ip : Ix)
  /-- `iput` has found no links. -/
  | unlinked (ip : Ix)
  /-- `iput` has found no other reference either. -/
  | doomed (ip : Ix)
  /-- What is in memory is not what is on the disk, or has no type. -/
  | lost (ip : Ix) (site : Site)
  /-- `iput` has given up the lock. -/
  | left (ip : Ix)
  deriving DecidableEq

namespace Stage

def ip : Stage → Option Ix
  | ready => none
  | loading ip | putting ip | unlinked ip | doomed ip | lost ip _ | left ip => some ip

def locked : Stage → Option (Ix × Site)
  | ready | left _ => none
  | loading ip => some (ip, .ilock)
  | putting ip | unlinked ip | doomed ip => some (ip, .iput)
  | lost ip site => some (ip, site)

end Stage

structure Local (s : State) (t : Slot) (g : Stage) : Prop where
  has : ∀ {ip}, g.ip = some ip → ip ∈ s.held t
  locks : ∀ {ip site}, g.locked = some (ip, site) → (s.inode ip).lock = some (t, site)
  unlinked : ∀ {ip}, g = .unlinked ip ∨ g = .doomed ip →
    (s.inode ip).valid = true ∧ (s.inode ip).copy.nlink = 0
  doomed : ∀ {ip}, g = .doomed ip → (s.inode ip).ref = 1
  left : ∀ {ip site}, g = .left ip → (s.inode ip).lock ≠ some (t, site)

def book (s : State) : Book Ix Unit Slot where
  ref := fun ip => (s.inode ip).ref
  entry := fun _ => none
  hand := fun t => ⟨[], none, s.held t⟩
  dom := ∅

/-- Who has the lock of an entry has a reference to it, and has read it. -/
def Owns (s : State) (t : Slot) (g : Stage) : Prop :=
  ∀ {ip site}, (s.inode ip).lock = some (t, site) → ip ∈ s.held t ∧
    (g.locked = some (ip, site) ∨ (site = .ilock ∧ (s.inode ip).valid = true))

structure Inv (γ : Slot → Stage) (s : State) : Prop where
  each : ∀ t, Local s t (γ t)
  owner : ∀ t, Owns s t (γ t)
  unique : ∀ {ip jp}, 0 < (s.inode ip).ref → 0 < (s.inode jp).ref →
    (s.inode ip).dev = (s.inode jp).dev → (s.inode ip).inum = (s.inode jp).inum → ip = jp
  book : (book s).Sound
  agree : ∀ {ip}, (s.inode ip).valid = true → 0 < (s.inode ip).ref →
    ((s.inode ip).copy = s.stored ip ∧ (s.inode ip).copy.type ≠ none) ∨
      ∃ t site, γ t = .lost ip site

variable {γ : Slot → Stage} {s s' : State} {t q : Slot} {g g' : Stage} {ip jp : Ix} {x : Inode}
  {site : Site} {dev inum : Nat} {kind : Kind}

namespace Inv

section

variable (h : Inv γ s)
include h

theorem pos_of_held (hip : ip ∈ s.held t) : 0 < (s.inode ip).ref :=
  h.book.pos_of_ref (t := t) hip

theorem lock_at (hg : γ t = g) (hlocked : g.locked = some (ip, site)) :
    (s.inode ip).lock = some (t, site) := by
  subst hg
  exact (h.each t).locks hlocked

theorem held_at (hg : γ t = g) (hip : g.ip = some ip) : ip ∈ s.held t := by
  subst hg
  exact (h.each t).has hip

theorem agree_of_lock (hg : γ t = g) (hlock : (s.inode ip).lock = some (t, site))
    (hlost : ∀ site, g ≠ .lost ip site) (hvalid : (s.inode ip).valid = true) :
    (s.inode ip).copy = s.stored ip ∧ (s.inode ip).copy.type ≠ none := by
  refine (h.agree hvalid (h.pos_of_held (h.owner t hlock).1)).resolve_right ?_
  intro ⟨q, site', hq⟩
  have hlock' := h.lock_at hq rfl
  rw [hlock] at hlock'
  cases hlock'
  exact hlost _ (hg.symm.trans hq)

/-- What is lost to somebody else. -/
theorem agree_unless (hg : γ t = g) (hlost : ∀ site, g ≠ .lost ip site)
    (hpos : 0 < (s.inode ip).ref) (hvalid : (s.inode ip).valid = true) :
    ((s.inode ip).copy = s.stored ip ∧ (s.inode ip).copy.type ≠ none) ∨
      (∃ site, g' = .lost ip site) ∨ ∃ q site, q ≠ t ∧ γ q = .lost ip site := by
  refine (h.agree hvalid hpos).imp_right fun ⟨q, site, hq⟩ => .inr ⟨q, site, ?_, hq⟩
  intro heq
  subst heq
  exact hlost site (hg.symm.trans hq)

theorem apart (hip : 0 < (s.inode ip).ref) (jp : Ix) (hne : jp ≠ ip) (hjp : 0 < (s.inode jp).ref) :
    ¬ ((s.inode jp).dev = (s.inode ip).dev ∧ (s.inode jp).inum = (s.inode ip).inum) :=
  fun heq => hne (h.unique hjp hip heq.1 heq.2)

end

end Inv

/-! ### What the others see of a step -/

/-- The state after a step that is about the entry `ip`. -/
def State.after (s : State) (ip : Ix) (x : Inode) (held : Slot → List Ix)
    (disk : Nat → Nat → Dinode) : State :=
  {s with inode := update s.inode ip x, held := held, disk := disk}

structure Turn (γ : Slot → Stage) (t : Slot) (s : State) (ip : Ix) (x : Inode) : Prop where
  lock : ∀ {q site}, q ≠ t → (x.lock = some (q, site) ↔ (s.inode ip).lock = some (q, site))
  body : ∀ {q site}, q ≠ t → (s.inode ip).lock = some (q, site) →
    x.valid = (s.inode ip).valid ∧ x.copy = (s.inode ip).copy
  ref : ∀ {q}, q ≠ t → γ q = .doomed ip → x.ref = (s.inode ip).ref

section After

variable {held : Slot → List Ix} {disk : Nat → Nat → Dinode}

theorem after_inode_of_ne (hne : jp ≠ ip) : (s.after ip x held disk).inode jp = s.inode jp :=
  update_of_ne hne _ _

theorem after_inode_self : (s.after ip x held disk).inode ip = x := update_self ..

theorem Local.others (hl : Local s q (γ q)) (hturn : Turn γ t s ip x) (hne : q ≠ t)
    (hheld : held q = s.held q) : Local (s.after ip x held disk) q (γ q) := by
  have hlocks : ∀ {jp site}, (γ q).locked = some (jp, site) →
      ((s.after ip x held disk).inode jp).lock = some (q, site) := by
    intro jp site hjp
    by_cases heq : jp = ip
    · subst heq
      rw [after_inode_self]
      exact (hturn.lock hne).mpr (hl.locks hjp)
    · rw [after_inode_of_ne heq]
      exact hl.locks hjp
  refine ⟨?_, hlocks, ?_, ?_, ?_⟩
  · intro jp hjp
    show jp ∈ held q
    rw [hheld]
    exact hl.has hjp
  · intro jp hjp
    by_cases heq : jp = ip
    · subst heq
      have hlock : (s.inode jp).lock = some (q, .iput) := hl.locks (by rcases hjp with h | h <;> rw [h] <;> rfl)
      rw [after_inode_self, (hturn.body hne hlock).1, (hturn.body hne hlock).2]
      exact hl.unlinked hjp
    · rw [after_inode_of_ne heq]
      exact hl.unlinked hjp
  · intro jp hjp
    by_cases heq : jp = ip
    · subst heq
      rw [after_inode_self, hturn.ref hne hjp]
      exact hl.doomed hjp
    · rw [after_inode_of_ne heq]
      exact hl.doomed hjp
  · intro jp site hjp
    by_cases heq : jp = ip
    · subst heq
      rw [after_inode_self]
      exact fun hlock => hl.left hjp ((hturn.lock hne).mp hlock)
    · rw [after_inode_of_ne heq]
      exact hl.left hjp

theorem Owns.others (ho : Owns s q (γ q)) (hturn : Turn γ t s ip x) (hne : q ≠ t)
    (hheld : held q = s.held q) : Owns (s.after ip x held disk) q (γ q) := by
  intro jp site hjp
  show jp ∈ held q ∧ _
  rw [hheld]
  by_cases heq : jp = ip
  · subst heq
    rw [after_inode_self] at hjp ⊢
    have hlock := (hturn.lock hne).mp hjp
    rw [(hturn.body hne hlock).1]
    exact ho hlock
  · rw [after_inode_of_ne heq] at hjp ⊢
    exact ho hjp

/-- Thread `t` has changed the entry `ip`, after which it is at `g'`. -/
theorem Inv.move (h : Inv γ s) (hturn : Turn γ t s ip x) (hheld : ∀ q, q ≠ t → held q = s.held q)
    (hlocal : Local (s.after ip x held disk) t g') (howns : Owns (s.after ip x held disk) t g')
    (hunique : 0 < x.ref → ∀ jp, jp ≠ ip → 0 < (s.inode jp).ref →
      ¬ ((s.inode jp).dev = x.dev ∧ (s.inode jp).inum = x.inum))
    (hbook : (Icache.book (s.after ip x held disk)).Sound)
    (hdisk : ∀ jp, jp ≠ ip → 0 < (s.inode jp).ref → (s.stored jp).type ≠ none →
      disk (s.inode jp).dev (s.inode jp).inum = s.stored jp)
    (hself : x.valid = true → 0 < x.ref → (x.copy = disk x.dev x.inum ∧ x.copy.type ≠ none) ∨
      (∃ site, g' = .lost ip site) ∨ ∃ q site, q ≠ t ∧ γ q = .lost ip site)
    (hlost : ∀ jp site, jp ≠ ip → γ t ≠ .lost jp site) :
    Inv (update γ t g') (s.after ip x held disk) where
  each := fun q => by
    by_cases hq : q = t
    · subst hq
      rw [update_self]
      exact hlocal
    · rw [update_of_ne hq]
      exact (h.each q).others hturn hq (hheld q hq)
  owner := fun q => by
    by_cases hq : q = t
    · subst hq
      rw [update_self]
      exact howns
    · rw [update_of_ne hq]
      exact Owns.others (h.owner q) hturn hq (hheld q hq)
  unique := fun {a b} => by
    by_cases ha : a = ip <;> by_cases hb : b = ip
    · intros
      rw [ha, hb]
    · subst ha
      rw [after_inode_self, after_inode_of_ne hb]
      intro hx hpos hdev hinum
      exact absurd ⟨hdev.symm, hinum.symm⟩ (hunique hx b hb hpos)
    · subst hb
      rw [after_inode_self, after_inode_of_ne ha]
      intro hpos hx hdev hinum
      exact absurd ⟨hdev, hinum⟩ (hunique hx a ha hpos)
    · rw [after_inode_of_ne ha, after_inode_of_ne hb]
      exact h.unique
  book := hbook
  agree := fun {jp} => by
    by_cases hjp : jp = ip
    · subst hjp
      unfold State.stored
      rw [after_inode_self]
      intro hvalid hpos
      rcases hself hvalid hpos with hagree | ⟨site, hg⟩ | ⟨q, site, hq, hg⟩
      · exact .inl hagree
      · exact .inr ⟨t, site, by rw [update_self, hg]⟩
      · exact .inr ⟨q, site, by rw [update_of_ne hq, hg]⟩
    · unfold State.stored
      rw [after_inode_of_ne hjp]
      intro hvalid hpos
      rcases h.agree hvalid hpos with ⟨hcopy, htype⟩ | ⟨q, site, hq⟩
      · refine .inl ⟨?_, htype⟩
        rw [hcopy] at htype
        exact hcopy.trans (hdisk jp hjp hpos htype).symm
      · have hqt : q ≠ t := by
          rintro rfl
          exact hlost jp site hjp hq
        exact .inr ⟨q, site, by rw [update_of_ne hqt, hq]⟩

theorem Stage.ip_of_locked (h : g.locked = some (ip, site)) : g.ip = some ip := by
  cases g <;> cases h <;> rfl

/-- How a thread that is at some stage with an entry finds it. -/
def Stage.Fits (t : Slot) (x : Inode) : Stage → Prop
  | .ready => True
  | .loading _ => x.lock = some (t, .ilock)
  | .putting _ => x.lock = some (t, .iput)
  | .unlinked _ => x.lock = some (t, .iput) ∧ x.valid = true ∧ x.copy.nlink = 0
  | .doomed _ => x.lock = some (t, .iput) ∧ (x.valid = true ∧ x.copy.nlink = 0) ∧ x.ref = 1
  | .lost _ site => x.lock = some (t, site)
  | .left _ => ∀ site, x.lock ≠ some (t, site)

/-- A stage is about one entry at most. -/
def Stage.At (g : Stage) (ip : Ix) : Prop := g.ip = none ∨ g.ip = some ip

theorem Local.of_fits (hip : g.At ip) (hmem : g.ip = some ip → ip ∈ s.held t)
    (hfits : g.Fits t (s.inode ip)) : Local s t g := by
  rcases hip with hip | hip
  · cases g <;> cases hip
    exact ⟨nofun, nofun, nofun, nofun, nofun⟩
  · refine ⟨fun hjp => ?_, fun hjp => ?_, ?_, ?_, ?_⟩
    · cases hip.symm.trans hjp
      exact hmem hip
    · cases hip.symm.trans (Stage.ip_of_locked hjp)
      cases g <;> cases hjp <;> first | exact hfits | exact hfits.1
    · rintro jp (rfl | rfl) <;> cases hip
      · exact hfits.2
      · exact hfits.2.1
    · rintro jp rfl
      cases hip
      exact hfits.2.2
    · rintro jp site rfl
      cases hip
      exact hfits site

theorem Inv.turn (h : Inv γ s) (hg : γ t = g) (x : Inode) (held : Slot → List Ix)
    (disk : Nat → Nat → Dinode) (hturn : Turn γ t s ip x) (hheld : ∀ q, q ≠ t → held q = s.held q)
    (hkeep : ∀ jp, jp ≠ ip → jp ∈ s.held t → jp ∈ held t) (hold : g.At ip) (hnew : g'.At ip)
    (hmem : g'.ip = some ip → ip ∈ held t) (hfits : g'.Fits t x)
    (howns : ∀ site, x.lock = some (t, site) → ip ∈ held t ∧
      (g'.locked = some (ip, site) ∨ (site = .ilock ∧ x.valid = true)))
    (hunique : 0 < x.ref → ∀ jp, jp ≠ ip → 0 < (s.inode jp).ref →
      ¬ ((s.inode jp).dev = x.dev ∧ (s.inode jp).inum = x.inum))
    (hbook : (Icache.book (s.after ip x held disk)).Sound)
    (hdisk : ∀ jp, jp ≠ ip → 0 < (s.inode jp).ref → (s.stored jp).type ≠ none →
      disk (s.inode jp).dev (s.inode jp).inum = s.stored jp)
    (hself : x.valid = true → 0 < x.ref → (x.copy = disk x.dev x.inum ∧ x.copy.type ≠ none) ∨
      (∃ site, g' = .lost ip site) ∨ ∃ q site, q ≠ t ∧ γ q = .lost ip site) :
    Inv (update γ t g') (s.after ip x held disk) := by
  subst hg
  have honly : ∀ {jp}, (γ t).ip = some jp → jp = ip := fun {jp} hjp => by
    rcases hold with hold | hold <;> cases hold.symm.trans hjp
    rfl
  refine h.move hturn hheld (.of_fits hnew hmem (by rw [after_inode_self]; exact hfits)) ?_ hunique
    hbook hdisk hself fun jp site hne hlost => hne (honly (by rw [hlost]; rfl))
  intro jp site hjp
  by_cases heq : jp = ip
  · subst heq
    rw [after_inode_self] at hjp ⊢
    exact howns site hjp
  · rw [after_inode_of_ne heq] at hjp ⊢
    obtain ⟨hmem, hlocked | hilock⟩ := h.owner t hjp
    · exact absurd (honly (Stage.ip_of_locked hlocked)) heq
    · exact ⟨hkeep jp heq hmem, .inr hilock⟩

theorem Inv.book_after (h : Inv γ s) (href : x.ref = (s.inode ip).ref) :
    (Icache.book (s.after ip x s.held disk)).Sound := by
  have hsame : Icache.book (s.after ip x s.held disk) = Icache.book s := by
    simp only [Icache.book, Book.mk.injEq, and_true]
    refine ⟨funext fun jp => ?_, trivial, rfl⟩
    by_cases hjp : jp = ip
    · subst hjp
      rw [after_inode_self, href]
    · rw [after_inode_of_ne hjp]
  rw [hsame]
  exact h.book

/-- A step by the thread that has the lock. -/
theorem Inv.inside (h : Inv γ s) (hg : γ t = g) (hx : (s.inode ip).lock = some (t, site))
    (lock : Option (Slot × Site)) (valid : Bool) (copy : Dinode) (disk : Nat → Nat → Dinode)
    (hlock : lock = some (t, site) ∨ lock = none) (hold : g.At ip) (hnew : g'.At ip)
    (hfits : g'.Fits t {s.inode ip with valid := valid, lock := lock, copy := copy})
    (howns : lock = some (t, site) → g'.locked = some (ip, site) ∨ (site = .ilock ∧ valid = true))
    (hdisk : ∀ d i, ¬ (d = (s.inode ip).dev ∧ i = (s.inode ip).inum) → disk d i = s.disk d i)
    (hself : valid = true →
      (copy = disk (s.inode ip).dev (s.inode ip).inum ∧ copy.type ≠ none) ∨
        ∃ site, g' = .lost ip site) :
    Inv (update γ t g')
      (s.after ip {s.inode ip with valid := valid, lock := lock, copy := copy} s.held disk) := by
  have hmem := (h.owner t hx).1
  have hapart := h.apart (h.pos_of_held hmem)
  refine h.turn hg _ s.held disk ⟨fun hq => ?_, fun hq hlock' => ?_, fun _ _ => rfl⟩ (fun _ _ => rfl)
    (fun _ _ hjp => hjp) hold hnew (fun _ => hmem) hfits (fun site' hsite => ⟨hmem, ?_⟩)
    (fun _ => hapart) (h.book_after rfl) (fun jp hjp hpos _ => hdisk _ _ (hapart jp hjp hpos))
    fun hvalid _ => (hself hvalid).imp_right .inl
  · rw [hx]
    rcases hlock with hl | hl <;> simp [hl, Ne.symm hq]
  · rw [hx] at hlock'
    cases hlock'
    exact absurd rfl hq
  · rcases hlock with rfl | rfl <;> cases hsite
    exact howns rfl

end After

/-! ### References -/

namespace Inv

theorem doomed_of_stage (h : Inv γ s) (hq : γ q = .doomed ip) : Doomed s ip := by
  have hlock := h.lock_at hq rfl
  obtain ⟨hvalid, hnlink⟩ := (h.each q).unlinked (.inr hq)
  have htype := (h.agree_of_lock hq hlock nofun hvalid).2
  exact ⟨(h.each q).doomed hq, by rw [hlock]; rfl, hvalid, htype, hnlink⟩

/-- An entry that somebody else holds is not about to be freed. -/
theorem not_doomed_of_held (h : Inv γ s) (hip : ip ∈ s.held t) (hne : q ≠ t) : γ q ≠ .doomed ip := by
  intro hq
  have htwo := h.book.two_of_refs hne hip (h.held_at hq rfl)
  have hone := (h.each q).doomed hq
  have hsame : (Icache.book s).ref ip = (s.inode ip).ref := rfl
  omega

theorem book_setRef (s : State) (t : Slot) (ip : Ix) (n : Nat) (l : List Ix) (x : Inode)
    (hx : x.ref = n) : Icache.book (s.after ip x (update s.held t l) s.disk) =
      ((Icache.book s).setHand t ⟨[], none, l⟩).setRef ip n := by
  simp only [Icache.book, Book.setHand, Book.setRef, Book.mk.injEq, and_true]
  refine ⟨funext fun jp => ?_, trivial, funext fun q => ?_⟩
  · by_cases hjp : jp = ip
    · subst hjp
      rw [after_inode_self, update_self, hx]
    · rw [after_inode_of_ne hjp, update_of_ne hjp]
  · by_cases hq : q = t
    · subst hq
      simp [State.after]
    · simp [State.after, update_of_ne hq]

section

variable (h : Inv γ s)
include h

theorem takes (hg : γ t = .ready) (hpos : 0 < (s.inode ip).ref)
    (hdoomed : ∀ q, q ≠ t → γ q ≠ .doomed ip) :
    Inv (update γ t .ready)
      ((s.setRef ip ((s.inode ip).ref + 1)).setHeld t (ip :: s.held t)) := by
  have hbook : (((Icache.book s).setHand t ⟨[], none, ip :: s.held t⟩).setRef ip
      ((s.inode ip).ref + 1)).Sound := h.book.inc nofun rfl rfl (.refl _)
  refine h.turn hg {s.inode ip with ref := (s.inode ip).ref + 1}
    (update s.held t (ip :: s.held t)) s.disk
    ⟨fun _ => Iff.rfl, fun _ _ => ⟨rfl, rfl⟩, fun hq hd => absurd hd (hdoomed _ hq)⟩
    (fun q hq => update_of_ne hq _ _) ?_ (.inl rfl) (.inl rfl) nofun trivial ?_
    (fun _ => h.apart hpos) (book_setRef s t ip _ _ _ rfl ▸ hbook) (fun _ _ _ _ => rfl)
    fun hvalid _ => h.agree_unless hg nofun hpos hvalid
  · intro jp _ hjp
    rw [update_self]
    exact List.mem_cons_of_mem _ hjp
  · intro site hlock
    rw [update_self]
    refine ⟨List.mem_cons_self, .inr ?_⟩
    have howns := (h.owner t hlock).2
    rw [hg] at howns
    exact howns.resolve_left nofun

theorem recycles (hg : γ t = .ready) (hzero : (s.inode ip).ref = 0)
    (hnew : ∀ jp, 0 < (s.inode jp).ref → ¬ ((s.inode jp).dev = dev ∧ (s.inode jp).inum = inum)) :
    Inv (update γ t .ready) ((s.setInode ip {s.inode ip with
      dev := dev, inum := inum, ref := 1, valid := false}).setHeld t (ip :: s.held t)) := by
  have hbook : (((Icache.book s).setHand t ⟨[], none, ip :: s.held t⟩).setRef ip 1).Sound :=
    h.book.alloc hzero nofun rfl rfl (.refl _)
  have hfree : ∀ {q site}, (s.inode ip).lock ≠ some (q, site) := by
    intro q site hlock
    have := h.pos_of_held (h.owner q hlock).1
    omega
  refine h.turn hg {s.inode ip with dev := dev, inum := inum, ref := 1, valid := false}
    (update s.held t (ip :: s.held t)) s.disk
    ⟨fun _ => Iff.rfl, fun _ hlock => absurd hlock hfree, fun hq hd => ?_⟩
    (fun q hq => update_of_ne hq _ _) ?_ (.inl rfl) (.inl rfl) nofun trivial
    (fun _ hlock => absurd hlock hfree) (fun _ jp _ => hnew jp)
    (by rw [book_setRef s t ip 1 _ _ rfl]; exact hbook) (fun _ _ _ _ => rfl) nofun
  · have := (h.each _).doomed hd
    omega
  · intro jp _ hjp
    rw [update_self]
    exact List.mem_cons_of_mem _ hjp

theorem drops (hg : γ t = .left ip) :
    Inv (update γ t .ready)
      ((s.setRef ip ((s.inode ip).ref - 1)).setHeld t ((s.held t).erase ip)) := by
  have hmem := h.held_at hg rfl
  have hpos := h.pos_of_held hmem
  have hbook : (((Icache.book s).setHand t ⟨[], none, (s.held t).erase ip⟩).setRef ip
      ((s.inode ip).ref - 1)).Sound := h.book.drop nofun rfl rfl (List.perm_cons_erase hmem)
  refine h.turn hg {s.inode ip with ref := (s.inode ip).ref - 1}
    (update s.held t ((s.held t).erase ip)) s.disk
    ⟨fun _ => Iff.rfl, fun _ _ => ⟨rfl, rfl⟩, fun hq hd => absurd hd (h.not_doomed_of_held hmem hq)⟩
    (fun q hq => update_of_ne hq _ _) ?_ (.inr rfl) (.inl rfl) nofun trivial
    (fun site hlock => absurd hlock ((h.each t).left hg)) (fun _ => h.apart hpos)
    (book_setRef s t ip _ _ _ rfl ▸ hbook) (fun _ _ _ _ => rfl)
    fun hvalid _ => h.agree_unless hg nofun hpos hvalid
  intro jp hjp hheld
  rw [update_self]
  exact (List.mem_erase_of_ne hjp).mpr hheld

end

end Inv

/-! ### Locks -/

/-- Where `acquiresleep` leads. -/
def Stage.got (ip : Ix) : Site → Stage
  | .ilock => .loading ip
  | .iput => .putting ip

theorem State.after_self : s.after ip (s.inode ip) s.held s.disk = s := by
  simp [State.after]

namespace Inv

section

variable (h : Inv γ s) {y : Dinode}
include h

theorem stay (hg : γ t = g) : Inv (update γ t g) s := by
  rw [← hg, update_eq_self]
  exact h

theorem acquires (hg : γ t = .ready) (hmem : ip ∈ s.held t) (hlock : (s.inode ip).lock = none) :
    Inv (update γ t (.got ip site))
      (s.setInode ip {s.inode ip with lock := some (t, site)}) := by
  have hpos := h.pos_of_held hmem
  have hdoomed : ∀ q, γ q ≠ .doomed ip := by
    intro q hq
    have hput := h.lock_at hq rfl
    rw [hlock] at hput
    cases hput
  refine h.turn hg {s.inode ip with lock := some (t, site)} s.held s.disk
    ⟨fun hq => ?_, fun _ hl => ?_, fun _ hd => absurd hd (hdoomed _)⟩ (fun _ _ => rfl)
    (fun _ _ hjp => hjp) (.inl rfl) (.inr (by cases site <;> rfl)) (fun _ => hmem)
    (by cases site <;> rfl) (fun site' hs => ⟨hmem, .inl ?_⟩) (fun _ => h.apart hpos)
    (h.book_after rfl) (fun _ _ _ _ => rfl)
    fun hvalid _ => h.agree_unless hg nofun hpos hvalid
  · rw [hlock]
    simp [Ne.symm hq]
  · rw [hlock] at hl
    cases hl
  · cases hs
    cases site <;> rfl

theorem learns (hg : γ t = g) (hx : (s.inode ip).lock = some (t, site))
    (hlost : ∀ site, g ≠ .lost ip site) (hold : g.At ip) (hnew : g'.At ip)
    (hfits : g'.Fits t (s.inode ip))
    (howns : g'.locked = some (ip, site) ∨ (site = .ilock ∧ (s.inode ip).valid = true)) :
    Inv (update γ t g') s := by
  have hmove : Inv (update γ t g') (s.after ip (s.inode ip) s.held s.disk) :=
    h.inside hg hx _ _ _ _ (.inl hx) hold hnew hfits (fun _ => howns) (fun _ _ _ => rfl)
      (fun hvalid => .inl (h.agree_of_lock hg hx hlost hvalid))
  rw [State.after_self] at hmove
  exact hmove

theorem loads (hg : γ t = .loading ip) :
    Inv (update γ t (if (s.stored ip).type = none then .lost ip .ilock else .ready))
      (s.setInode ip {s.inode ip with valid := true, copy := s.stored ip}) := by
  have hx := h.lock_at hg rfl
  by_cases htype : (s.stored ip).type = none
  · rw [if_pos htype]
    exact h.inside hg hx _ true (s.stored ip) s.disk (.inl hx) (.inr rfl) (.inr rfl) hx
      (fun _ => .inl rfl) (fun _ _ _ => rfl) (fun _ => .inr ⟨.ilock, rfl⟩)
  · rw [if_neg htype]
    exact h.inside hg hx _ true (s.stored ip) s.disk (.inl hx) (.inr rfl) (.inl rfl) trivial
      (fun _ => .inr ⟨rfl, rfl⟩) (fun _ _ _ => rfl) (fun _ => .inl ⟨rfl, htype⟩)

section
variable (hg : γ t = g) (hx : (s.inode ip).lock = some (t, site))
  (hlost : ∀ site, g ≠ .lost ip site) (hold : g.At ip)
include hg hx hlost hold

theorem releases (hg' : g' = .ready ∨ g' = .left ip) :
    Inv (update γ t g') (s.setInode ip {s.inode ip with lock := none}) :=
  h.inside hg hx none _ _ s.disk (.inr rfl) hold
    (by rcases hg' with rfl | rfl; exacts [.inl rfl, .inr rfl])
    (by rcases hg' with rfl | rfl; exacts [trivial, nofun]) nofun (fun _ _ _ => rfl)
    fun hvalid => .inl (h.agree_of_lock hg hx hlost hvalid)

theorem rewrites (hvalid : (s.inode ip).valid = true)
    (htype : y.type = (s.inode ip).copy.type) (hfits : g.Fits t {s.inode ip with copy := y}) :
    Inv (update γ t g) (s.iupdate ip y) := by
  subst hg
  exact h.inside rfl hx _ _ y (s.setDisk (s.inode ip).dev (s.inode ip).inum y).disk (.inl hx) hold hold
    hfits (fun hl => (h.owner t hl).2) (fun d i hne => by simp [State.setDisk, hne])
    (fun _ => .inl ⟨by simp [State.setDisk], by
      rw [htype]; exact (h.agree_of_lock rfl hx hlost hvalid).2⟩)

end

theorem clears (hg : γ t = .doomed ip) : Inv (update γ t (.lost ip .iput))
      (s.iupdate ip {(s.inode ip).copy with type := none}) := by
  have hx := h.lock_at hg rfl
  exact h.inside hg hx _ _ {(s.inode ip).copy with type := none}
    (s.setDisk (s.inode ip).dev (s.inode ip).inum {(s.inode ip).copy with type := none}).disk
    (.inl hx) (.inr rfl) (.inr rfl) hx (fun _ => .inl rfl)
    (fun d i hne => by simp [State.setDisk, hne]) (fun _ => .inr ⟨.iput, rfl⟩)

theorem invalidates (hg : γ t = .lost ip .iput) :
    Inv (update γ t (.putting ip)) (s.setInode ip {s.inode ip with valid := false}) := by
  have hx := h.lock_at hg rfl
  exact h.inside hg hx _ false _ s.disk (.inl hx) (.inr rfl) (.inr rfl) hx (fun _ => .inl rfl)
    (fun _ _ _ => rfl) nofun

theorem allocs (hfree : (s.disk dev inum).type = none) :
    Inv γ (s.setDisk dev inum y) where
  each := fun q => {h.each q with}
  owner := h.owner
  unique := h.unique
  book := h.book
  agree := fun {ip} hvalid hpos => by
    refine (h.agree hvalid hpos).imp_left fun ⟨hcopy, htype⟩ => ⟨hcopy.trans ?_, htype⟩
    have hne : ¬ ((s.inode ip).dev = dev ∧ (s.inode ip).inum = inum) := by
      intro ⟨hdev, hinum⟩
      rw [hcopy, State.stored, hdev, hinum] at htype
      exact htype hfree
    exact (if_neg hne).symm

end

end Inv

end ThreadKernel.Icache
