import ThreadKernel.Block.Owned

/-! `bmap`, and what the steps of a write keep.

`Extends` is what they all keep: the inode gets places filled with blocks that were free, and
nothing that belongs to others changes. `bmap` fills a place of its own when it is empty, and the
indirect block before it. -/
namespace ThreadKernel.Block

open Bytes Field

variable {sb : Superblock} {d d' d'' : Disk} {ip ip' ip'' : Inode} {x : Dinode}
  {j k b c e bn off n : Nat}

/-! ### What a write keeps -/

structure Extends (sb : Superblock) (d : Disk) (ip : Inode) (d' : Disk) (ip' : Inode) : Prop where
  owned : Owned sb d' ip'
  rest : {ip with addrs := ip'.addrs} = ip'
  used : ∀ c, c < sb.size → Block.used sb d c = true → Block.used sb d' c = true
  kept : ∀ e, e < PLACES → ref sb d ip ip.inum e ≠ 0 →
    ref sb d' ip' ip.inum e = ref sb d ip ip.inum e
  fresh : ∀ e, e < PLACES → ref sb d' ip' ip.inum e = ref sb d ip ip.inum e ∨
    Block.used sb d (ref sb d' ip' ip.inum e) = false
  others : ∀ j e, j < sb.ninodes → e < PLACES → j ≠ ip.inum → ref sb d' ip' j e = ref sb d ip j e
  foreign : ∀ c, IsData sb c → Block.used sb d c = true →
    (∀ e, e < PLACES → ref sb d ip ip.inum e ≠ c) → d' c = d c
  inodes : ∀ c, c < sb.bmapstart → d' c = d c

namespace Extends

theorem refl (h : Owned sb d ip) : Extends sb d ip d ip :=
  ⟨h, rfl, fun _ _ h => h, fun _ _ _ => rfl, fun _ _ => .inl rfl, fun _ _ _ _ _ => rfl,
    fun _ _ _ _ => rfl, fun _ _ => rfl⟩

theorem inum (h : Extends sb d ip d' ip') : ip'.inum = ip.inum := by rw [← h.rest]

theorem trans (h : Extends sb d ip d' ip') (h' : Extends sb d' ip' d'' ip'') :
    Extends sb d ip d'' ip'' := by
  have hinum := h.inum
  have hfresh' := h'.fresh
  have hkept' := h'.kept
  have hothers' := h'.others
  have hforeign' := h'.foreign
  rw [hinum] at hfresh' hkept' hothers' hforeign'
  have hkept : ∀ e, e < PLACES → ref sb d ip ip.inum e ≠ 0 →
      ref sb d'' ip'' ip.inum e = ref sb d ip ip.inum e := fun e he hne => by
    rw [hkept' e he (by rw [h.kept e he hne]; exact hne), h.kept e he hne]
  refine ⟨h'.owned, ?_, fun c hc hu => h'.used c hc (h.used c hc hu), hkept,
    fun e he => ?_, fun j e hj he hne => ?_, fun c hc hu hnot => ?_, fun c hc => ?_⟩
  · rw [← h'.rest, ← h.rest]
  · rcases hfresh' e he with heq | hfree
    · rw [heq]
      exact h.fresh e he
    · by_cases hzero : ref sb d ip ip.inum e = 0
      · by_cases hzero' : ref sb d'' ip'' ip.inum e = 0
        · exact .inl (hzero'.trans hzero.symm)
        · have hinum'' : ip.inum < sb.ninodes := by
            rw [← hinum]
            exact h.owned.inum
          have hlt := (h'.owned.data _ e hinum'' he hzero').1.2
          refine .inr (Bool.eq_false_iff.mpr fun hu => ?_)
          rw [h.used _ hlt hu] at hfree
          cases hfree
      · exact .inl (hkept e he hzero)
  · rw [hothers' j e hj he hne, h.others j e hj he hne]
  · rw [hforeign' c hc (h.used c hc.2 hu) fun e he heq => ?_, h.foreign c hc hu hnot]
    rcases h.fresh e he with hsame | hfree
    · exact hnot e he (hsame ▸ heq)
    · rw [heq, hu] at hfree
      cases hfree
  · rw [h'.inodes c hc, h.inodes c hc]

end Extends

theorem Filled.extends (h : Filled sb d ip e b d' ip') (ho : Owned sb d ip)
    (hempty : ref sb d ip ip.inum e = 0) : Extends sb d ip d' ip' := by
  refine ⟨h.owned ho, h.rest, fun c hc hu => by rw [h.used c hc, hu, Bool.or_true],
    fun e' he' hne => ?_, fun e' he' => ?_, fun j e' hj he' hne => ?_, fun c hc hu hnot => ?_,
    h.inodes⟩
  · have hnot : ¬(ip.inum = ip.inum ∧ e' = e) := fun heq => hne (heq.2 ▸ hempty)
    rw [h.refs _ e' ho.inum he', if_neg hnot]
  · rw [h.refs _ e' ho.inum he']
    split
    · exact .inr h.fresh
    · exact .inl rfl
  · rw [h.refs j e' hj he', if_neg fun heq => hne heq.1]
  · refine h.other c hc.1 (fun heq => ?_) fun heq => ?_
    · rw [heq, h.fresh] at hu
      cases hu
    · refine hnot NDIRECT (by decide) ?_
      rw [ho.ref_self, entry_indirect, heq]

/-! ### bmap -/

/-- How many blocks `bmap` has to ask for over these blocks of the file. -/
def need (d : Disk) (x : Dinode) (bns : List Nat) : Nat :=
  (bns.countP fun bn => entry d x (place bn) = 0) +
    if indirect x = 0 ∧ ∃ bn ∈ bns, NDIRECT ≤ bn then 1 else 0

/-- `bmap` has found block `b`. -/
structure Mapped (sb : Superblock) (d : Disk) (ip : Inode) (bn b : Nat) (d' : Disk) (ip' : Inode) :
    Prop extends Extends sb d ip d' ip' where
  block : ref sb d' ip' ip.inum (place bn) = b
  pos : b ≠ 0
  mine : ∀ e, e < PLACES → e ≠ place bn → e ≠ NDIRECT ∨ bn < NDIRECT →
    ref sb d' ip' ip.inum e = ref sb d ip ip.inum e
  own : ∀ e, e < PLACES → e ≠ NDIRECT → ref sb d ip ip.inum e ≠ 0 →
    d' (ref sb d ip ip.inum e) = d (ref sb d ip ip.inum e)
  noop : ref sb d ip ip.inum (place bn) ≠ 0 → d' = d ∧ ip' = ip
  count : freeCount sb d' + need d ip.toDinode [bn] = freeCount sb d

theorem place_lt (h : bn < MAXFILE) : place bn < PLACES := by
  have hplaces : PLACES = MAXFILE + 1 := rfl
  have hle : place bn ≤ bn + 1 := by
    unfold place
    split <;> omega
  omega

theorem place_ne (bn : Nat) : place bn ≠ NDIRECT := by
  unfold place
  split <;> omega

theorem place_inj {bn' : Nat} (h : place bn = place bn') : bn = bn' := by
  unfold place at h
  split at h <;> split at h <;> omega

/-- Without an indirect block there is nothing in its places. -/
theorem indirect_ne_zero (h : NDIRECT ≤ bn) (hne : entry d x (place bn) ≠ 0) : indirect x ≠ 0 := by
  intro hzero
  have hplace : place bn = bn + 1 := if_neg (Nat.not_lt.mpr h)
  rw [hplace, entry, dif_neg (by omega), if_pos hzero] at hne
  exact hne rfl

theorem need_one (d : Disk) (x : Dinode) (bn : Nat) : need d x [bn] =
    (if entry d x (place bn) = 0 then 1 else 0) + if indirect x = 0 ∧ NDIRECT ≤ bn then 1 else 0 := by
  simp [need, List.countP_cons]

theorem Mapped.found (ho : Owned sb d ip) (hne : ref sb d ip ip.inum (place bn) ≠ 0) :
    Mapped sb d ip bn (ref sb d ip ip.inum (place bn)) d ip := by
  refine ⟨.refl ho, rfl, hne, fun _ _ _ _ => rfl, fun _ _ _ _ => rfl, fun _ => ⟨rfl, rfl⟩, ?_⟩
  rw [ho.ref_self] at hne
  rw [need_one, if_neg hne, if_neg fun h => indirect_ne_zero h.2 hne h.1]
  rfl

theorem Filled.mapped (h : Filled sb d ip (place bn) b d' ip') (ho : Owned sb d ip)
    (hbn : bn < MAXFILE) (hempty : ref sb d ip ip.inum (place bn) = 0)
    (hind : NDIRECT ≤ bn → indirect ip.toDinode ≠ 0) : Mapped sb d ip bn b d' ip' := by
  refine ⟨h.extends ho hempty, ?_, ?_, fun e he hne _ => ?_, fun e he hlast hne => ?_,
    fun hne => absurd hempty hne, ?_⟩
  · rw [h.refs _ _ ho.inum (place_lt hbn), if_pos ⟨rfl, rfl⟩]
  · have hpos := nmeta_pos sb
    have hdata := h.data.1
    omega
  · rw [h.refs _ e ho.inum he, if_neg fun heq => hne heq.2]
  · refine h.other _ (ho.data _ e ho.inum he hne).1.1 (ho.ref_ne ho.inum he h.data h.fresh) ?_
    rw [← entry_indirect d, ← ho.ref_self]
    exact fun heq => hlast (ho.once _ e _ NDIRECT ho.inum he ho.inum (by decide) hne heq).2
  · rw [ho.ref_self] at hempty
    rw [need_one, if_pos hempty, if_neg fun hboth => hind hboth.2 hboth.1, h.count]

/-- The indirect block and then the place in it. -/
theorem Mapped.twice {b₁ : Nat} {d₁ : Disk} {ip₁ : Inode} (ho : Owned sb d ip)
    (hbn : NDIRECT ≤ bn) (hlt : bn < MAXFILE) (hind : indirect ip.toDinode = 0)
    (h₁ : Filled sb d ip NDIRECT b₁ d₁ ip₁) (h₂ : Filled sb d₁ ip₁ (place bn) b d' ip') :
    Mapped sb d ip bn b d' ip' := by
  have hempty : ref sb d ip ip.inum NDIRECT = 0 := by rw [ho.ref_self, entry_indirect, hind]
  have hempty' : entry d ip.toDinode (place bn) = 0 := by
    by_contra hne
    exact indirect_ne_zero hbn hne hind
  have ho₁ := h₁.owned ho
  have hinum := h₁.inum
  have hrefs₁ : ∀ e, e < PLACES → e ≠ NDIRECT → ref sb d₁ ip₁ ip.inum e = ref sb d ip ip.inum e :=
    fun e he hne => by rw [h₁.refs _ e ho.inum he, if_neg fun heq => hne heq.2]
  have hplace := place_lt hlt
  have hempty₁ : ref sb d₁ ip₁ ip₁.inum (place bn) = 0 := by
    rw [hinum, hrefs₁ _ hplace (place_ne bn), ho.ref_self, hempty']
  have hind₁ : indirect ip₁.toDinode ≠ 0 := by
    have hpos := nmeta_pos sb
    have hdata := h₁.data.1
    rw [← entry_indirect d₁, ← ho₁.ref_self, hinum, h₁.refs _ _ ho.inum (by decide),
      if_pos ⟨rfl, rfl⟩]
    omega
  have hm₂ := h₂.mapped ho₁ hlt hempty₁ fun _ => hind₁
  refine ⟨(h₁.extends ho hempty).trans hm₂.toExtends, hinum ▸ hm₂.block, hm₂.pos,
    fun e he hne hlast => ?_, fun e he hlast hne => ?_, fun hne => ?_, ?_⟩
  · have hlast := hlast.resolve_right (Nat.not_lt.mpr hbn)
    have hmine := hm₂.mine e he hne (.inl hlast)
    rw [hinum] at hmine
    rw [hmine, hrefs₁ e he hlast]
  · have hown := hm₂.own e he hlast
    rw [hinum, hrefs₁ e he hlast] at hown
    rw [hown hne, h₁.other _ (ho.data _ e ho.inum he hne).1.1
      (ho.ref_ne ho.inum he h₁.data h₁.fresh) (by rw [hind]; exact hne)]
  · rw [ho.ref_self] at hne
    exact absurd hempty' hne
  · have hcount := h₁.count
    have hcount₂ := h₂.count
    rw [need_one, if_pos hempty', if_pos ⟨hind, hbn⟩]
    omega

theorem bmap_spec (ho : Owned sb d ip) (hbn : bn < MAXFILE)
    (hneed : need d ip.toDinode [bn] ≤ freeCount sb d) :
    ∃ b ip' d', bmap sb d ip bn = .ok (b, ip', d') ∧ Mapped sb d ip bn b d' ip' := by
  rw [need_one] at hneed
  unfold bmap
  by_cases hdirect : bn < NDIRECT
  · have hplace : place bn = bn := if_pos hdirect
    have hentry : entry d ip.toDinode (place bn) = (ip.addrs ⟨bn, by omega⟩).toNat := by
      rw [hplace, entry_of_lt]
    rw [dif_pos hdirect]
    by_cases hzero : ip.addrs ⟨bn, by omega⟩ = 0
    · rw [hzero] at hentry
      change entry d ip.toDinode (place bn) = 0 at hentry
      rw [if_pos hentry] at hneed
      obtain ⟨b, d', hballoc, hb⟩ := balloc_spec ho.marked (by omega)
      have hfilled := fill_direct ho (by omega) (hplace ▸ hentry) hb
      rw [if_pos hzero, hballoc]
      refine ⟨b, _, d', rfl, Filled.mapped (hplace.symm ▸ hfilled) ho hbn ?_ fun h => by omega⟩
      rw [ho.ref_self, hentry]
    · rw [if_neg hzero]
      have hne : ref sb d ip ip.inum (place bn) ≠ 0 := by
        rw [ho.ref_self, hentry]
        exact fun h => hzero (BitVec.eq_of_toNat_eq h)
      refine ⟨_, ip, d, rfl, ?_⟩
      rw [← hentry, ← ho.ref_self]
      exact Mapped.found ho hne
  · have hge : NDIRECT ≤ bn := Nat.le_of_not_lt hdirect
    have hplace : place bn = bn + 1 := if_neg hdirect
    have hlast : NDIRECT < place bn := by omega
    have hslot : place bn - (NDIRECT + 1) = bn - NDIRECT := by omega
    have hrange : bn - NDIRECT < NINDIRECT := by
      have hmax : MAXFILE = NDIRECT + NINDIRECT := rfl
      omega
    rw [dif_neg hdirect, if_pos hrange]
    by_cases hzero : ip.addrs (Fin.last NDIRECT) = 0
    · -- the indirect block first
      have hind : indirect ip.toDinode = 0 := congrArg BitVec.toNat hzero
      have hempty : entry d ip.toDinode (place bn) = 0 := by
        by_contra hne
        exact indirect_ne_zero hge hne hind
      rw [if_pos hempty, if_pos ⟨hind, hge⟩] at hneed
      obtain ⟨b₁, d₁, hballoc₁, hb₁⟩ := balloc_spec ho.marked (by omega)
      have h₁ := fill_direct ho (Nat.lt_succ_self NDIRECT) ((entry_indirect d _).trans hind) hb₁
      have ho₁ := h₁.owned ho
      have hcount := h₁.count
      generalize hip₁ : ip.setAddr ⟨NDIRECT, Nat.lt_succ_self NDIRECT⟩ (BitVec.ofNat 32 b₁) = ip₁ at *
      have hind₁ : indirect ip₁.toDinode = b₁ := by
        rw [← entry_indirect d₁, ← ho₁.ref_self, h₁.inum, h₁.refs _ _ ho.inum (by decide),
          if_pos ⟨rfl, rfl⟩]
      have hpos : indirect ip₁.toDinode ≠ 0 := by
        have hmeta := nmeta_pos sb
        have hdata := h₁.data.1
        omega
      obtain ⟨b, d', hballoc, hb⟩ := balloc_spec ho₁.marked (by omega)
      have h₂ := fill_slot ho₁ hlast hpos hb
      refine ⟨b, ip₁, _, ?_, Mapped.twice ho hge hbn hind h₁ h₂⟩
      have hnone : getAddr (d₁ (indirect ip₁.toDinode)) (bn - NDIRECT) = 0 := by
        rw [hind₁, hb₁.zero, getAddr_zero]
      rw [if_pos hzero, hballoc₁]
      simp only [bind, Except.bind, pure, Except.pure]
      rw [show Fin.last NDIRECT = ⟨NDIRECT, Nat.lt_succ_self NDIRECT⟩ from rfl, hip₁]
      change (if getAddr (d₁ (indirect ip₁.toDinode)) (bn - NDIRECT) = 0 then _ else _) = _
      rw [if_pos hnone, hballoc, hslot]
      rfl
    · have hind : indirect ip.toDinode ≠ 0 := fun h => hzero (BitVec.eq_of_toNat_eq h)
      have hentry : entry d ip.toDinode (place bn) =
          (getAddr (d (indirect ip.toDinode)) (bn - NDIRECT)).toNat := by
        rw [entry_slot hlast hind, hslot]
      rw [if_neg hzero]
      change ∃ b ip' d', (if getAddr (d (indirect ip.toDinode)) (bn - NDIRECT) = 0 then _ else _) = _ ∧ _
      by_cases hnone : getAddr (d (indirect ip.toDinode)) (bn - NDIRECT) = 0
      · rw [hnone] at hentry
        change entry d ip.toDinode (place bn) = 0 at hentry
        rw [if_pos hentry] at hneed
        obtain ⟨b, d', hballoc, hb⟩ := balloc_spec ho.marked (by omega)
        have hfilled := fill_slot ho hlast hind hb
        rw [hslot] at hfilled
        refine ⟨b, ip, _, ?_, hfilled.mapped ho hbn (by rw [ho.ref_self, hentry]) fun _ => hind⟩
        rw [if_pos hnone, hballoc]
        rfl
      · have hne : ref sb d ip ip.inum (place bn) ≠ 0 := by
          rw [ho.ref_self, hentry]
          exact fun h => hnone (BitVec.eq_of_toNat_eq h)
        refine ⟨ref sb d ip ip.inum (place bn), ip, d, ?_, Mapped.found ho hne⟩
        rw [if_neg hnone, ho.ref_self, hentry]
        rfl

end ThreadKernel.Block
