import ThreadKernel.Block.Inode

/-! Which blocks belong to whom.

Of an inode there are 141 places for a block number: twelve for its first blocks, one for the
indirect block, and those in the indirect block. Block `bn` of the file has place `place bn`. In
a sound file system a number stands in one place of one inode; its block is a data block and is
marked in the bitmap. `balloc` fills one place and changes no other. -/
namespace ThreadKernel.Block

open Bytes Field Function

variable {sb : Superblock} {d d' : Disk} {ip ip' : Inode} {blk blk' : Data} {x : Dinode}
  {i j k b c e e' bn : Nat}

/-! ### The layout -/

/-- Boot block, superblock, log, inodes and bitmap; the data blocks come after. -/
def nmeta (sb : Superblock) : Nat := sb.bmapstart + sb.size / BPB + 1

structure Layout (sb : Superblock) : Prop where
  inodes : sb.inodestart + sb.ninodes / IPB + 1 ≤ sb.bmapstart
  fits : sb.size < 2 ^ 32

theorem Layout.iblock_lt (h : Layout sb) (hi : i < sb.ninodes) : IBLOCK i sb < sb.bmapstart := by
  have hinodes := h.inodes
  have hdiv : i / IPB ≤ sb.ninodes / IPB := Nat.div_le_div_right hi.le
  unfold IBLOCK
  omega

theorem bmapstart_lt_nmeta (sb : Superblock) : sb.bmapstart < nmeta sb :=
  Nat.lt_succ_of_le (Nat.le_add_right _ _)

theorem bmapstart_le_bblock (sb : Superblock) (b : Nat) : sb.bmapstart ≤ BBLOCK b sb := Nat.le_add_left _ _

theorem bblock_lt_nmeta (hb : b < sb.size) : BBLOCK b sb < nmeta sb := by
  have hdiv : b / BPB ≤ sb.size / BPB := Nat.div_le_div_right hb.le
  unfold BBLOCK nmeta
  omega

/-! ### Fields -/

theorem ofNat_num {w : Nat} (v : BitVec (8 * w)) (blk : Data) (off : Nat) :
    BitVec.ofNat (8 * w) (num (setNum blk off w v.toNat) off w) = v := by
  have hlt : v.toNat < 256 ^ w := by
    have h := v.isLt
    rwa [Nat.pow_mul] at h
  rw [num_setNum hlt, BitVec.ofNat_toNat, BitVec.setWidth_eq]

@[simp]
theorem getAddr_putAddr (blk : Data) (k : Nat) (w : BitVec 32) : getAddr (putAddr blk k w) k = w :=
  ofNat_num (w := 4) w blk (4 * k)

theorem getAddr_putAddr_of_ne (h : j ≠ k) (blk : Data) (w : BitVec 32) :
    getAddr (putAddr blk k w) j = getAddr blk j := by
  rw [getAddr, putAddr, num_setNum_other (by omega)]
  rfl

theorem getAddr_zero (k : Nat) : getAddr (fun _ => 0) k = 0 := by
  rfl

@[simp]
theorem length_addrBytes (x : Dinode) : x.addrBytes.length = 52 := by
  rw [Dinode.addrBytes, List.length_flatMap]
  rfl

theorem getDinode_congr (h : ∀ o, 64 * k ≤ o → o < 64 * (k + 1) → blk o = blk' o) :
    getDinode blk k = getDinode blk' k := by
  unfold getDinode
  congr 1
  · rw [num_congr fun o _ _ => h o (by omega) (by omega)]
  · rw [num_congr fun o _ _ => h o (by omega) (by omega)]
  · rw [num_congr fun o _ _ => h o (by omega) (by omega)]
  · rw [num_congr fun o _ _ => h o (by omega) (by omega)]
  · rw [num_congr fun o _ _ => h o (by omega) (by omega)]
  · funext i
    have hi : i.val < 13 := i.isLt
    rw [num_congr fun o _ _ => h o (by omega) (by omega)]

theorem putDinode_other {o : Nat} (h : ¬(64 * k ≤ o ∧ o < 64 * (k + 1))) :
    putDinode blk k x o = blk o := by
  unfold putDinode
  rw [splice_other (by rw [length_addrBytes]; omega), setNum_other (by omega),
    setNum_other (by omega), setNum_other (by omega), setNum_other (by omega),
    setNum_other (by omega)]

theorem getDinode_putDinode_of_ne (h : j ≠ k) (blk : Data) (x : Dinode) :
    getDinode (putDinode blk k x) j = getDinode blk j :=
  getDinode_congr fun _ _ _ => putDinode_other (by omega)

theorem getDinode_putDinode (blk : Data) (k : Nat) (x : Dinode) :
    getDinode (putDinode blk k x) k = x := by
  unfold getDinode putDinode
  cases x with | mk type major minor nlink size addrs =>
  congr 1
  · rw [num_splice_other (by omega), num_setNum_other (by omega), num_setNum_other (by omega),
      num_setNum_other (by omega), num_setNum_other (by omega)]
    exact ofNat_num (w := 2) type _ _
  · rw [num_splice_other (by omega), num_setNum_other (by omega), num_setNum_other (by omega),
      num_setNum_other (by omega)]
    exact ofNat_num (w := 2) major _ _
  · rw [num_splice_other (by omega), num_setNum_other (by omega), num_setNum_other (by omega)]
    exact ofNat_num (w := 2) minor _ _
  · rw [num_splice_other (by omega), num_setNum_other (by omega)]
    exact ofNat_num (w := 2) nlink _ _
  · rw [num_splice_other (by omega)]
    exact ofNat_num (w := 4) size _ _
  · funext i
    have hi : (List.finRange (NDIRECT + 1))[i.val]? = some i := by
      rw [List.getElem?_eq_getElem (by rw [List.length_finRange]; exact i.isLt),
        List.getElem_finRange]
      rfl
    rw [num, Dinode.addrBytes, slice_splice_flatMap (fun _ => length_toBytes 4 _) hi,
      ofBytes_toBytes (addrs i).isLt, BitVec.ofNat_toNat, BitVec.setWidth_eq]

/-! ### The bitmap -/

def used (sb : Superblock) (d : Disk) (b : Nat) : Bool := bit (d (BBLOCK b sb)) (b % BPB)

theorem isFree_eq (sb : Superblock) (d : Disk) (b : Nat) : isFree sb d b = !used sb d b := by
  simp only [isFree, and_shift_eq_zero_iff, used, Bool.decide_eq_false]

theorem bblock_inj (hblock : BBLOCK b sb = BBLOCK c sb) (hbit : b % BPB = c % BPB) : b = c := by
  have hdiv : b / BPB = c / BPB := Nat.add_right_cancel hblock
  rw [← Nat.div_add_mod b BPB, hdiv, hbit, Nat.div_add_mod]

theorem used_mark (sb : Superblock) (d : Disk) (b c : Nat) (v : Bool) :
    used sb (mark sb d b v) c = if c = b then v else used sb d c := by
  unfold used mark
  by_cases hblock : BBLOCK c sb = BBLOCK b sb
  · rw [hblock, update_self, bit_setBit]
    have hiff : c % BPB = b % BPB ↔ c = b := ⟨bblock_inj hblock, fun h => by rw [h]⟩
    rw [if_congr hiff rfl rfl]
  · have hne : c ≠ b := fun h => hblock (by rw [h])
    rw [update_of_ne hblock, if_neg hne]

theorem used_update (hb : nmeta sb ≤ b) (hc : c < sb.size) (blk : Data) :
    used sb (update d b blk) c = used sb d c := by
  have hlt := bblock_lt_nmeta hc
  rw [used, update_of_ne (by omega)]
  rfl

def freeCount (sb : Superblock) (d : Disk) : Nat := (List.range sb.size).countP fun b => !used sb d b

def IsData (sb : Superblock) (b : Nat) : Prop := nmeta sb ≤ b ∧ b < sb.size

/-- `balloc` has returned `b`. -/
structure Balloced (sb : Superblock) (d : Disk) (b : Nat) (d' : Disk) : Prop where
  data : IsData sb b
  fresh : used sb d b = false
  used : ∀ c, c < sb.size → used sb d' c = (decide (c = b) || used sb d c)
  zero : d' b = fun _ => 0
  other : ∀ c, nmeta sb ≤ c → c ≠ b → d' c = d c
  inodes : ∀ c, c < sb.bmapstart → d' c = d c
  count : freeCount sb d' + 1 = freeCount sb d

theorem freeCount_mark (hb : b < sb.size) (hfresh : used sb d b = false)
    (hused : ∀ c, c < sb.size → used sb d' c = (decide (c = b) || used sb d c)) :
    freeCount sb d' + 1 = freeCount sb d := by
  have hsplit := List.perm_cons_erase (List.mem_range.mpr hb)
  have hrest : ((List.range sb.size).erase b).countP (fun c => !used sb d' c) =
      ((List.range sb.size).erase b).countP fun c => !used sb d c := by
    refine List.countP_congr fun c hc => ?_
    have hne : c ≠ b := fun h => List.nodup_range.not_mem_erase (h ▸ hc)
    rw [hused c (List.mem_range.mp (List.mem_of_mem_erase hc)), decide_eq_false hne, Bool.false_or]
  rw [freeCount, freeCount, hsplit.countP_eq, hsplit.countP_eq, List.countP_cons, List.countP_cons,
    hrest, hused b hb, hfresh]
  simp

theorem balloc_spec (hmeta : ∀ b, b < nmeta sb → b < sb.size → used sb d b = true)
    (hfree : 0 < freeCount sb d) : ∃ b d', balloc sb d = .ok (b, d') ∧ Balloced sb d b d' := by
  obtain ⟨c, hc, hcfree⟩ := List.countP_pos_iff.mp hfree
  unfold balloc
  cases hfind : (List.range sb.size).find? (isFree sb d) with
  | none =>
    have hnot := List.find?_eq_none.mp hfind c hc
    rw [isFree_eq] at hnot
    exact absurd hcfree hnot
  | some b =>
    have hb : b < sb.size := List.mem_range.mp (List.mem_of_find?_eq_some hfind)
    have hfresh : used sb d b = false := by
      have hisFree := List.find?_some hfind
      rw [isFree_eq] at hisFree
      exact Bool.not_eq_true' _ ▸ hisFree
    have hdata : nmeta sb ≤ b := by
      by_contra hlt
      rw [hmeta b (by omega) hb] at hfresh
      cases hfresh
    have hused : ∀ c, c < sb.size →
        used sb (bzero (mark sb d b true) b) c = (decide (c = b) || used sb d c) := fun c hc => by
      rw [bzero, used_update hdata hc, used_mark]
      by_cases h : c = b <;> simp [h]
    refine ⟨b, _, rfl, ⟨hdata, hb⟩, hfresh, hused, update_self _ _ _, fun c hc hne => ?_,
      fun c hc => ?_, freeCount_mark hb hfresh hused⟩
    · have hlt := bblock_lt_nmeta hb
      rw [bzero, update_of_ne hne, mark, update_of_ne (by omega)]
    · have hle := bmapstart_le_bblock sb b
      have hlt := bblock_lt_nmeta hb
      rw [bzero, update_of_ne (by omega), mark, update_of_ne (by omega)]

/-! ### Places -/

/-- The places of an inode for block numbers. -/
abbrev PLACES : Nat := MAXFILE + 1

/-- Where the number of block `bn` of a file stands. -/
def place (bn : Nat) : Nat := if bn < NDIRECT then bn else bn + 1

/-- The indirect block of an inode; 0 when there is none. -/
def indirect (x : Dinode) : Nat := (x.addrs (Fin.last NDIRECT)).toNat

/-- What stands in place `e`. -/
def entry (d : Disk) (x : Dinode) (e : Nat) : Nat :=
  if h : e < NDIRECT + 1 then (x.addrs ⟨e, h⟩).toNat
  else if indirect x = 0 then 0
  else (getAddr (d (indirect x)) (e - (NDIRECT + 1))).toNat

theorem entry_indirect (d : Disk) (x : Dinode) : entry d x NDIRECT = indirect x := dif_pos (Nat.lt_succ_self _)

theorem entry_of_lt (h : e < NDIRECT + 1) (d : Disk) (x : Dinode) :
    entry d x e = (x.addrs ⟨e, h⟩).toNat := dif_pos h

theorem entry_slot (h : NDIRECT < e) (hind : indirect x ≠ 0) (d : Disk) :
    entry d x e = (getAddr (d (indirect x)) (e - (NDIRECT + 1))).toNat := by
  rw [entry, dif_neg (by omega), if_neg hind]

theorem entry_congr (h : indirect x ≠ 0 → d' (indirect x) = d (indirect x)) :
    entry d' x e = entry d x e := by
  unfold entry
  split
  · rfl
  · split
    · rfl
    · rename_i hind
      rw [h hind]

/-- The inode of the caller is the copy in memory, the others are on the disk. -/
def view (sb : Superblock) (d : Disk) (ip : Inode) (j : Nat) : Dinode :=
  if j = ip.inum then ip.toDinode else readInode sb d j

/-- What stands in place `e` of inode `j`, if it is allocated. -/
def ref (sb : Superblock) (d : Disk) (ip : Inode) (j e : Nat) : Nat :=
  if (view sb d ip j).type = 0 then 0 else entry d (view sb d ip j) e

structure Owned (sb : Superblock) (d : Disk) (ip : Inode) : Prop where
  layout : Layout sb
  inum : ip.inum < sb.ninodes
  type : ip.type ≠ 0
  marked : ∀ b, b < nmeta sb → b < sb.size → used sb d b = true
  data : ∀ j e, j < sb.ninodes → e < PLACES → ref sb d ip j e ≠ 0 →
    IsData sb (ref sb d ip j e) ∧ used sb d (ref sb d ip j e) = true
  once : ∀ j e j' e', j < sb.ninodes → e < PLACES → j' < sb.ninodes → e' < PLACES →
    ref sb d ip j e ≠ 0 → ref sb d ip j e = ref sb d ip j' e' → j = j' ∧ e = e'

/-- Place `e` of the inode has a block that was free. -/
structure Filled (sb : Superblock) (d : Disk) (ip : Inode) (e b : Nat) (d' : Disk) (ip' : Inode) :
    Prop where
  data : IsData sb b
  fresh : used sb d b = false
  used : ∀ c, c < sb.size → Block.used sb d' c = (decide (c = b) || Block.used sb d c)
  refs : ∀ j e', j < sb.ninodes → e' < PLACES →
    ref sb d' ip' j e' = if j = ip.inum ∧ e' = e then b else ref sb d ip j e'
  rest : {ip with addrs := ip'.addrs} = ip'
  other : ∀ c, nmeta sb ≤ c → c ≠ b → c ≠ indirect ip.toDinode → d' c = d c
  inodes : ∀ c, c < sb.bmapstart → d' c = d c
  count : freeCount sb d' + 1 = freeCount sb d

theorem nmeta_pos (sb : Superblock) : 0 < nmeta sb := Nat.succ_pos _

theorem view_self (sb : Superblock) (d : Disk) (ip : Inode) : view sb d ip ip.inum = ip.toDinode :=
  if_pos rfl

theorem ref_inum (hinum : ip.inum = j) (htype : ip.type ≠ 0) (sb : Superblock) (d : Disk) (e : Nat) :
    ref sb d ip j e = entry d ip.toDinode e := by
  rw [ref, ← hinum, view_self, if_neg htype]

namespace Owned

theorem ref_self (h : Owned sb d ip) (e : Nat) : ref sb d ip ip.inum e = entry d ip.toDinode e :=
  ref_inum rfl h.type sb d e

/-- What stands in a place is not a block that was free. -/
theorem ref_ne (h : Owned sb d ip) (hj : j < sb.ninodes) (he : e < PLACES) (hb : IsData sb b)
    (hfresh : used sb d b = false) : ref sb d ip j e ≠ b := by
  intro heq
  have hpos : 0 < nmeta sb := nmeta_pos sb
  have hmarked := (h.data j e hj he (by rw [heq]; have := hb.1; omega)).2
  rw [heq, hfresh] at hmarked
  cases hmarked

theorem refs_of_ne (h : Owned sb d ip) (hinum : ip'.inum = ip.inum) (hj : j < sb.ninodes)
    (hne : j ≠ ip.inum) (hinodes : ∀ c, c < sb.bmapstart → d' c = d c)
    (hother : ∀ c, ref sb d ip j NDIRECT = c → c ≠ 0 → d' c = d c) :
    ref sb d' ip' j e = ref sb d ip j e := by
  have hread : readInode sb d' j = readInode sb d j := by
    rw [readInode, hinodes _ (h.layout.iblock_lt hj)]
    rfl
  have hne' : j ≠ ip'.inum := by rw [hinum]; exact hne
  rw [ref, view, if_neg hne', hread, ref, view, if_neg hne]
  by_cases htype : (readInode sb d j).type = 0
  · rw [if_pos htype, if_pos htype]
  · rw [if_neg htype, if_neg htype]
    refine entry_congr fun hind => hother _ ?_ hind
    rw [ref, view, if_neg hne, if_neg htype, entry_indirect]

end Owned

namespace Filled

theorem inum (h : Filled sb d ip e b d' ip') : ip'.inum = ip.inum := by rw [← h.rest]

theorem owned (h : Filled sb d ip e b d' ip') (ho : Owned sb d ip) : Owned sb d' ip' := by
  have hmono : ∀ c, c < sb.size → Block.used sb d c = true → Block.used sb d' c = true :=
    fun c hc hused => by rw [h.used c hc, hused, Bool.or_true]
  have hdata : ∀ j e', j < sb.ninodes → e' < PLACES → ref sb d' ip' j e' ≠ 0 →
      IsData sb (ref sb d' ip' j e') ∧ Block.used sb d' (ref sb d' ip' j e') = true := by
    intro j e' hj he'
    rw [h.refs j e' hj he']
    split
    · intro _
      exact ⟨h.data, by rw [h.used b h.data.2]; simp⟩
    · intro hne
      obtain ⟨hd, hu⟩ := ho.data j e' hj he' hne
      exact ⟨hd, hmono _ hd.2 hu⟩
  refine ⟨ho.layout, h.inum ▸ ho.inum, by rw [← h.rest]; exact ho.type,
    fun c hc hlt => hmono c hlt (ho.marked c hc hlt), hdata, ?_⟩
  intro j e₁ j' e₂ hj he₁ hj' he₂
  rw [h.refs j e₁ hj he₁, h.refs j' e₂ hj' he₂]
  -- the block was in no place before
  by_cases h₁ : j = ip.inum ∧ e₁ = e
  · by_cases h₂ : j' = ip.inum ∧ e₂ = e
    · exact fun _ _ => ⟨h₁.1.trans h₂.1.symm, h₁.2.trans h₂.2.symm⟩
    · rw [if_pos h₁, if_neg h₂]
      exact fun _ heq => absurd heq.symm (ho.ref_ne hj' he₂ h.data h.fresh)
  · by_cases h₂ : j' = ip.inum ∧ e₂ = e
    · rw [if_neg h₁, if_pos h₂]
      exact fun _ heq => absurd heq (ho.ref_ne hj he₁ h.data h.fresh)
    · rw [if_neg h₁, if_neg h₂]
      exact ho.once j e₁ j' e₂ hj he₁ hj' he₂

end Filled

theorem toNat_ofNat_block (hl : Layout sb) (hb : IsData sb b) : (BitVec.ofNat 32 b).toNat = b := by
  have hlt := hl.fits
  rw [BitVec.toNat_ofNat, Nat.mod_eq_of_lt (by have := hb.2; omega)]

theorem setAddr_addrs (ip : Inode) (i j : Fin (NDIRECT + 1)) (w : BitVec 32) :
    (ip.setAddr i w).addrs j = if j = i then w else ip.addrs j := update_apply _ _ _ _

theorem fill_direct (ho : Owned sb d ip) (he : e < NDIRECT + 1) (hempty : entry d ip.toDinode e = 0)
    (hb : Balloced sb d b d') :
    Filled sb d ip e b d' (ip.setAddr ⟨e, he⟩ (BitVec.ofNat 32 b)) := by
  have hval := toNat_ofNat_block ho.layout hb.data
  refine ⟨hb.data, hb.fresh, hb.used, fun j e' hj he' => ?_, rfl,
    fun c hc hne _ => hb.other c hc hne, hb.inodes, hb.count⟩
  by_cases hj' : j = ip.inum
  · subst hj'
    have htype : (ip.setAddr ⟨e, he⟩ (BitVec.ofNat 32 b)).type ≠ 0 := ho.type
    have hinum : (ip.setAddr ⟨e, he⟩ (BitVec.ofNat 32 b)).inum = ip.inum := rfl
    have hself := ref_inum hinum htype sb d' e'
    rw [ho.ref_self]
    refine hself.trans ?_
    by_cases hlt : e' < NDIRECT + 1
    · rw [entry_of_lt hlt, entry_of_lt hlt, setAddr_addrs]
      by_cases heq : e' = e
      · subst heq
        rw [if_pos rfl, hval, if_pos ⟨rfl, rfl⟩]
      · have hne : (⟨e', hlt⟩ : Fin (NDIRECT + 1)) ≠ ⟨e, he⟩ := fun h => heq (Fin.mk.inj h)
        rw [if_neg hne, if_neg fun h => heq h.2]
    · rw [if_neg (by rintro ⟨-, rfl⟩; exact hlt he)]
      by_cases hlast : e = NDIRECT
      · -- the new indirect block has nothing in it
        subst hlast
        rw [entry_indirect] at hempty
        have hind : indirect (ip.setAddr ⟨NDIRECT, he⟩ (BitVec.ofNat 32 b)).toDinode = b := by
          have hlast : Fin.last NDIRECT = ⟨NDIRECT, he⟩ := rfl
          rw [indirect, setAddr_addrs, if_pos hlast, hval]
        rw [entry, dif_neg hlt, hind, hb.zero, getAddr_zero, entry, dif_neg hlt, if_pos hempty]
        simp
      · have hind : indirect (ip.setAddr ⟨e, he⟩ (BitVec.ofNat 32 b)).toDinode =
            indirect ip.toDinode := by
          have hne : Fin.last NDIRECT ≠ ⟨e, he⟩ := fun h => hlast (congrArg Fin.val h).symm
          rw [indirect, setAddr_addrs, if_neg hne]
          rfl
        rw [entry, dif_neg hlt, hind, entry, dif_neg hlt]
        split
        · rfl
        · rename_i hpos
          have href : ref sb d ip ip.inum NDIRECT = indirect ip.toDinode := by
            rw [ho.ref_self, entry_indirect]
          rw [← href] at hpos ⊢
          rw [hb.other _ (ho.data _ _ ho.inum (by decide) hpos).1.1
            (ho.ref_ne ho.inum (by decide) hb.data hb.fresh)]
  · rw [if_neg fun h => hj' h.1]
    refine ho.refs_of_ne rfl hj hj' hb.inodes fun c hc hpos => hb.other c ?_ ?_
    · exact hc ▸ (ho.data j NDIRECT hj (by decide) (by rw [hc]; exact hpos)).1.1
    · exact hc ▸ ho.ref_ne hj (by decide) hb.data hb.fresh

theorem fill_slot (ho : Owned sb d ip) (he : NDIRECT < e)
    (hind : indirect ip.toDinode ≠ 0) (hb : Balloced sb d b d') :
    Filled sb d ip e b (update d' (indirect ip.toDinode)
      (putAddr (d' (indirect ip.toDinode)) (e - (NDIRECT + 1)) (BitVec.ofNat 32 b))) ip := by
  have hval := toNat_ofNat_block ho.layout hb.data
  have href : ref sb d ip ip.inum NDIRECT = indirect ip.toDinode := by
    rw [ho.ref_self, entry_indirect]
  have hdata : nmeta sb ≤ indirect ip.toDinode :=
    href ▸ (ho.data _ _ ho.inum (by decide) (href.symm ▸ hind)).1.1
  have hneb : indirect ip.toDinode ≠ b := href ▸ ho.ref_ne ho.inum (by decide) hb.data hb.fresh
  have hused : ∀ c, c < sb.size → used sb (update d' (indirect ip.toDinode)
      (putAddr (d' (indirect ip.toDinode)) (e - (NDIRECT + 1)) (BitVec.ofNat 32 b))) c =
      (decide (c = b) || used sb d c) := fun c hc => by
    rw [used_update hdata hc, hb.used c hc]
  have hinodes : ∀ c, c < sb.bmapstart → update d' (indirect ip.toDinode)
      (putAddr (d' (indirect ip.toDinode)) (e - (NDIRECT + 1)) (BitVec.ofNat 32 b)) c = d c :=
    fun c hc => by
      have hlt := bmapstart_lt_nmeta sb
      rw [update_of_ne (by omega), hb.inodes c hc]
  refine ⟨hb.data, hb.fresh, hused, fun j e₁ hj he₁ => ?_, rfl, fun c hc hne hne' => ?_, hinodes,
    freeCount_mark hb.data.2 hb.fresh hused⟩
  · by_cases hj' : j = ip.inum
    · subst hj'
      rw [ho.ref_self, ref_inum rfl ho.type]
      by_cases hlt : e₁ < NDIRECT + 1
      · rw [entry_of_lt hlt, entry_of_lt hlt, if_neg fun h => by omega]
      · rw [entry_slot (by omega) hind, entry_slot (by omega) hind, update_self]
        by_cases heq : e₁ = e
        · rw [if_pos ⟨rfl, heq⟩, heq, getAddr_putAddr, hval]
        · rw [if_neg fun h => heq h.2, getAddr_putAddr_of_ne (by omega),
            hb.other _ hdata hneb]
    · rw [if_neg fun h => hj' h.1]
      refine ho.refs_of_ne rfl hj hj' hinodes fun c hc hpos => ?_
      have hne : c ≠ indirect ip.toDinode := fun heq => by
        rw [← hc, ← href] at heq
        exact hj' (ho.once j NDIRECT ip.inum NDIRECT hj (by decide) ho.inum (by decide)
          (by rw [hc]; exact hpos) heq).1
      rw [update_of_ne hne, hb.other c
        (hc ▸ (ho.data j NDIRECT hj (by decide) (by rw [hc]; exact hpos)).1.1)
        (hc ▸ ho.ref_ne hj (by decide) hb.data hb.fresh)]
  · rw [update_of_ne hne', hb.other c hc hne]

end ThreadKernel.Block
