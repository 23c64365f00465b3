import ThreadKernel.Block.Bmap

/-! What is in a file: `readi` and `writei` are reads and writes of an array.

A transfer is cut at the ends of blocks. A read of what is there changes nothing; a write fills
places as it comes to them, and what the file had is there after it as before. -/
namespace ThreadKernel.Block

open Bytes Field Function

variable {sb : Superblock} {d d' d'' : Disk} {ip ip' ip'' : Inode} {x : Dinode}
  {j k b e bn off n : Nat} {fuel : Nat} {bns : List Nat} {src : List Byte}

/-! ### readi -/

/-- The file as an array, as far as it has blocks. -/
def content (d : Disk) (x : Dinode) : Nat → Byte := fun k =>
  d (entry d x (place (k / BSIZE))) (k % BSIZE)

/-- Every block of the file below its size is there. -/
def Backed (d : Disk) (x : Dinode) : Prop :=
  ∀ bn, bn * BSIZE < x.size.toNat → bn < MAXFILE ∧ entry d x (place bn) ≠ 0

theorem bmap_found (ho : Owned sb d ip) (hbn : bn < MAXFILE)
    (hne : entry d ip.toDinode (place bn) ≠ 0) :
    bmap sb d ip bn = .ok (entry d ip.toDinode (place bn), ip, d) := by
  have hneed : need d ip.toDinode [bn] = 0 := by
    rw [need_one, if_neg hne, if_neg fun h => indirect_ne_zero h.2 hne h.1]
  obtain ⟨b, ip', d', hbmap, hm⟩ := bmap_spec ho hbn (by omega)
  have hne' : ref sb d ip ip.inum (place bn) ≠ 0 := by rw [ho.ref_self]; exact hne
  obtain ⟨rfl, rfl⟩ := hm.noop hne'
  rw [hbmap, ← ho.ref_self, hm.block]

theorem block_lt (hk : k < MAXFILE * BSIZE) : k / BSIZE < MAXFILE := Nat.div_lt_of_lt_mul (by omega)

/-- A stretch of a file within one block. -/
theorem stretch (off i : Nat) (hi : i < BSIZE - off % BSIZE) :
    (off + i) / BSIZE = off / BSIZE ∧ (off + i) % BSIZE = off % BSIZE + i := by
  unfold BSIZE at *
  omega

theorem readLoop_spec (ho : Owned sb d ip) (hfuel : n ≤ fuel) (hthere : ∀ k, off ≤ k → k < off + n →
      k / BSIZE < MAXFILE ∧ entry d ip.toDinode (place (k / BSIZE)) ≠ 0) :
    readLoop sb fuel d ip off n = .ok (slice (content d ip.toDinode) off n, ip, d) := by
  induction fuel generalizing off n with
  | zero =>
    obtain rfl : n = 0 := by omega
    rfl
  | succ fuel ih =>
    rw [readLoop]
    by_cases hn : n = 0
    · subst hn
      rfl
    · obtain ⟨hlt, hne⟩ := hthere off (Nat.le_refl _) (by omega)
      rw [if_neg hn, bmap_found ho hlt hne]
      simp only [bind, Except.bind, pure, Except.pure]
      have hpos : 0 < BSIZE - off % BSIZE := Nat.sub_pos_of_lt (Nat.mod_lt _ (by decide))
      generalize hm : min n (BSIZE - off % BSIZE) = m
      rw [ih (by omega) fun k hlo hhi => hthere k (by omega) (by omega)]
      have hpiece : slice (d (entry d ip.toDinode (place (off / BSIZE)))) (off % BSIZE) m =
          slice (content d ip.toDinode) off m := slice_shift fun i hi => by
        obtain ⟨hdiv, hmod⟩ := stretch off i (by omega)
        rw [content, hdiv, hmod]
      have hsum : m + (n - m) = n := by omega
      dsimp only
      rw [hpiece, ← slice_add, hsum]

/-- `readi` gives what is in the file, up to its end, and changes nothing. -/
theorem readi_eq (ho : Owned sb d ip) (hbacked : Backed d ip.toDinode) (off n : Nat) :
    readi sb d ip off n = .ok (if ip.size.toNat < off ∨ (off + n) % 2 ^ 32 < off then none
      else some (slice (content d ip.toDinode) off (min (off + n) ip.size.toNat - off)), ip, d) := by
  unfold readi
  by_cases hbad : ip.size.toNat < off ∨ (off + n) % 2 ^ 32 < off
  · rw [if_pos hbad, if_pos hbad]
  · rw [if_neg hbad, if_neg hbad]
    have hlen : (if ip.size.toNat < off + n then ip.size.toNat - off else n) =
        min (off + n) ip.size.toNat - off := by
      split <;> omega
    rw [hlen]
    dsimp only
    rw [readLoop_spec ho (Nat.le_refl _) fun k hlo hhi => ?_]
    · rfl
    · refine hbacked _ (Nat.lt_of_le_of_lt (Nat.div_mul_le_self k BSIZE) ?_)
      omega

/-! ### writei -/

section

variable (ho : Owned sb d ip) (he : e < PLACES) (hlast : e ≠ NDIRECT)
include ho he hlast

theorem store_refs (hne : ref sb d ip ip.inum e ≠ 0) (blk : Data) (hj : j < sb.ninodes) (e' : Nat) :
    ref sb (update d (ref sb d ip ip.inum e) blk) ip j e' = ref sb d ip j e' := by
  obtain ⟨hdata, -⟩ := ho.data _ e ho.inum he hne
  -- no indirect block is written
  have hind : ∀ j, j < sb.ninodes → ref sb d ip j NDIRECT ≠ 0 →
      update d (ref sb d ip ip.inum e) blk (ref sb d ip j NDIRECT) =
        d (ref sb d ip j NDIRECT) := fun j hj hpos =>
    update_of_ne (fun heq =>
      hlast (ho.once j NDIRECT _ e hj (by decide) ho.inum he hpos heq).2.symm) _ _
  by_cases hj' : j = ip.inum
  · subst hj'
    rw [ref_inum rfl ho.type, ho.ref_self e']
    refine entry_congr fun hpos => ?_
    rw [← entry_indirect d, ← ho.ref_self] at hpos ⊢
    exact hind _ ho.inum hpos
  · refine ho.refs_of_ne rfl hj hj' (fun c hc => ?_) fun c hc hpos => hc ▸ hind j hj (hc.symm ▸ hpos)
    have hlt := bmapstart_lt_nmeta sb
    have hle := hdata.1
    exact update_of_ne (by omega) _ _

theorem store_entry (hne : entry d ip.toDinode e ≠ 0) (blk : Data) (e' : Nat) :
    entry (update d (entry d ip.toDinode e) blk) ip.toDinode e' = entry d ip.toDinode e' := by
  have hrefs := store_refs ho he hlast (by rw [ho.ref_self]; exact hne) blk ho.inum e'
  rw [ho.ref_self, ho.ref_self, ref_inum rfl ho.type] at hrefs
  exact hrefs

theorem store_extends (hne : ref sb d ip ip.inum e ≠ 0) (blk : Data) :
    Extends sb d ip (update d (ref sb d ip ip.inum e) blk) ip := by
  obtain ⟨hdata, -⟩ := ho.data _ e ho.inum he hne
  have hrefs := store_refs ho he hlast hne blk (j := ip.inum) ho.inum
  have hused : ∀ c, c < sb.size →
      used sb (update d (ref sb d ip ip.inum e) blk) c = used sb d c :=
    fun c hc => used_update hdata.1 hc blk
  refine ⟨⟨ho.layout, ho.inum, ho.type, fun b hb hlt => ?_, fun j e' hj he' hpos => ?_,
      fun j e₁ j' e₂ hj he₁ hj' he₂ hpos heq => ?_⟩,
    rfl, fun c hc hu => ?_, fun e' _ _ => hrefs e', fun e' _ => .inl (hrefs e'),
    fun j e' hj _ _ => store_refs ho he hlast hne blk hj e', fun c hc hu hnot => ?_, fun c hc => ?_⟩
  · rw [hused b hlt, ho.marked b hb hlt]
  · rw [store_refs ho he hlast hne blk hj] at hpos ⊢
    obtain ⟨hd, hu⟩ := ho.data j e' hj he' hpos
    exact ⟨hd, by rw [hused _ hd.2, hu]⟩
  · rw [store_refs ho he hlast hne blk hj] at hpos heq
    rw [store_refs ho he hlast hne blk hj'] at heq
    exact ho.once j e₁ j' e₂ hj he₁ hj' he₂ hpos heq
  · rw [hused c hc, hu]
  · exact update_of_ne (fun heq => hnot e he heq.symm) _ _
  · have hlt := bmapstart_lt_nmeta sb
    have hle := hdata.1
    exact update_of_ne (by omega) _ _

end

/-- `src` has been written to the file at `off`. -/
structure Written (sb : Superblock) (d : Disk) (ip : Inode) (off : Nat) (src : List Byte) (d' : Disk)
    (ip' : Inode) : Prop extends Extends sb d ip d' ip' where
  there : ∀ k, off ≤ k → k < off + src.length → entry d' ip'.toDinode (place (k / BSIZE)) ≠ 0
  bytes : ∀ k, k < MAXFILE * BSIZE →
    entry d ip.toDinode (place (k / BSIZE)) ≠ 0 ∨ off ≤ k ∧ k < off + src.length →
    content d' ip'.toDinode k = splice (content d ip.toDinode) off src k
  noop : (∀ k, off ≤ k → k < off + src.length → entry d ip.toDinode (place (k / BSIZE)) ≠ 0) →
    ip' = ip

theorem Extends.entry_kept (h : Extends sb d ip d' ip') (ho : Owned sb d ip) (he : e < PLACES)
    (hne : entry d ip.toDinode e ≠ 0) : entry d' ip'.toDinode e = entry d ip.toDinode e := by
  have hkept := h.kept e he
  rw [ho.ref_self] at hkept
  have hself := h.owned.ref_self e
  rw [h.inum, hkept hne] at hself
  exact hself.symm

namespace Written

variable {src src' : List Byte}

theorem nothing (ho : Owned sb d ip) (off : Nat) : Written sb d ip off [] d ip :=
  ⟨.refl ho, fun k hlo hhi => absurd hhi (by simp only [List.length_nil]; omega),
    fun k _ _ => by rw [splice_nil], fun _ => rfl⟩

theorem trans (h : Written sb d ip off src d' ip') (ho : Owned sb d ip)
    (hlt : off + src.length + src'.length ≤ MAXFILE * BSIZE)
    (h' : Written sb d' ip' (off + src.length) src' d'' ip'') :
    Written sb d ip off (src ++ src') d'' ip'' := by
  have hkept : ∀ k, k < MAXFILE * BSIZE → entry d ip.toDinode (place (k / BSIZE)) ≠ 0 →
      entry d' ip'.toDinode (place (k / BSIZE)) ≠ 0 := fun k hk hne => by
    rw [h.toExtends.entry_kept ho (place_lt (block_lt hk)) hne]
    exact hne
  have hkept' : ∀ k, k < MAXFILE * BSIZE → entry d' ip'.toDinode (place (k / BSIZE)) ≠ 0 →
      entry d'' ip''.toDinode (place (k / BSIZE)) ≠ 0 := fun k hk hne => by
    rw [h'.toExtends.entry_kept h.owned (place_lt (block_lt hk)) hne]
    exact hne
  refine ⟨h.toExtends.trans h'.toExtends, fun k hlo hhi => ?_, fun k hk hcase => ?_, fun hall => ?_⟩
  · rw [List.length_append] at hhi
    by_cases hfirst : k < off + src.length
    · exact hkept' k (by omega) (h.there k hlo hfirst)
    · exact h'.there k (by omega) (by omega)
  · rw [List.length_append] at hcase
    rw [splice_append]
    by_cases hsecond : off + src.length ≤ k ∧ k < off + src.length + src'.length
    · rw [h'.bytes k hk (.inr hsecond)]
      obtain ⟨i, rfl⟩ := Nat.exists_eq_add_of_le hsecond.1
      rw [splice_add (by omega), splice_add (by omega)]
    · have hthere : entry d ip.toDinode (place (k / BSIZE)) ≠ 0 ∨ off ≤ k ∧ k < off + src.length := by
        omega
      rw [splice_other hsecond, h'.bytes k hk (.inl ?_), splice_other hsecond,
        h.bytes k hk hthere]
      exact hthere.elim (hkept k hk) fun hin => h.there k hin.1 hin.2
  · have heq := h.noop fun k hlo hhi => hall k hlo (by rw [List.length_append]; omega)
    rw [h'.noop fun k hlo hhi => hkept k (by omega) (hall k (by omega) (by
      rw [List.length_append]
      omega)), heq]

end Written

theorem Mapped.store (hm : Mapped sb d ip (off / BSIZE) b d' ip') (ho : Owned sb d ip)
    (src : List Byte) (hpos : 0 < src.length) (hlen : src.length ≤ BSIZE - off % BSIZE)
    (hlt : off / BSIZE < MAXFILE) :
    Written sb d ip off src (update d' b (splice (d' b) (off % BSIZE) src)) ip' := by
  have ho' := hm.owned
  have hblock : entry d' ip'.toDinode (place (off / BSIZE)) = b := by
    rw [← ho'.ref_self, hm.inum, hm.block]
  have hne : ref sb d' ip' ip'.inum (place (off / BSIZE)) ≠ 0 := by
    rw [ho'.ref_self, hblock]
    exact hm.pos
  have hstore := store_extends ho' (place_lt hlt) (place_ne _) hne (splice (d' b) (off % BSIZE) src)
  have hentry : ∀ e, entry (update d' b (splice (d' b) (off % BSIZE) src)) ip'.toDinode e =
      entry d' ip'.toDinode e := hblock ▸ store_entry ho' (place_lt hlt) (place_ne _)
        (by rw [hblock]; exact hm.pos) (splice (d' b) (off % BSIZE) src)
  rw [ho'.ref_self, hblock] at hstore
  have hnoop : entry d ip.toDinode (place (off / BSIZE)) ≠ 0 → d' = d ∧ ip' = ip := fun h =>
    hm.noop (by rw [ho.ref_self]; exact h)
  refine ⟨hm.toExtends.trans hstore, fun k hlo hhi => ?_, fun k hk hcase => ?_, fun hall => ?_⟩
  · obtain ⟨i, rfl⟩ := Nat.exists_eq_add_of_le hlo
    rw [(stretch off i (by omega)).1, hentry, hblock]
    exact hm.pos
  · rw [content, hentry]
    by_cases hin : off ≤ k ∧ k < off + src.length
    · obtain ⟨i, rfl⟩ := Nat.exists_eq_add_of_le hin.1
      obtain ⟨hdiv, hmod⟩ := stretch off i (by omega)
      rw [hdiv, hmod, hblock, update_self, splice_add (by omega), splice_add (by omega)]
    · have hthere := hcase.resolve_right hin
      rw [splice_other hin]
      by_cases hsame : k / BSIZE = off / BSIZE
      · obtain ⟨rfl, rfl⟩ := hnoop (hsame ▸ hthere)
        have hout : ¬(off % BSIZE ≤ k % BSIZE ∧ k % BSIZE < off % BSIZE + src.length) := by
          unfold BSIZE at *
          omega
        rw [hsame, hblock, update_self, splice_other hout, content, hsame, hblock]
      · have hplace := place_lt (block_lt hk)
        have hkept := hm.toExtends.entry_kept ho hplace hthere
        have hother : entry d' ip'.toDinode (place (k / BSIZE)) ≠ b := fun heq => by
          rw [← hblock, ← ho'.ref_self, ← ho'.ref_self] at heq
          have hzero : ref sb d' ip' ip'.inum (place (k / BSIZE)) ≠ 0 := by rw [heq]; exact hne
          exact hsame (place_inj (ho'.once _ _ _ _ ho'.inum hplace ho'.inum (place_lt hlt) hzero heq).2)
        have hown := hm.own _ hplace (place_ne _)
        rw [ho.ref_self] at hown
        rw [update_of_ne hother, hkept, hown hthere, content]
  · exact (hnoop (hall off (Nat.le_refl _) (by omega))).2

/-- The blocks of the file that `n` bytes from `off` on are in. -/
def blocks (off n : Nat) : List Nat :=
  if n = 0 then [] else List.range' (off / BSIZE) ((off + n - 1) / BSIZE - off / BSIZE + 1)

theorem blocks_step (hn : 0 < n) :
    blocks off n = off / BSIZE ::
      blocks (off + min n (BSIZE - off % BSIZE)) (n - min n (BSIZE - off % BSIZE)) := by
  unfold blocks
  rw [if_neg (by omega)]
  by_cases hend : n ≤ BSIZE - off % BSIZE
  · have hlast : (off + n - 1) / BSIZE = off / BSIZE := by
      unfold BSIZE at *
      omega
    rw [Nat.min_eq_left hend, Nat.sub_self, if_pos rfl, hlast, Nat.sub_self]
    rfl
  · have hnext : (off + (BSIZE - off % BSIZE)) / BSIZE = off / BSIZE + 1 := by
      unfold BSIZE at *
      omega
    have hlast : off + (BSIZE - off % BSIZE) + (n - (BSIZE - off % BSIZE)) - 1 = off + n - 1 := by
      omega
    have hcount : (off + n - 1) / BSIZE - off / BSIZE =
        (off + n - 1) / BSIZE - (off / BSIZE + 1) + 1 := by
      unfold BSIZE at *
      omega
    rw [Nat.min_eq_right (by omega), if_neg (by omega), hnext, hlast, hcount]
    rfl

theorem lt_of_mem_blocks (hmem : bn ∈ blocks off n) (hlt : off + n ≤ MAXFILE * BSIZE) :
    off / BSIZE ≤ bn ∧ bn < MAXFILE := by
  unfold blocks at hmem
  split at hmem
  · cases hmem
  · obtain ⟨hlo, hhi⟩ := List.mem_range'_1.mp hmem
    have hlast : (off + n - 1) / BSIZE < MAXFILE := block_lt (by omega)
    have hmono : off / BSIZE ≤ (off + n - 1) / BSIZE := Nat.div_le_div_right (by omega)
    omega

theorem Mapped.need_rest (hm : Mapped sb d ip bn b d' ip') (ho : Owned sb d ip)
    (hbns : ∀ bn' ∈ bns, bn < bn' ∧ bn' < MAXFILE) :
    need d' ip'.toDinode bns + need d ip.toDinode [bn] ≤ need d ip.toDinode (bn :: bns) := by
  have hentry : ∀ e, e < PLACES → e ≠ place bn → e ≠ NDIRECT ∨ bn < NDIRECT →
      entry d' ip'.toDinode e = entry d ip.toDinode e := fun e he hne hlast => by
    have hmine := hm.mine e he hne hlast
    rw [← hm.inum, hm.owned.ref_self, hm.inum, ho.ref_self] at hmine
    exact hmine
  have hcount : bns.countP (fun bn => entry d' ip'.toDinode (place bn) = 0) =
      bns.countP fun bn => entry d ip.toDinode (place bn) = 0 := by
    refine List.countP_congr fun bn' hmem => ?_
    obtain ⟨hlt, hmax⟩ := hbns bn' hmem
    rw [hentry _ (place_lt hmax) (fun heq => by have := place_inj heq; omega) (.inl (place_ne _))]
  have hind : (if indirect ip'.toDinode = 0 ∧ ∃ bn' ∈ bns, NDIRECT ≤ bn' then 1 else 0) +
      (if indirect ip.toDinode = 0 ∧ NDIRECT ≤ bn then 1 else 0) ≤
        if indirect ip.toDinode = 0 ∧ ∃ bn' ∈ bn :: bns, NDIRECT ≤ bn' then 1 else 0 := by
    by_cases hge : NDIRECT ≤ bn
    · have hne : indirect ip'.toDinode ≠ 0 := by
        refine indirect_ne_zero (d := d') hge ?_
        rw [← hm.owned.ref_self, hm.inum, hm.block]
        exact hm.pos
      rw [if_neg fun h => hne h.1, Nat.zero_add]
      by_cases hzero : indirect ip.toDinode = 0
      · rw [if_pos ⟨hzero, hge⟩, if_pos ⟨hzero, bn, List.mem_cons_self, hge⟩]
      · rw [if_neg fun h => hzero h.1]
        exact Nat.zero_le _
    · have hsame : indirect ip'.toDinode = indirect ip.toDinode := by
        exact hentry _ (by decide) (fun heq => place_ne bn heq.symm) (.inr (by omega))
      rw [hsame, if_neg fun h : _ ∧ NDIRECT ≤ bn => hge h.2, Nat.add_zero]
      by_cases hex : indirect ip.toDinode = 0 ∧ ∃ bn' ∈ bns, NDIRECT ≤ bn'
      · obtain ⟨hzero, bn', hmem, hle⟩ := hex
        rw [if_pos ⟨hzero, bn', hmem, hle⟩, if_pos ⟨hzero, bn', List.mem_cons_of_mem _ hmem, hle⟩]
      · rw [if_neg hex]
        exact Nat.zero_le _
  rw [need_one]
  unfold need
  rw [hcount, List.countP_cons]
  simp only [decide_eq_true_eq] at *
  omega

theorem need_head (d : Disk) (x : Dinode) (bn : Nat) (bns : List Nat) :
    need d x [bn] ≤ need d x (bn :: bns) := by
  have hcount : List.countP (fun bn => decide (entry d x (place bn) = 0)) [bn] ≤
      List.countP (fun bn => decide (entry d x (place bn) = 0)) (bn :: bns) :=
    List.Sublist.countP_le (List.cons_sublist_cons.mpr (List.nil_sublist bns))
  refine Nat.add_le_add hcount ?_
  by_cases hex : indirect x = 0 ∧ ∃ bn' ∈ [bn], NDIRECT ≤ bn'
  · obtain ⟨hzero, bn', hmem, hle⟩ := hex
    have hmem' : bn' ∈ bn :: bns := List.mem_singleton.mp hmem ▸ List.mem_cons_self
    rw [if_pos ⟨hzero, bn', hmem, hle⟩, if_pos ⟨hzero, bn', hmem', hle⟩]
  · rw [if_neg hex]
    exact Nat.zero_le _

theorem Mapped.need_store (hm : Mapped sb d ip bn b d' ip') (hbn : bn < MAXFILE) (blk : Data)
    : need (update d' b blk) ip'.toDinode bns = need d' ip'.toDinode bns := by
  have hblock : entry d' ip'.toDinode (place bn) = b := by
    rw [← hm.owned.ref_self, hm.inum, hm.block]
  unfold need
  congr 1
  refine List.countP_congr fun bn' _ => ?_
  rw [← hblock, store_entry hm.owned (place_lt hbn) (place_ne bn) (by rw [hblock]; exact hm.pos)]

theorem Mapped.freeCount_store (hm : Mapped sb d ip bn b d' ip') (hbn : bn < MAXFILE) (blk : Data) :
    freeCount sb (update d' b blk) = freeCount sb d' := by
  have hinum : ip.inum < sb.ninodes := hm.inum ▸ hm.owned.inum
  have hdata := (hm.owned.data _ _ hinum (place_lt hbn) (by rw [hm.block]; exact hm.pos)).1
  rw [hm.block] at hdata
  refine List.countP_congr fun c hc => ?_
  rw [used_update hdata.1 (List.mem_range.mp hc)]

theorem writeLoop_spec (ho : Owned sb d ip)
    (hfuel : src.length ≤ fuel) (hlt : off + src.length ≤ MAXFILE * BSIZE)
    (hneed : need d ip.toDinode (blocks off src.length) ≤ freeCount sb d) :
    ∃ ip' d', writeLoop sb fuel d ip off src = .ok (ip', d') ∧ Written sb d ip off src d' ip' := by
  induction fuel generalizing off src d ip with
  | zero =>
    obtain rfl : src = [] := List.length_eq_zero_iff.mp (by omega)
    exact ⟨ip, d, rfl, .nothing ho off⟩
  | succ fuel ih =>
    rw [writeLoop]
    by_cases hnil : src = []
    · subst hnil
      exact ⟨ip, d, rfl, .nothing ho off⟩
    · have hpos : 0 < src.length := List.length_pos_iff.mpr hnil
      have hroom : 0 < BSIZE - off % BSIZE := Nat.sub_pos_of_lt (Nat.mod_lt _ (by decide))
      have hbn : off / BSIZE < MAXFILE := block_lt (by omega)
      rw [blocks_step hpos] at hneed
      generalize hm : min src.length (BSIZE - off % BSIZE) = m at *
      have hrest : off + m + (src.drop m).length ≤ MAXFILE * BSIZE := by
        rw [List.length_drop]
        omega
      have hbns : ∀ bn ∈ blocks (off + m) (src.length - m), off / BSIZE < bn ∧ bn < MAXFILE := by
        intro bn hmem
        rw [List.length_drop] at hrest
        obtain ⟨hlo, hhi⟩ := lt_of_mem_blocks hmem hrest
        have hmore : m = BSIZE - off % BSIZE := by
          by_contra hne
          have hzero : src.length - m = 0 := by omega
          rw [hzero] at hmem
          cases hmem
        have hnext : (off + m) / BSIZE = off / BSIZE + 1 := by
          unfold BSIZE at *
          omega
        omega
      obtain ⟨b, ip', d', hbmap, hmap⟩ := bmap_spec ho hbn (Nat.le_trans (need_head _ _ _ _) hneed)
      have htake : (src.take m).length = m := by
        rw [List.length_take]
        omega
      have hstore := hmap.store ho (src.take m) (by omega) (by omega) hbn
      have hrestNeed := hmap.need_rest ho hbns
      have hcount := hmap.count
      rw [← hmap.need_store hbn (splice (d' b) (off % BSIZE) (src.take m))] at hrestNeed
      rw [← hmap.freeCount_store hbn (splice (d' b) (off % BSIZE) (src.take m))] at hcount
      have hnext : ∃ ip'' d'', writeLoop sb fuel
          (update d' b (splice (d' b) (off % BSIZE) (src.take m))) ip' (off + m)
          (src.drop m) = .ok (ip'', d'') ∧ Written sb _ ip' (off + m) (src.drop m) d'' ip'' :=
        ih hstore.owned (by rw [List.length_drop]; omega) hrest (by rw [List.length_drop]; omega)
      obtain ⟨ip'', d'', hloop, hwritten⟩ := hnext
      refine ⟨ip'', d'', ?_, ?_⟩
      · rw [if_neg hnil, hbmap]
        exact hloop
      · have hboth : Written sb d ip off (src.take m ++ src.drop m) d'' ip'' :=
          hstore.trans ho (by rw [htake]; exact hrest) (by rw [htake]; exact hwritten)
        rw [List.take_append_drop] at hboth
        exact hboth

/-! ### iupdate -/

theorem readInode_iupdate (sb : Superblock) (d : Disk) (ip : Inode) :
    readInode sb (iupdate sb d ip) ip.inum = ip.toDinode := by
  rw [readInode, iupdate, update_self, getDinode_putDinode]

theorem readInode_iupdate_of_ne (hne : j ≠ ip.inum) (sb : Superblock) (d : Disk) :
    readInode sb (iupdate sb d ip) j = readInode sb d j := by
  unfold readInode iupdate
  by_cases hblock : IBLOCK j sb = IBLOCK ip.inum sb
  · have hslot : j % IPB ≠ ip.inum % IPB := fun heq => hne (by
      have hdiv : j / IPB = ip.inum / IPB := Nat.add_right_cancel hblock
      rw [← Nat.div_add_mod j IPB, hdiv, heq, Nat.div_add_mod])
    rw [hblock, update_self, getDinode_putDinode_of_ne hslot]
  · rw [update_of_ne hblock]

section
variable (ho : Owned sb d ip) (w : BitVec 32)
include ho w

theorem iupdate_data {c : Nat} (hc : nmeta sb ≤ c) :
    iupdate sb d (ip.setSize w) c = d c := by
  have hinum : (ip.setSize w).inum = ip.inum := rfl
  have hblock := ho.layout.iblock_lt ho.inum
  have hlt := bmapstart_lt_nmeta sb
  exact update_of_ne (by rw [hinum]; omega) _ _

theorem entry_resize (hj : j < sb.ninodes) (htype : (view sb d ip j).type ≠ 0) (e : Nat) :
    entry (iupdate sb d (ip.setSize w)) (view sb d ip j) e = entry d (view sb d ip j) e := by
  refine entry_congr fun hne => iupdate_data ho w ?_
  have href : ref sb d ip j NDIRECT = indirect (view sb d ip j) := by
    rw [ref, if_neg htype, entry_indirect]
  rw [← href] at hne ⊢
  exact (ho.data j NDIRECT hj (by decide) hne).1.1

theorem content_resize (hj : j < sb.ninodes)
    (htype : (view sb d ip j).type ≠ 0) (hk : k < MAXFILE * BSIZE)
    (hpos : entry d (view sb d ip j) (place (k / BSIZE)) ≠ 0) :
    content (iupdate sb d (ip.setSize w)) (view sb d ip j) k = content d (view sb d ip j) k := by
  have href : ref sb d ip j (place (k / BSIZE)) = entry d (view sb d ip j) (place (k / BSIZE)) := by
    rw [ref, if_neg htype]
  rw [content, entry_resize ho w hj htype, iupdate_data ho w, content]
  rw [← href] at hpos ⊢
  exact (ho.data j _ hj (place_lt (block_lt hk)) hpos).1.1

end

theorem view_resize (hne : j ≠ ip.inum) (sb : Superblock) (d : Disk) (w : BitVec 32) :
    view sb (iupdate sb d (ip.setSize w)) (ip.setSize w) j = view sb d ip j := by
  have hne' : j ≠ (ip.setSize w).inum := hne
  rw [view, if_neg hne', readInode_iupdate_of_ne hne', view, if_neg hne]

section
variable (ho : Owned sb d ip) (w : BitVec 32)
include ho w

theorem ref_resize (hj : j < sb.ninodes) :
    ref sb (iupdate sb d (ip.setSize w)) (ip.setSize w) j e = ref sb d ip j e := by
  by_cases hne : j = ip.inum
  · subst hne
    have hinum : (ip.setSize w).inum = ip.inum := rfl
    have htype : (ip.setSize w).type ≠ 0 := ho.type
    have hself := view_self sb d ip
    rw [ho.ref_self, ref_inum hinum htype, ← hself,
      ← entry_resize ho w hj (by rw [hself]; exact ho.type), hself]
    rfl
  · rw [ref, view_resize hne, ref]
    by_cases htype : (view sb d ip j).type = 0
    · rw [if_pos htype, if_pos htype]
    · rw [if_neg htype, if_neg htype, entry_resize ho w hj htype]

theorem used_iupdate (c : Nat) :
    used sb (iupdate sb d (ip.setSize w)) c = used sb d c := by
  have hinum : (ip.setSize w).inum = ip.inum := rfl
  have hblock := ho.layout.iblock_lt ho.inum
  have hle := bmapstart_le_bblock sb c
  rw [used, iupdate, update_of_ne (by rw [hinum]; omega)]
  rfl

theorem owned_resize :
    Owned sb (iupdate sb d (ip.setSize w)) (ip.setSize w) := by
  refine ⟨ho.layout, ho.inum, ho.type, fun b hb hlt => ?_, fun j e hj he hne => ?_,
    fun j e j' e' hj he hj' he' hne heq => ?_⟩
  · rw [used_iupdate ho, ho.marked b hb hlt]
  · rw [ref_resize ho w hj] at hne ⊢
    rw [used_iupdate ho]
    exact ho.data j e hj he hne
  · rw [ref_resize ho w hj] at hne heq
    rw [ref_resize ho w hj'] at heq
    exact ho.once j e j' e' hj he hj' he' hne heq

end

/-- The other inodes, and what is in them as far as they have blocks, are as they were. -/
def OthersKept (sb : Superblock) (d d' : Disk) (inum : Nat) : Prop :=
  ∀ j, j < sb.ninodes → j ≠ inum → readInode sb d' j = readInode sb d j ∧
    ((readInode sb d j).type ≠ 0 → ∀ k, k < MAXFILE * BSIZE →
      entry d (readInode sb d j) (place (k / BSIZE)) ≠ 0 →
      entry d' (readInode sb d j) (place (k / BSIZE)) ≠ 0 ∧
        content d' (readInode sb d j) k = content d (readInode sb d j) k)

theorem Extends.others_kept (h : Extends sb d ip d' ip') (ho : Owned sb d ip) :
    OthersKept sb d d' ip.inum := by
  intro j hj hne
  have hread : readInode sb d' j = readInode sb d j := by
    rw [readInode, h.inodes _ (ho.layout.iblock_lt hj)]
    rfl
  refine ⟨hread, fun htype k hk hpos => ?_⟩
  have hplace := place_lt (block_lt hk)
  have href : ref sb d ip j (place (k / BSIZE)) = entry d (readInode sb d j) (place (k / BSIZE)) := by
    rw [ref, view, if_neg hne, if_neg htype]
  have hsame : entry d' (readInode sb d j) (place (k / BSIZE)) =
      entry d (readInode sb d j) (place (k / BSIZE)) := by
    have hothers := h.others j _ hj hplace hne
    rw [href, ref, view, h.inum, if_neg hne, hread, if_neg htype] at hothers
    exact hothers
  rw [content, content, hsame]
  refine ⟨hpos, ?_⟩
  rw [← href] at hpos ⊢
  obtain ⟨hdata, hused⟩ := ho.data j _ hj hplace hpos
  rw [h.foreign _ hdata hused fun e he heq =>
    hne (ho.once j _ _ e hj hplace ho.inum he hpos heq.symm).1]

theorem OthersKept.resize (h : OthersKept sb d d' ip.inum) (ho' : Owned sb d' ip')
    (hinum : ip'.inum = ip.inum) (w : BitVec 32) :
    OthersKept sb d (iupdate sb d' (ip'.setSize w)) ip.inum := by
  intro j hj hne
  obtain ⟨hread, hkept⟩ := h j hj hne
  have hne' : j ≠ ip'.inum := by rw [hinum]; exact hne
  have hview : view sb d' ip' j = readInode sb d j := by rw [view, if_neg hne', hread]
  have hne'' : j ≠ (ip'.setSize w).inum := hne'
  refine ⟨(readInode_iupdate_of_ne hne'' sb d').trans hread, fun htype k hk hpos => ?_⟩
  obtain ⟨hpos', hcontent⟩ := hkept htype k hk hpos
  rw [← hview] at htype hpos' ⊢
  rw [entry_resize ho' w hj htype, content_resize ho' w hj htype hk hpos', hview, hcontent]
  exact ⟨hview ▸ hpos', rfl⟩

/-- `src` is in the file at `off`, which goes as far as it has to. -/
structure Wrote (sb : Superblock) (d : Disk) (ip : Inode) (off : Nat) (src : List Byte) (d' : Disk)
    (ip' : Inode) : Prop where
  size : ip'.size.toNat = max ip.size.toNat (off + src.length)
  bytes : ∀ k, k < ip'.size.toNat →
    content d' ip'.toDinode k = splice (content d ip.toDinode) off src k
  rest : {ip with size := ip'.size, addrs := ip'.addrs} = ip'
  owned : Owned sb d' ip'
  backed : Backed d' ip'.toDinode
  synced : readInode sb d' ip'.inum = ip'.toDinode
  others : OthersKept sb d d' ip.inum

theorem Written.wrote (h : Written sb d ip off src d' ip') (ho : Owned sb d ip)
    (hbacked : Backed d ip.toDinode) (hsync : readInode sb d ip.inum = ip.toDinode)
    (hoff : off ≤ ip.size.toNat) (hlt : off + src.length ≤ MAXFILE * BSIZE) :
    if 0 < src.length ∧ ip'.size.toNat < off + src.length then
      Wrote sb d ip off src (iupdate sb d' (ip'.setSize (BitVec.ofNat 32 (off + src.length))))
        (ip'.setSize (BitVec.ofNat 32 (off + src.length)))
    else Wrote sb d ip off src d' ip' := by
  have hsize : ip'.size = ip.size := by rw [← h.rest]
  have hinum := h.inum
  have ho' := h.owned
  have hother := h.toExtends.others_kept ho
  -- every byte of the file as it is to be has a block
  have hthere : ∀ k, k < max ip.size.toNat (off + src.length) → k < MAXFILE * BSIZE ∧
      (entry d ip.toDinode (place (k / BSIZE)) ≠ 0 ∨ off ≤ k ∧ k < off + src.length) := by
    intro k hk
    by_cases hold : k < ip.size.toNat
    · obtain ⟨hmax, hne⟩ := hbacked (k / BSIZE)
        (Nat.lt_of_le_of_lt (Nat.div_mul_le_self k BSIZE) hold)
      exact ⟨Nat.lt_mul_of_div_lt hmax (by decide), .inl hne⟩
    · exact ⟨by omega, .inr (by omega)⟩
  have hbytes : ∀ k, k < max ip.size.toNat (off + src.length) →
      content d' ip'.toDinode k = splice (content d ip.toDinode) off src k := fun k hk =>
    h.bytes k (hthere k hk).1 (hthere k hk).2
  have hpos : ∀ k, k < max ip.size.toNat (off + src.length) →
      entry d' ip'.toDinode (place (k / BSIZE)) ≠ 0 := fun k hk => by
    obtain ⟨hmax, hcase⟩ := hthere k hk
    rcases hcase with hne | hin
    · rw [h.toExtends.entry_kept ho (place_lt (block_lt hmax)) hne]
      exact hne
    · exact h.there k hin.1 hin.2
  have hblocks : ∀ bn, bn * BSIZE < max ip.size.toNat (off + src.length) →
      bn < MAXFILE ∧ entry d' ip'.toDinode (place bn) ≠ 0 := fun bn hbn => by
    have hdiv : bn * BSIZE / BSIZE = bn := Nat.mul_div_cancel bn (by decide)
    exact ⟨hdiv ▸ block_lt (hthere _ hbn).1, hdiv ▸ hpos _ hbn⟩
  split
  · rename_i hgrow
    have hmax : MAXFILE * BSIZE = 71680 := rfl
    have hnew : (BitVec.ofNat 32 (off + src.length)).toNat = max ip.size.toNat (off + src.length) := by
      rw [hsize] at hgrow
      rw [BitVec.toNat_ofNat, Nat.mod_eq_of_lt (by omega)]
      omega
    generalize BitVec.ofNat 32 (off + src.length) = w at hnew
    have hself := view_self sb d' ip'
    refine ⟨hnew, fun k hk => ?_, ?_, owned_resize ho' w, fun bn hbn => ?_,
      readInode_iupdate sb d' (ip'.setSize w), hother.resize ho' hinum w⟩
    · have hk' : k < max ip.size.toNat (off + src.length) := hnew ▸ hk
      have hcontent := content_resize ho' w ho'.inum (hself.symm ▸ ho'.type) (hthere k hk').1
        (hself.symm ▸ hpos k hk')
      rw [hself] at hcontent
      exact hcontent.trans (hbytes k hk')
    · rw [← h.rest]
      rfl
    · obtain ⟨hlt, hne⟩ := hblocks bn (hnew ▸ hbn)
      have hentry := entry_resize ho' w ho'.inum (hself.symm ▸ ho'.type) (place bn)
      rw [hself] at hentry
      exact ⟨hlt, fun hzero => hne (hentry.symm.trans hzero)⟩
  · rename_i hstay
    have hend : src.length = 0 ∨ off + src.length ≤ ip.size.toNat := by
      rw [hsize] at hstay
      omega
    have hmax : max ip.size.toNat (off + src.length) = ip.size.toNat := by omega
    have hsame := h.noop fun k hlo hhi => (hbacked (k / BSIZE)
      (Nat.lt_of_le_of_lt (Nat.div_mul_le_self k BSIZE) (by omega))).2
    refine ⟨by rw [hsize, hmax], fun k hk => hbytes k ?_, ?_, ho', fun bn hbn => hblocks bn ?_, ?_,
      hother⟩
    · rw [hmax, ← hsize]
      exact hk
    · rw [hsize, ← h.rest]
    · rw [hmax, ← hsize]
      exact hbn
    · rw [hinum, readInode, h.inodes _ (ho.layout.iblock_lt ho.inum), hsame]
      exact hsync

/-- A file is an array of bytes: `writei` overwrites it at `off` and `readi` gives a piece of
it. -/
theorem file_is_array (ho : Owned sb d ip) (hbacked : Backed d ip.toDinode)
    (hsync : readInode sb d ip.inum = ip.toDinode) (off : Nat) (hoff : off < 2 ^ 32) :
    (∀ src : List Byte, src.length < 2 ^ 32 →
      need d ip.toDinode (blocks off src.length) ≤ freeCount sb d →
      ∃ ok ip' d', writei sb d ip src off = .ok (ok, ip', d') ∧
        (ok = true ↔ off ≤ ip.size.toNat ∧ off + src.length < 2 ^ 32 ∧
          off + src.length ≤ MAXFILE * BSIZE) ∧
        if ok then Wrote sb d ip off src d' ip' else ip' = ip ∧ d' = d) ∧
    ∀ n, n < 2 ^ 32 → readi sb d ip off n =
      .ok (if off ≤ ip.size.toNat ∧ off + n < 2 ^ 32 then
          some (slice (content d ip.toDinode) off (min (off + n) ip.size.toNat - off))
        else none, ip, d) := by
  constructor
  · intro src hn hfree
    unfold writei
    by_cases hbad : ip.size.toNat < off ∨ (off + src.length) % 2 ^ 32 < off
    · rw [if_pos hbad]
      exact ⟨false, ip, d, rfl, ⟨nofun, fun h => by omega⟩, rfl, rfl⟩
    · rw [if_neg hbad]
      by_cases hlong : MAXFILE * BSIZE < off + src.length
      · rw [if_pos hlong]
        exact ⟨false, ip, d, rfl, ⟨nofun, fun h => by omega⟩, rfl, rfl⟩
      · rw [if_neg hlong]
        obtain ⟨ip', d', hloop, hwritten⟩ :=
          writeLoop_spec ho (Nat.le_refl src.length) (Nat.le_of_not_lt hlong) hfree
        have hwrote := hwritten.wrote ho hbacked hsync (by omega) (Nat.le_of_not_lt hlong)
        have hfits : true = true ↔ off ≤ ip.size.toNat ∧ off + src.length < 2 ^ 32 ∧
            off + src.length ≤ MAXFILE * BSIZE := ⟨fun _ => by omega, fun _ => rfl⟩
        rw [hloop]
        simp only [bind, Except.bind]
        split at hwrote
        · rename_i hgrow
          rw [if_pos hgrow]
          exact ⟨true, _, _, rfl, hfits, hwrote⟩
        · rename_i hstay
          rw [if_neg hstay]
          exact ⟨true, _, _, rfl, hfits, hwrote⟩
  · intro n hn
    have hiff : (ip.size.toNat < off ∨ (off + n) % 2 ^ 32 < off) ↔
        ¬(off ≤ ip.size.toNat ∧ off + n < 2 ^ 32) := by omega
    rw [readi_eq ho hbacked, if_congr hiff rfl rfl, ite_not]

/-- Ten blocks: the first has three inodes, the second is the bitmap. Inode 1 is a file of 600
bytes in blocks 2 and 3, and inode 2 one of three bytes in block 4. -/
def smallSb : Superblock := ⟨10, 3, 0, 1⟩

def smallDisk : Disk := fun b o =>
  (([((0, 64), 2), ((0, 72), 88), ((0, 73), 2), ((0, 76), 2), ((0, 80), 3), ((0, 128), 2),
    ((0, 136), 3), ((0, 140), 4), ((1, 0), 31), ((4, 0), 5), ((4, 1), 6), ((4, 2), 7)] :
    List ((Nat × Nat) × Byte)).lookup (b, o)).getD 0

def smallFile : Inode := {readInode smallSb smallDisk 1 with inum := 1}

theorem small_ref : ∀ j < 3, ∀ e < 141, ref smallSb smallDisk smallFile j e = 0 ∨
    ((j, e), ref smallSb smallDisk smallFile j e) ∈ [((1, 0), 2), ((1, 1), 3), ((2, 0), 4)] := by
  decide +kernel

theorem small_owned : Owned smallSb smallDisk smallFile := by
  refine ⟨⟨by decide, by decide⟩, by decide, by decide +kernel, fun b hb _ => ?_,
    fun j e hj he hne => ?_, fun j e j' e' hj he hj' he' hne heq => ?_⟩
  · have hbits : ∀ b < 2, used smallSb smallDisk b = true := by decide +kernel
    exact hbits b hb
  · have hdata : ∀ x ∈ [((1, 0), 2), ((1, 1), 3), ((2, 0), 4)],
        2 ≤ x.2 ∧ x.2 < 10 ∧ used smallSb smallDisk x.2 = true := by decide +kernel
    obtain ⟨hlow, hhigh, hused⟩ := hdata _ ((small_ref j hj e he).resolve_left hne)
    exact ⟨⟨hlow, hhigh⟩, hused⟩
  · have honce : ∀ x ∈ [((1, 0), 2), ((1, 1), 3), ((2, 0), 4)],
        ∀ y ∈ [((1, 0), 2), ((1, 1), 3), ((2, 0), 4)], x.2 = y.2 → x.1 = y.1 := by decide
    have hsame := honce _ ((small_ref j hj e he).resolve_left hne) _
      ((small_ref j' hj' e' he').resolve_left (heq ▸ hne)) heq
    exact Prod.mk.inj hsame

/-- A write of 500 bytes at the end of inode 1 goes on in a new block, and inode 2 is as
before. -/
theorem file_is_array_grown : ∃ ip' d',
    writei smallSb smallDisk smallFile (List.replicate 500 7) 600 = .ok (true, ip', d') ∧
      Wrote smallSb smallDisk smallFile 600 (List.replicate 500 7) d' ip' ∧
      readInode smallSb d' 2 = readInode smallSb smallDisk 2 ∧
      content d' (readInode smallSb smallDisk 2) 0 = 5 := by
  have hsize : smallFile.size.toNat = 600 := by decide +kernel
  have hlen : (List.replicate 500 (7 : Byte)).length = 500 := List.length_replicate
  have hbacked : Backed smallDisk smallFile.toDinode := fun bn hbn => by
    have hblocks : ∀ bn < 2, bn < MAXFILE ∧ entry smallDisk smallFile.toDinode (place bn) ≠ 0 := by
      decide +kernel
    exact hblocks bn (by rw [hsize] at hbn; simp only [BSIZE] at hbn; omega)
  obtain ⟨ok, ip', d', hwrite, hok, hwrote⟩ := (file_is_array small_owned hbacked rfl 600 (by decide)).1
    (List.replicate 500 7) (by rw [hlen]; decide) (by decide +kernel)
  obtain rfl : ok = true := hok.mpr ⟨hsize.ge, by rw [hlen]; decide, by rw [hlen]; decide⟩
  rw [if_pos rfl] at hwrote
  obtain ⟨hinode, hkept⟩ := hwrote.others 2 (by decide) (by decide)
  refine ⟨ip', d', hwrite, hwrote, hinode, ?_⟩
  rw [(hkept (by decide +kernel) 0 (by decide) (by decide +kernel)).2]
  decide +kernel

end ThreadKernel.Block
