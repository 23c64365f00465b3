import ThreadKernel.Fs.Hands

/-! Locks, asked for, got and given up, and how `iput` goes on.

A thread that has a lock knows what the inode is, and nobody else changes it. `iput` asks
for the lock, looks whether the inode has links and other references, unlocks it and counts
down; between the last two the reference is in hand and will not free anything. -/
namespace ThreadKernel.Fs

open Refcount Interleave Function

variable {strict careful : Prop} {γ : Slot → Ghost} {s s' : State} {t q : Slot} {g : Ghost}
  {i j d : Inum} {p : Share} {x : Dinode} {k : Kind} {r : List Inum} {site : Site} {b : Bool}
  {rest : List (Inum × Dinode)} {wants : Slot → Option (Inum × Site)} {stage : Stage}

/-! ### Those who are about to count down -/

theorem leavers_update (hleaving : ∀ q, q ≠ t → s'.leaving q = s.leaving q) (i : Inum) :
    leavers s' i + (if s.leaving t = some i then 1 else 0) =
      leavers s i + (if s'.leaving t = some i then 1 else 0) :=
  holders_update t hleaving i

namespace Inv

variable (h : Inv strict careful γ s)
include h

/-- A thread that holds a reference is one more than those about to drop theirs. -/
theorem leavers_lt (hi : i ∈ (γ t).refs)
    (hleft : (γ t).stage.left ≠ some i) : leavers s i < s.ref i := by
  have hlt := h.book.card_lt_ref (f := i) (t := some t)
    (S := (Finset.univ.filter fun q => s.leaving q = some i).map Function.Embedding.some) ?_ ?_ hi
  · rwa [Finset.card_map] at hlt
  · intro u hu
    obtain ⟨q, hq, rfl⟩ := Finset.mem_map.mp hu
    have hleaving := (Finset.mem_filter.mp hq).2
    rw [(h.each q).leaving] at hleaving
    exact (h.each q).left hleaving
  · intro ht
    obtain ⟨q, hq, heq⟩ := Finset.mem_map.mp ht
    cases heq
    have hleaving := (Finset.mem_filter.mp hq).2
    rw [(h.each t).leaving] at hleaving
    exact hleft hleaving

/-- Nobody else has a reference when there is one only. -/
theorem not_ref_of_one (hone : s.ref i = 1) (hi : i ∈ (γ t).refs) (hne : q ≠ t) : i ∉ (γ q).refs := by
  intro hq
  have htwo := h.book.two_of_refs (t := some t) (fun heq => hne (Option.some.inj heq)) hi hq
  have : (Fs.book γ s).ref i = 1 := hone
  omega

theorem not_mem_of_one (hone : s.ref i = 1) (hrefs : (γ t).refs.Perm (i :: r)) : i ∉ r := by
  intro hi
  have hcount := h.book.balanced i
  have hle : ((Fs.book γ s).hand (some t)).refs.count i ≤
      ∑ u, ((Fs.book γ s).hand u).refs.count i :=
    Finset.single_le_sum (f := fun u => ((Fs.book γ s).hand u).refs.count i) (fun _ _ => Nat.zero_le _)
      (Finset.mem_univ (some t))
  have htwo : ((Fs.book γ s).hand (some t)).refs.count i = r.count i + 1 := by
    show (γ t).refs.count i = _
    rw [hrefs.count_eq, List.count_cons_self]
  have hpos := List.count_pos_iff.mpr hi
  have : (Fs.book γ s).ref i = 1 := hone
  omega

end Inv

/-! ### A thread is elsewhere in a lock function -/

/-- Only how far the thread is has changed, and what it waits for. -/
theorem Local.restage (hl : Local s t g) (hdead : g.dead = none) (hdead' : stage.dead = none)
    (hwants : wants t = stage.asked) (hleft : stage.left = g.stage.left)
    (hdoomed : ∀ i, stage = .doomed i → (∃ x, (i, x) ∈ g.known ∧ x.nlink = 0) ∧ s.ref i = 1 ∧
      ∀ d, d ≠ i → (s.inode d).parent ≠ some i)
    (hspare : ∀ i, stage = .spare i → i ∈ g.keys ∧ leavers s i + 1 < s.ref i)
    (hasks : ∀ i site, stage = .asks i site → i ∈ g.refs ∧
      (site = .ilock → ∀ d ∈ g.keys, (s.inode d).type = some .dir ∧
        ((s.inode i).type = some .dir → s.born d < s.born i))) :
    Local {s with wants := wants} t {g with stage := stage} := by
  have hnot : ∀ i, ({g with stage := stage} : Ghost).dead ≠ some i := by
    intro i hi
    rw [Ghost.dead_eq, hdead'] at hi
    cases hi
  exact {
    known := fun hx => by
      obtain ⟨hlock, hinode, htype, href, -⟩ := hl.known hx
      exact ⟨hlock, hinode, htype, href, hnot _⟩
    keys := hl.keys
    locked := fun hi => .inl ((hl.locked hi).resolve_right fun hdying => by
      rw [Ghost.dead_eq, hdying] at hdead
      cases hdead)
    refs := fun hi => .inr ((hl.refs hi).resolve_left (by rw [hdead]; nofun))
    window := hl.window
    loaded := hl.loaded
    made := hl.made
    file := fun hi => by
      obtain ⟨href, -, htype, hcredit⟩ := hl.file hi
      exact ⟨href, hnot _, htype, hcredit⟩
    credit := hl.credit
    doomed := fun hi => hdoomed _ hi
    spare := fun hi => hspare _ hi
    dying := fun hi => by
      have hi : stage = _ := hi
      rw [hi] at hdead'
      cases hdead'
    wants := hwants
    asks := fun hi => hasks _ _ hi
    leaving := hl.leaving.trans hleft.symm
    left := fun hi => hl.left (by rw [← hleft]; exact hi)}

theorem Inv.restage (h : Inv strict careful γ s) (hwants : ∀ q, q ≠ t → wants q = s.wants q)
    (hdying : ∀ i, stage ≠ .dying i) (hdead : (γ t).dead = none)
    (hlocal : Local {s with wants := wants} t {γ t with stage := stage})
    (hquiet : careful → Quiet {s with wants := wants}) :
    Inv strict careful (update γ t {γ t with stage := stage}) {s with wants := wants} := by
  have hs : Silent γ t s {s with wants := wants} :=
    .of (fun _ => rfl) (fun _ _ => rfl) (fun hq => hwants _ hq) fun _ hj => hj
  refine h.keep rfl rfl rfl rfl rfl rfl (hs.turn h.pos_of_ref) hlocal ?_ ?_
    (fun hstrict => hs.kept (h.kept hstrict)) (.inr hquiet)
  · exact h.book_same rfl rfl rfl rfl
  · exact h.alloc.keep rfl rfl rfl rfl (fun _ hp => hp) (fun i hi => absurd hi (hdying i))
      fun i hi => .inl ⟨hi, fun hd => by rw [hdead] at hd; cases hd⟩

namespace Inv

variable (h : Inv strict careful γ s)
include h

theorem asks (hready : (γ t).stage = .ready) (hi : i ∈ (γ t).refs)
    (horder : site = .ilock → ∀ d ∈ (γ t).keys, (s.inode d).type = some .dir ∧
      ((s.inode i).type = some .dir → s.born d < s.born i))
    (hquiet : careful → Quiet (s.request t site i)) :
    Inv strict careful (update γ t {γ t with stage := .asks i site}) (s.request t site i) := by
  have hdead : (γ t).dead = none := by rw [Ghost.dead_eq, hready]; rfl
  refine h.restage (fun q hq => update_of_ne hq _ _) nofun hdead ?_ hquiet
  refine (h.each t).restage hdead rfl (update_self ..) (by rw [hready]; rfl) nofun nofun ?_
  intro j site' heq
  cases heq
  exact ⟨hi, horder⟩

theorem dooms (hg : γ t = g) (hready : g.stage = .ready)
    (hx : (i, x) ∈ g.known) (hnlink : x.nlink = 0) (hone : s.ref i = 1)
    (hrule : ∀ d, d ≠ i → (s.inode d).parent ≠ some i) :
    Inv strict careful (update γ t {g with stage := .doomed i}) s := by
  subst hg
  have hdead : (γ t).dead = none := by rw [Ghost.dead_eq, hready]; rfl
  refine h.restage (fun _ _ => rfl) nofun hdead ?_ h.quiet
  refine (h.each t).restage hdead rfl ((h.each t).wants.trans (by rw [hready]; rfl))
    (by rw [hready]; rfl) ?_ nofun nofun
  intro j heq
  cases heq
  exact ⟨⟨x, hx, hnlink⟩, hone, hrule⟩

theorem spares (hg : γ t = g) (hready : g.stage = .ready) (hi : i ∈ g.keys)
    (hlt : leavers s i + 1 < s.ref i) :
    Inv strict careful (update γ t {g with stage := .spare i}) s := by
  subst hg
  have hdead : (γ t).dead = none := by rw [Ghost.dead_eq, hready]; rfl
  refine h.restage (fun _ _ => rfl) nofun hdead ?_ h.quiet
  refine (h.each t).restage hdead rfl ((h.each t).wants.trans (by rw [hready]; rfl))
    (by rw [hready]; rfl) nofun ?_ nofun
  intro j heq
  cases heq
  exact ⟨hi, hlt⟩

end Inv

/-! ### Locks that are got and given up -/

/-- A step that changes only who has what lock, what is waited for and who is about to count
down. -/
theorem Inv.locks (h : Inv strict careful γ s) {g' : Ghost} {lock : Inum → Option Slot}
    {leaving : Slot → Option Inum}
    (hturn : Turn γ t s {s with lock := lock, wants := wants, leaving := leaving})
    (hhand : g'.hand = (γ t).hand) (hmade : g'.made = (γ t).made)
    (hcredits : g'.credits = (γ t).credits) (hasked : g'.stage.asked = none)
    (hdying : ∀ i, g'.stage = .dying i → (γ t).stage = .dying i)
    (hdead : ∀ i, (γ t).dead = some i → g'.dead = some i)
    (hlocal : Local {s with lock := lock, wants := wants, leaving := leaving} t g')
    (hkept : strict → Kept {s with lock := lock, wants := wants, leaving := leaving} (fresh γ)) :
    Inv strict careful (update γ t g')
      {s with lock := lock, wants := wants, leaving := leaving} := by
  refine h.keep rfl rfl rfl rfl hmade hcredits hturn hlocal ?_ ?_ hkept (.inl hasked)
  · exact h.book_same hhand rfl rfl rfl
  · refine h.alloc.keep rfl rfl rfl hmade (fun p hp => ?_) hdying fun i hi => ?_
    · rw [hhand]
      exact hp
    · rw [Ghost.refs, hhand] at hi
      exact .inl ⟨hi, hdead i⟩

namespace Inv

variable (h : Inv strict careful γ s)
include h

theorem not_key_of_unlocked (hlock : s.lock i = none) : i ∉ (γ t).keys := by
  intro hi
  have hkey := (h.key_cases hi).1
  rw [hlock] at hkey
  cases hkey

theorem grants (hg : γ t = g) (hstage : g.stage = .asks i site)
    (hlock : s.lock i = none) (hmade : ∀ m k, g.made = some (m, k) → m = i) :
    Inv strict careful
      (update γ t {g with known := (i, s.inode i) :: g.known, stage := .ready})
      (s.grant t i) := by
  subst hg
  have hl := h.each t
  have hkey : i ∉ (γ t).keys := h.not_key_of_unlocked hlock
  have hdead : (γ t).dead = none := by rw [Ghost.dead_eq, hstage]; rfl
  have href : i ∈ (γ t).refs := (hl.asks hstage).1
  have htype : (s.inode i).type ≠ none := (hl.refs href).resolve_left (by rw [hdead]; nofun)
  have hother : ∀ {j}, j ≠ i → (s.grant t i).lock j = s.lock j := fun hj => update_of_ne hj _ _
  have hself : (s.grant t i).lock i = some t := update_self ..
  have hturn : Turn γ t s (s.grant t i) := by
    refine {lock := fun {j q} hq => ?_, wants := fun hq => update_of_ne hq _ _}
    by_cases hj : j = i
    · subst hj
      rw [hself, hlock]
      exact ⟨fun heq => absurd (Option.some.inj heq).symm hq, nofun⟩
    · rw [hother hj]
  refine h.locks hturn rfl rfl rfl rfl nofun (fun j hj => by rw [hdead] at hj; cases hj) ?_
    (fun hstrict => ⟨(h.kept hstrict).kept, (h.kept hstrict).valid⟩)
  exact {hl with
    known := fun {j y} hy => by
      rcases List.mem_cons.mp hy with heq | hy
      · cases heq
        exact ⟨hself, rfl, htype, href, nofun⟩
      · obtain ⟨hlockj, hinode, htypej, hrefj, -⟩ := hl.known hy
        refine ⟨?_, hinode, htypej, hrefj, nofun⟩
        show (s.grant t i).lock j = some t
        rw [hother fun hj => hkey (hj ▸ Ghost.mem_keys.mpr ⟨y, hy⟩)]
        exact hlockj
    keys := List.nodup_cons.mpr ⟨hkey, hl.keys⟩
    locked := fun {j} hj => by
      by_cases hji : j = i
      · subst hji
        exact .inl List.mem_cons_self
      · have hj : (s.grant t i).lock j = some t := hj
        rw [hother hji] at hj
        exact .inl (List.mem_cons_of_mem i ((hl.locked hj).resolve_right (by rw [hstage]; nofun)))
    refs := fun hj => .inr ((hl.refs hj).resolve_left (by rw [hdead]; nofun))
    loaded := fun hj => ⟨List.mem_cons_of_mem i (hl.loaded hj).1, (hl.loaded hj).2⟩
    made := fun {m k} hm => by
      obtain ⟨htypem, -, hborn⟩ := hl.made hm
      obtain rfl := hmade m k hm
      refine ⟨htypem, fun hm => absurd List.mem_cons_self hm, fun j hj hne => ?_⟩
      exact hborn j ((List.mem_cons.mp hj).resolve_left hne) hne
    file := fun hj => by
      obtain ⟨hrefj, -, htypej, hcredit⟩ := hl.file hj
      exact ⟨hrefj, nofun, htypej, hcredit⟩
    credit := fun hj => (hl.credit hj).imp_left (List.mem_cons_of_mem i)
    doomed := nofun
    spare := nofun
    dying := nofun
    wants := update_self ..
    asks := nofun
    leaving := hl.leaving.trans (by rw [hstage]; rfl)
    left := nofun}

theorem loads (hg : γ t = g) (hi : i ∈ g.keys) :
    Inv strict careful (update γ t {g with loaded := i :: g.loaded})
      {s with valid := update s.valid i true} := by
  subst hg
  have hl := h.each t
  have hvalid : ∀ {j}, s.valid j = true → update s.valid i true j = true := by
    intro j hj
    by_cases hji : j = i
    · rw [hji, update_self]
    · rw [update_of_ne hji]
      exact hj
  have hs : Silent γ t s {s with valid := update s.valid i true} :=
    .of (fun _ => rfl) (fun _ _ => rfl) (fun _ => rfl) fun _ hj => hvalid hj
  refine h.silent hs rfl rfl rfl ?_ ?_ ?_
  · exact {hl with
      loaded := fun {j} hj => by
        rcases List.mem_cons.mp hj with rfl | hj
        · exact ⟨hi, update_self ..⟩
        · exact ⟨(hl.loaded hj).1, hvalid (hl.loaded hj).2⟩}
  · exact h.book_same rfl rfl rfl rfl
  · exact h.alloc.keep rfl rfl rfl rfl (fun _ hp => hp) (fun _ hi => hi) fun i hi => .inl ⟨hi, id⟩

end Inv

section Unlock

variable {loaded : List Inum} {stage : Stage} {leaving : Slot → Option Inum}

/-- The thread gives up the lock of `i`, which it has no use for any more. -/
theorem Local.unlock (hl : Local s t g) (hrest : ∀ y ∈ rest, y ∈ g.known ∧ y.1 ≠ i)
    (hkeys : ∀ j ∈ g.keys, j = i ∨ j ∈ rest.map Prod.fst) (hnodup : (rest.map Prod.fst).Nodup)
    (hloaded : ∀ j ∈ loaded, j ∈ g.loaded ∧ j ≠ i) (hmade : ∀ k, g.made ≠ some (i, k))
    (hcredit : i ∈ g.credits → g.file = some i) (href : i ∈ g.refs)
    (hstage : stage = .ready ∨ ∃ b, stage = .leaving i b) (hdead : stage.dead = g.dead)
    (hasked : g.stage.asked = none) (hdying : ∀ j, g.stage = .dying j → j = i)
    (hleaving : leaving t = stage.left) :
    Local {s with lock := update s.lock i none, leaving := leaving} t
      {g with known := rest, loaded := loaded, stage := stage} := by
  have hsub : ∀ j ∈ rest.map Prod.fst, j ∈ g.keys ∧ j ≠ i := by
    intro j hj
    obtain ⟨y, hy, rfl⟩ := List.mem_map.mp hj
    exact ⟨List.mem_map_of_mem (hrest y hy).1, (hrest y hy).2⟩
  have hlast : stage.asked = none ∧ (∀ j, stage.left = some j → j = i) ∧ (∀ j, stage ≠ .doomed j) ∧
      (∀ j, stage ≠ .spare j) ∧ (∀ j, stage ≠ .dying j) ∧ ∀ j site, stage ≠ .asks j site := by
    rcases hstage with rfl | ⟨b, rfl⟩
    · exact ⟨rfl, nofun, nofun, nofun, nofun, nofun⟩
    · exact ⟨rfl, fun j hj => (Option.some.inj hj).symm, nofun, nofun, nofun, nofun⟩
  exact {
    known := fun {j y} hy => by
      obtain ⟨hlock, hinode, htype, hrefj, hdeadj⟩ := hl.known (hrest _ hy).1
      refine ⟨?_, hinode, htype, hrefj, by rw [Ghost.dead_eq, hdead]; exact hdeadj⟩
      show update s.lock i none j = some t
      rw [update_of_ne (hrest _ hy).2]
      exact hlock
    keys := hnodup
    locked := fun {j} hj => by
      have hj : update s.lock i none j = some t := hj
      by_cases hji : j = i
      · rw [hji, update_self] at hj
        cases hj
      · rw [update_of_ne hji] at hj
        rcases hl.locked hj with hkey | hstagej
        · exact .inl ((hkeys j hkey).resolve_left hji)
        · exact absurd (hdying j hstagej) hji
    refs := fun hj => by
      rw [Ghost.dead_eq, hdead]
      exact hl.refs hj
    window := hl.window
    loaded := fun {j} hj => by
      obtain ⟨hold, hne⟩ := hloaded j hj
      exact ⟨(hkeys j (hl.loaded hold).1).resolve_left hne, (hl.loaded hold).2⟩
    made := fun {m k} hm => by
      obtain ⟨htype, hblank, hborn⟩ := hl.made hm
      refine ⟨htype, fun hm' => hblank fun hkey => ?_, fun j hj hne => hborn j (hsub j hj).1 hne⟩
      rcases hkeys m hkey with rfl | hmem
      · exact hmade k hm
      · exact hm' hmem
    file := fun hj => by
      obtain ⟨hrefj, hdeadj, htype, hcreditj⟩ := hl.file hj
      exact ⟨hrefj, by rw [Ghost.dead_eq, hdead]; exact hdeadj, htype, hcreditj⟩
    credit := fun {j} hj => by
      rcases hl.credit hj with hkey | hfile
      · rcases hkeys j hkey with rfl | hmem
        · exact .inr (hcredit hj)
        · exact .inl hmem
      · exact .inr hfile
    doomed := fun hj => absurd hj (hlast.2.2.1 _)
    spare := fun hj => absurd hj (hlast.2.2.2.1 _)
    dying := fun hj => absurd hj (hlast.2.2.2.2.1 _)
    wants := hl.wants.trans (hasked.trans hlast.1.symm)
    asks := fun hj => absurd hj (hlast.2.2.2.2.2 _ _)
    leaving := hleaving
    left := fun {j} hj => by
      obtain rfl := hlast.2.1 j hj
      exact href}

theorem Inv.unlock (h : Inv strict careful γ s) (hlock : s.lock i = some t)
    (hrest : ∀ y ∈ rest, y ∈ (γ t).known ∧ y.1 ≠ i)
    (hkeys : ∀ j ∈ (γ t).keys, j = i ∨ j ∈ rest.map Prod.fst) (hnodup : (rest.map Prod.fst).Nodup)
    (hloaded : ∀ j ∈ loaded, j ∈ (γ t).loaded ∧ j ≠ i) (hmade : ∀ k, (γ t).made ≠ some (i, k))
    (hcredit : i ∈ (γ t).credits → (γ t).file = some i) (href : i ∈ (γ t).refs)
    (hstage : stage = .ready ∨ ∃ b, stage = .leaving i b) (hdead : stage.dead = (γ t).dead)
    (hasked : (γ t).stage.asked = none) (hdying : ∀ j, (γ t).stage = .dying j → j = i)
    (hleft : (γ t).stage.left = none)
    (hleaving : leaving t = stage.left) (hothers : ∀ q, q ≠ t → leaving q = s.leaving q)
    (hkept : strict → stage ≠ .ready → (s.inode i).type ≠ none → (s.inode i).nlink = 0 → ¬ fresh γ i →
      leavers s i + 1 < s.ref i) :
    Inv strict careful
      (update γ t {γ t with known := rest, loaded := loaded, stage := stage})
      {s with lock := update s.lock i none, leaving := leaving} := by
  have hl := h.each t
  have hcount : ∀ j, leavers {s with lock := update s.lock i none, leaving := leaving} j =
      leavers s j + (if stage.left = some j then 1 else 0) := by
    intro j
    have hupdate : leavers {s with lock := update s.lock i none, leaving := leaving} j +
        (if s.leaving t = some j then 1 else 0) = leavers s j + (if leaving t = some j then 1 else 0) :=
      leavers_update hothers j
    rw [hl.leaving, hleft, hleaving] at hupdate
    simpa using hupdate
  have hne : ∀ {j}, stage.left = some j → j = i := by
    intro j hj
    rcases hstage with rfl | ⟨b, rfl⟩
    · cases hj
    · exact (Option.some.inj hj).symm
  have hcount' : ∀ {j}, j ≠ i →
      leavers {s with lock := update s.lock i none, leaving := leaving} j = leavers s j := by
    intro j hj
    rw [hcount, if_neg fun hleft => hj (hne hleft)]
    rfl
  have hturn : Turn γ t s {s with lock := update s.lock i none, leaving := leaving} := by
    refine {lock := fun {j q} hq => ?_, leaving := fun hq => hothers _ hq, spare := fun {j q} hq hj hlt => ?_}
    · show update s.lock i none j = some q ↔ s.lock j = some q
      by_cases hj : j = i
      · rw [hj, update_self, hlock]
        exact ⟨nofun, fun heq => absurd (Option.some.inj heq).symm hq⟩
      · rw [update_of_ne hj]
    · rw [hcount']
      · exact hlt
      · rintro rfl
        rw [hlock] at hj
        exact hq (Option.some.inj hj).symm
  refine h.locks hturn rfl rfl rfl ?_ ?_ ?_ (hl.unlock hrest hkeys hnodup hloaded hmade hcredit href
    hstage hdead hasked hdying hleaving) ?_
  · rcases hstage with rfl | ⟨b, rfl⟩ <;> rfl
  · intro j hj
    rcases hstage with rfl | ⟨b, rfl⟩ <;> cases hj
  · intro j hj
    rw [Ghost.dead_eq, hdead]
    exact hj
  · intro hstrict
    refine ⟨fun {j} htype hnlink hfresh => ?_, (h.kept hstrict).valid⟩
    by_cases hj : j = i
    · subst hj
      rw [hcount]
      split
      · rename_i hleft
        exact hkept hstrict (fun hready => by rw [hready] at hleft; cases hleft) htype hnlink hfresh
      · exact (h.kept hstrict).kept htype hnlink hfresh
    · rw [hcount' hj]
      exact (h.kept hstrict).kept htype hnlink hfresh

end Unlock

theorem known_rest (hl : Local s t g) (hperm : g.known.Perm ((i, x) :: rest)) :
    (∀ y ∈ rest, y ∈ g.known ∧ y.1 ≠ i) ∧ (∀ j ∈ g.keys, j = i ∨ j ∈ rest.map Prod.fst) ∧
      (rest.map Prod.fst).Nodup := by
  have hkeys : g.keys.Perm (i :: rest.map Prod.fst) := hperm.map Prod.fst
  have hnodup := List.nodup_cons.mp (hkeys.nodup_iff.mp hl.keys)
  refine ⟨fun y hy => ⟨hperm.mem_iff.mpr (List.mem_cons_of_mem _ hy), ?_⟩,
    fun j hj => List.mem_cons.mp (hkeys.mem_iff.mp hj), hnodup.2⟩
  rintro rfl
  exact hnodup.1 (List.mem_map_of_mem hy)

namespace Inv

variable (h : Inv strict careful γ s)
include h

variable {loaded : List Inum}

theorem releases (hready : (γ t).stage = .ready)
    (hperm : (γ t).known.Perm ((i, x) :: rest)) (hloaded : ∀ j ∈ loaded, j ∈ (γ t).loaded ∧ j ≠ i)
    (hmade : ∀ k, (γ t).made ≠ some (i, k)) (hcredit : i ∈ (γ t).credits → (γ t).file = some i) :
    Inv strict careful (update γ t {γ t with known := rest, loaded := loaded})
      (s.setLock i none) := by
  have hl := h.each t
  obtain ⟨hrest, hkeys, hnodup⟩ := known_rest hl hperm
  obtain ⟨hlock, -, -, href, -⟩ := hl.known (hperm.mem_iff.mpr List.mem_cons_self)
  have hinv := h.unlock hlock hrest hkeys hnodup hloaded hmade hcredit href (.inl rfl)
    (by rw [Ghost.dead_eq, hready]) (by rw [hready]; rfl) (by rw [hready]; nofun) (by rw [hready]; rfl)
    (hl.leaving.trans (by rw [hready])) (fun _ _ => rfl) (fun _ hne => absurd rfl hne)
  rwa [← hready] at hinv

theorem leaves_be (hg : γ t = g) (hstage : g.stage = .ready ∨ g.stage = .spare i)
    (hperm : g.known.Perm ((i, x) :: rest)) (hloaded : ∀ j ∈ loaded, j ∈ g.loaded ∧ j ≠ i)
    (hmade : ∀ k, g.made ≠ some (i, k)) (hcredit : i ∈ g.credits → g.file = some i)
    (hlinks : strict → g.stage = .spare i ∨ x.nlink ≠ 0) :
    Inv strict careful
      (update γ t {g with known := rest, loaded := loaded, stage := .leaving i false})
      (s.iputRelease t i) := by
  subst hg
  have hl := h.each t
  obtain ⟨hrest, hkeys, hnodup⟩ := known_rest hl hperm
  obtain ⟨hlock, hinode, -, href, -⟩ := hl.known (hperm.mem_iff.mpr List.mem_cons_self)
  have hquick : (γ t).dead = none ∧ (γ t).stage.asked = none ∧ (γ t).stage.left = none ∧
      ∀ j, (γ t).stage = .dying j → j = i := by
    rw [Ghost.dead_eq]
    rcases hstage with hstage | hstage <;> rw [hstage] <;> exact ⟨rfl, rfl, rfl, nofun⟩
  refine h.unlock hlock hrest hkeys hnodup hloaded hmade hcredit href (.inr ⟨false, rfl⟩)
    hquick.1.symm hquick.2.1 hquick.2.2.2 hquick.2.2.1 (update_self ..)
    (fun q hq => update_of_ne hq _ _) fun hstrict _ _ hnlink _ => ?_
  rcases hlinks hstrict with hspare | hne
  · exact (hl.spare hspare).2
  · rw [hinode] at hnlink
    exact absurd hnlink hne

theorem leaves_dead (hg : γ t = g) (hstage : g.stage = .dying i)
    (href : i ∈ g.refs) (hmade : g.made = none) :
    Inv strict careful (update γ t {g with stage := .leaving i true})
      (s.iputRelease t i) := by
  subst hg
  have hl := h.each t
  have hdead : (γ t).dead = some i := by rw [Ghost.dead_eq, hstage]; rfl
  have hkey : i ∉ (γ t).keys := fun hi => (h.key_cases hi).2.2.2 hdead
  refine h.unlock (hl.dying hstage)
    (fun y hy => ⟨hy, fun heq => hkey (heq ▸ List.mem_map_of_mem hy)⟩) (fun _ hj => .inr hj) hl.keys
    (fun j hj => ⟨hj, fun heq => hkey (heq ▸ (hl.loaded hj).1)⟩)
    (fun k hk => by rw [hmade] at hk; cases hk) (fun hi => (hl.credit hi).resolve_left hkey) href
    (.inr ⟨true, rfl⟩) hdead.symm (by rw [hstage]; rfl)
    (fun j hj => by rw [hstage] at hj; exact (Stage.dying.inj hj).symm) (by rw [hstage]; rfl)
    (update_self ..)
    (fun q hq => update_of_ne hq _ _) fun hstrict _ htype hnlink hfresh => ?_
  rcases h.alloc.dying hstage with hnone | hfr
  · exact absurd hnone htype
  · exact absurd hfr hfresh

theorem counts_down (hg : γ t = g) (hstage : g.stage = .leaving i b)
    (hrefs : g.refs.Perm (i :: r)) (hkeys : ∀ j ∈ g.keys, j ∈ r)
    (hfile : ∀ j ∈ g.file, j ∈ r) (hdead : b = true → i ∉ r) :
    Inv strict careful
      (update γ t {g with hand := {g.hand with refs := r}, stage := .ready})
      (s.decRef t i) := by
  subst hg
  have hl := h.each t
  have hsub : ∀ j ∈ r, j ∈ (γ t).refs := fun j hj => hrefs.mem_iff.mpr (List.mem_cons_of_mem i hj)
  have hi : i ∈ (γ t).refs := hrefs.mem_iff.mpr List.mem_cons_self
  have hleft : s.leaving t = some i := hl.leaving.trans (by rw [hstage]; rfl)
  have hdeath : ∀ j ∈ r, (γ t).dead ≠ some j := by
    intro j hj heq
    rw [Ghost.dead_eq, hstage] at heq
    cases b with
    | false => cases heq
    | true =>
      cases heq
      exact hdead rfl hj
  have hother : ∀ {j}, j ≠ i → (s.decRef t i).ref j = s.ref j := fun hj => update_of_ne hj _ _
  have hself : (s.decRef t i).ref i = s.ref i - 1 := update_self ..
  have hleave : (s.decRef t i).leaving t = none := update_self ..
  have hcount : ∀ j, leavers (s.decRef t i) j + (if j = i then 1 else 0) = leavers s j := by
    intro j
    have hupdate : leavers (s.decRef t i) j + (if s.leaving t = some j then 1 else 0) =
        leavers s j + (if (s.decRef t i).leaving t = some j then 1 else 0) :=
      leavers_update (fun q hq => update_of_ne hq _ _) j
    rw [hleft, hleave] at hupdate
    simpa [eq_comm] using hupdate
  have hgap : ∀ j, leavers s j + 1 < s.ref j → leavers (s.decRef t i) j + 1 < (s.decRef t i).ref j := by
    intro j hlt
    have := hcount j
    by_cases hj : j = i
    · subst hj
      simp at this
      omega
    · rw [hother hj]
      omega
  have hturn : Turn γ t s (s.decRef t i) := by
    refine {ref := fun {j q} hq hj => hother fun heq => ?_,
            leaving := fun hq => update_of_ne hq _ _,
            spare := fun _ _ hlt => hgap _ hlt}
    subst heq
    obtain ⟨⟨y, hy, -⟩, hone, -⟩ := (h.each q).doomed hj
    exact h.not_ref_of_one hone ((h.each q).known hy).2.2.2.1 hq.symm hi
  refine h.keep rfl rfl rfl rfl rfl rfl hturn ?_ ?_ ?_ ?_ (.inl rfl)
  · exact {hl with
      known := fun hy => by
        obtain ⟨hlock, hinode, htype, -, -⟩ := hl.known hy
        exact ⟨hlock, hinode, htype, hkeys _ (Ghost.mem_keys.mpr ⟨_, hy⟩), nofun⟩
      locked := fun hj => .inl ((hl.locked hj).resolve_right (by rw [hstage]; nofun))
      refs := fun hj => .inr ((hl.refs (hsub _ hj)).resolve_left (hdeath _ hj))
      file := fun hj => by
        obtain ⟨-, -, htype, hcredit⟩ := hl.file hj
        exact ⟨hfile _ hj, nofun, htype, hcredit⟩
      doomed := nofun
      spare := nofun
      dying := nofun
      wants := hl.wants.trans (by rw [hstage]; rfl)
      asks := nofun
      leaving := hleave
      left := nofun}
  · rw [book_update rfl]
    exact h.book.letGo (t := some t) hrefs
  · exact h.alloc.keep rfl rfl rfl rfl (fun _ hp => hp) nofun
      fun j hj => .inl ⟨hsub j hj, fun hd => absurd hd (hdeath j hj)⟩
  · intro hstrict
    refine ⟨fun {j} htype hnlink hfresh => ?_, (h.kept hstrict).valid⟩
    have hlt := (h.kept hstrict).kept htype hnlink hfresh
    have := hcount j
    by_cases hj : j = i
    · subst hj
      simp at this
      omega
    · rw [hother hj]
      omega

end Inv

end ThreadKernel.Fs
