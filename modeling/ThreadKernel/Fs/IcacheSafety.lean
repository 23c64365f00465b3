import ThreadKernel.Fs.IcacheSteps

/-! The functions of the inode cache keep the invariant, and what follows along runs. -/
namespace ThreadKernel.Icache

open Refcount Interleave Lts Fs Function

variable {γ : Slot → Stage} {s s' : State} {t q : Slot} {g g' : Stage} {ip jp : Ix} {x : Inode}
  {site : Site} {dev inum : Nat} {kind : Kind}

/-- A step frees an inode on the disk only in `iput`, with the only reference to it and no
links. -/
def FreesSole (s : State) (t : Slot) (o : Op) : Prop :=
  ∀ a s', s.run t o = some (a, s') → ∀ dev inum, (s.disk dev inum).type ≠ none →
    (s'.disk dev inum).type = none →
    ∃ ip, (s.inode ip).dev = dev ∧ (s.inode ip).inum = inum ∧
      (s.inode ip).lock = some (t, .iput) ∧ ip ∈ s.held t ∧ (s.inode ip).ref = 1 ∧
      (s.inode ip).copy.nlink = 0 ∧ (s.disk dev inum).nlink = 0

def outline : Outline Op State Slot Stage := ⟨Inv, FreesSole⟩

abbrev Ok {α : Type} (t : Slot) (p : Code α) (g : Stage) (Q : α → Stage → Prop) (n : Nat) : Prop :=
  Safe (system n) soleRule outline t p g Q

variable {n : Nat} {o : Op}

theorem run_of_exec {a : o.Ans} (h : (system n).exec t o s = some (a, s')) :
    s.run t o = some (a, s') := by
  have h : State.exec t o s = some (a, s') := h
  unfold State.exec at h
  split at h
  · exact h
  · cases h

/-- The operations that write to the disk. -/
def Op.writes : Op → Bool
  | .itrunc _ | .clearType _ | .setNlink _ _ | .tryAlloc _ _ _ => true
  | _ => false

theorem frees_of_reads (h : o.writes = false) : FreesSole s t o := by
  intro a s' hrun dev inum htype hfree
  have hdisk : s'.disk = s.disk := by
    cases o <;> cases h
    all_goals
      simp only [State.run, State.iget] at hrun
      repeat' split at hrun
      all_goals cases hrun <;> rfl
  rw [hdisk] at hfree
  exact absurd hfree htype

theorem Ok.act {Q : o.Ans → Stage → Prop}
    (hassert : ∀ γ s, γ t = g → Inv γ s → soleRule.op s t o → FreesSole s t o)
    (hstep : ∀ γ s, γ t = g → Inv γ s → soleRule.op s t o → ∀ a s', s.run t o = some (a, s') →
      ∃ g', Inv (update γ t g') s' ∧ Q a g') :
    Ok t (act o) g Q n :=
  Safe.perform hassert fun γ s hg hI hrule a s' hexec =>
    hstep γ s hg hI hrule a s' (run_of_exec hexec)

theorem Ok.reads {Q : o.Ans → Stage → Prop} (ho : o.writes = false)
    (hstep : ∀ γ s, γ t = g → Inv γ s → soleRule.op s t o → ∀ a s', s.run t o = some (a, s') →
      ∃ g', Inv (update γ t g') s' ∧ Q a g') :
    Ok t (Icache.act o) g Q n :=
  Ok.act (fun _ _ _ _ _ => frees_of_reads ho) hstep

theorem Ok.panic {α : Type} {w : Panic} {Q : α → Stage → Prop} : Ok t (panic w) g Q n := by
  intro γ s s' _ hI hhalt
  have hhalt : State.halt w s = some s' := hhalt
  unfold State.halt at hhalt
  split at hhalt
  · cases hhalt
    exact ⟨fun q => {hI.each q with}, hI.owner, hI.unique, hI.book, hI.agree⟩
  · cases hhalt

theorem iget_ok : Ok t (iget dev inum) .ready (fun _ g' => g' = .ready) n := by
  refine Safe.seq (P := fun _ g' => g' = .ready) ?_ ?_
  · refine Ok.reads rfl fun γ s hg hI hrule a s' hrun => ?_
    simp only [State.run, State.iget] at hrun
    split at hrun
    · rename_i ip hfind
      cases hrun
      obtain ⟨hpos, hdev, hinum⟩ := State.find_some hfind
      refine ⟨.ready, hI.takes hg hpos fun q _ hq => ?_, rfl⟩
      exact hrule.2 ip hdev hinum (hI.doomed_of_stage hq)
    · rename_i hfind
      split at hrun
      · rename_i ip hempty
        cases hrun
        exact ⟨.ready, hI.recycles hg (State.empty_some hempty) fun _ => State.find_none hfind, rfl⟩
      · cases hrun
        exact ⟨.ready, hI.stay hg, rfl⟩
  · rintro (_ | ip) g' rfl
    · exact Ok.panic
    · exact Safe.ret rfl

theorem idup_ok : Ok t (act (.idup ip)) .ready (fun _ g' => g' = .ready) n := by
  refine Ok.reads rfl fun γ s hg hI hrule a s' hrun => ?_
  cases hrun
  have hmem : ip ∈ s.held t := hrule.1
  exact ⟨.ready, hI.takes hg (hI.pos_of_held hmem) fun q hq => hI.not_doomed_of_held hmem hq, rfl⟩

theorem acquiresleep_ok :
    Ok t (act (.acquiresleep site ip)) .ready (fun _ g' => g' = .got ip site) n := by
  refine Ok.reads rfl fun γ s hg hI hrule a s' hrun => ?_
  obtain ⟨hlock, heq⟩ := Option.ite_none_right_eq_some.mp hrun
  cases heq
  exact ⟨_, hI.acquires hg hrule.1 hlock, rfl⟩

theorem ilock_ok : Ok t (ilock ip) .ready (fun _ g' => g' = .ready) n := by
  refine Safe.seq (P := fun _ g' => g' = .ready) ?_ ?_
  · refine Ok.reads rfl fun γ s hg hI _ a s' hrun => ?_
    cases hrun
    exact ⟨.ready, hI.stay hg, rfl⟩
  · rintro referenced g' rfl
    split
    · refine Safe.next acquiresleep_ok ?_
      refine Safe.seq (P := fun typed g' => typed = true → g' = .ready) ?_ ?_
      · refine Ok.reads rfl fun γ s hg hI _ a s' hrun => ?_
        simp only [State.run] at hrun
        split at hrun
        · rename_i hvalid
          cases hrun
          exact ⟨.ready, hI.learns hg (hI.lock_at hg rfl) (by rintro _ ⟨⟩) (.inr rfl) (.inl rfl) trivial
            (.inr ⟨rfl, hvalid⟩), fun _ => rfl⟩
        · cases hrun
          refine ⟨_, hI.loads hg, fun htyped => if_neg fun hnone => ?_⟩
          rw [hnone] at htyped
          cases htyped
      · intro typed g' hg'
        split
        · rename_i htyped
          exact Safe.ret (hg' htyped)
        · exact Ok.panic
    · exact Ok.panic

theorem iunlock_ok : Ok t (iunlock ip) .ready (fun _ g' => g' = .ready) n := by
  refine Safe.seq (P := fun _ g' => g' = .ready) ?_ ?_
  · refine Ok.reads rfl fun γ s hg hI _ a s' hrun => ?_
    simp only [State.run] at hrun
    split at hrun
    · rename_i hheld
      cases hrun
      obtain ⟨⟨q, site⟩, hx, hq⟩ := Option.map_eq_some_iff.mp hheld.1
      cases hq
      exact ⟨.ready, hI.releases hg hx nofun (.inl rfl) (.inl rfl), rfl⟩
    · cases hrun
      exact ⟨.ready, hI.stay hg, rfl⟩
  · rintro held g' rfl
    split
    · exact Safe.ret rfl
    · exact Ok.panic

/-- An operation that writes back an inode that keeps its type. -/
theorem frees_of_iupdate (htype : (s.inode ip).copy.type ≠ none) (h : ∀ a s', s.run t o = some (a, s') →
      ∃ y : Dinode, s' = s.iupdate ip y ∧ y.type = (s.inode ip).copy.type) : FreesSole s t o := by
  intro a s' hrun dev inum hbefore hafter
  obtain ⟨y, rfl, hy⟩ := h a s' hrun
  simp only [State.iupdate, State.setInode, State.setDisk] at hafter
  split at hafter
  · exact absurd hafter (by rw [hy]; exact htype)
  · exact absurd hafter hbefore

theorem iputFree_ok : Ok t (do
      act (.itrunc ip)
      act (.clearType ip)
      act (.invalidate ip)) (.doomed ip) (fun _ g' => g' = .putting ip) n := by
  have hagree : ∀ {γ s}, γ t = .doomed ip → Inv γ s →
      (s.inode ip).copy = s.stored ip ∧ (s.inode ip).copy.type ≠ none := fun hg hI =>
    hI.agree_of_lock hg (hI.lock_at hg rfl) nofun ((hI.each t).unlinked (.inr hg)).1
  refine Safe.seq (P := fun _ g' => g' = .doomed ip) ?_ ?_
  · refine Ok.act (fun γ s hg hI _ => ?_) fun γ s hg hI _ a s' hrun => ?_
    · refine frees_of_iupdate (hagree hg hI).2 fun a s' hrun => ?_
      cases hrun
      exact ⟨_, rfl, rfl⟩
    · cases hrun
      have hx := hI.lock_at hg rfl
      have hlinks := (hI.each t).unlinked (.inr hg)
      exact ⟨.doomed ip, hI.rewrites hg hx nofun (.inr rfl) hlinks.1 rfl
        ⟨hx, hlinks, (hI.each t).doomed hg⟩, rfl⟩
  · rintro - g' rfl
    refine Safe.seq (P := fun _ g' => g' = .lost ip .iput) ?_ ?_
    · refine Ok.act (fun γ s hg hI _ a s' hrun d i hbefore hafter => ?_) fun γ s hg hI _ a s' hrun => ?_
      · cases hrun
        simp only [State.iupdate, State.setInode, State.setDisk] at hafter
        split at hafter
        · rename_i heq
          have hnlink := ((hI.each t).unlinked (.inr hg)).2
          refine ⟨ip, heq.1.symm, heq.2.symm, hI.lock_at hg rfl, hI.held_at hg rfl,
            (hI.each t).doomed hg, hnlink, ?_⟩
          rw [(hagree hg hI).1, State.stored, ← heq.1, ← heq.2] at hnlink
          exact hnlink
        · exact absurd hafter hbefore
      · cases hrun
        exact ⟨_, hI.clears hg, rfl⟩
    · rintro - g' rfl
      refine Ok.reads rfl fun γ s hg hI _ a s' hrun => ?_
      cases hrun
      exact ⟨_, hI.invalidates hg, rfl⟩

theorem iputTest_ok : Ok t (iputTest ip) (.putting ip)
    (fun _ g' => g' = .putting ip ∨ g' = .unlinked ip) n := by
  refine Safe.seq (P := fun (b : Bool) g' => g' = if b then .unlinked ip else .putting ip) ?_ ?_
  · refine Ok.reads rfl fun γ s hg hI _ a s' hrun => ?_
    have hx := hI.lock_at hg rfl
    cases hrun
    refine ⟨_, ?_, rfl⟩
    split
    · rename_i hlinks
      obtain ⟨hvalid, hnlink⟩ := Bool.and_eq_true_iff.mp hlinks
      exact hI.learns hg hx nofun (.inr rfl) (.inr rfl) ⟨hx, hvalid, beq_iff_eq.mp hnlink⟩ (.inl rfl)
    · exact hI.stay hg
  · rintro b g' rfl
    cases b with
    | false => exact Safe.ret (.inl rfl)
    | true =>
      refine Safe.seq (P := fun (r : Nat) g' => g' = if r = 1 then .doomed ip else .unlinked ip) ?_ ?_
      · refine Ok.reads rfl fun γ s hg hI _ a s' hrun => ?_
        have hx := hI.lock_at hg rfl
        cases hrun
        refine ⟨_, ?_, rfl⟩
        split
        · rename_i hone
          exact hI.learns hg hx nofun (.inr rfl) (.inr rfl)
            ⟨hx, (hI.each t).unlinked (.inl hg), hone⟩ (.inl rfl)
        · exact hI.stay hg
      · rintro r g' rfl
        by_cases hone : r = 1
        · rw [if_pos hone, if_pos hone]
          exact iputFree_ok.mono fun _ _ hg => .inl hg
        · rw [if_neg hone, if_neg hone]
          exact Safe.ret (.inr rfl)

theorem iput_ok : Ok t (iput ip) .ready (fun _ g' => g' = .ready) n := by
  refine Safe.next acquiresleep_ok ?_
  refine Safe.seq iputTest_ok ?_
  intro _ g' hg'
  refine Safe.seq (P := fun _ g' => g' = .left ip) ?_ ?_
  · refine Ok.reads rfl fun γ s hg hI _ a s' hrun => ?_
    cases hrun
    rcases hg' with rfl | rfl <;>
      exact ⟨.left ip, hI.releases hg (hI.lock_at hg rfl) nofun (.inr rfl) (.inr rfl), rfl⟩
  · rintro - g' rfl
    refine Ok.reads rfl fun γ s hg hI _ a s' hrun => ?_
    cases hrun
    exact ⟨.ready, hI.drops hg, rfl⟩

theorem setNlink_ok (m : Nat) : Ok t (act (.setNlink ip m)) .ready (fun _ g' => g' = .ready) n := by
  have hfacts : ∀ γ s, γ t = .ready → Inv γ s → soleRule.op s t (.setNlink ip m) →
      (s.inode ip).lock = some (t, .ilock) ∧ (s.inode ip).valid = true ∧
        (s.inode ip).copy.type ≠ none := by
    intro γ s hg hI hrule
    have hx : (s.inode ip).lock = some (t, .ilock) := hrule.1
    have howns := (hI.owner t hx).2
    rw [hg] at howns
    have hvalid := (howns.resolve_left nofun).2
    exact ⟨hx, hvalid, (hI.agree_of_lock hg hx nofun hvalid).2⟩
  refine Ok.act (fun γ s hg hI hrule => ?_) fun γ s hg hI hrule a s' hrun => ?_
  · refine frees_of_iupdate (hfacts γ s hg hI hrule).2.2 fun a s' hrun => ?_
    cases hrun
    exact ⟨_, rfl, rfl⟩
  · obtain ⟨hx, hvalid, -⟩ := hfacts γ s hg hI hrule
    cases hrun
    exact ⟨.ready, hI.rewrites hg hx nofun (.inl rfl) hvalid rfl trivial, rfl⟩

theorem ialloc_ok (l : List Nat) : Ok t (ialloc dev kind l) .ready (fun _ g' => g' = .ready) n := by
  induction l with
  | nil => exact Ok.panic
  | cons inum l ih =>
    refine Safe.seq (P := fun _ g' => g' = .ready) ?_ ?_
    · refine Ok.act (fun γ s _ _ _ a s' hrun d i hbefore hafter => ?_)
        fun γ s hg hI _ a s' hrun => ?_ <;> simp only [State.run] at hrun
      · split at hrun
        · cases hrun
          simp only [State.setDisk] at hafter
          split at hafter
          · cases hafter
          · exact absurd hafter hbefore
        · cases hrun
          exact absurd hafter hbefore
      · split at hrun
        · rename_i hfree
          cases hrun
          exact ⟨.ready, (hI.allocs hfree).stay hg, rfl⟩
        · cases hrun
          exact ⟨.ready, hI.stay hg, rfl⟩
    · rintro free g' rfl
      split
      · exact iget_ok
      · exact ih

theorem code_ok (c : Call) : Ok t ((system n).code c) .ready (fun _ g' => g' = .ready) n := by
  cases c with
  | iget dev inum => exact Safe.seq iget_ok fun _ _ hg => Safe.ret hg
  | idup ip => exact idup_ok
  | ilock ip => exact ilock_ok
  | iunlock ip => exact iunlock_ok
  | iput ip => exact iput_ok
  | ialloc dev kind => exact Safe.seq (ialloc_ok _) fun _ _ hg => Safe.ret hg
  | setNlink ip m => exact setNlink_ok m

theorem boot_inv (disk : Nat → Nat → Dinode) : Inv (fun _ => .ready) (boot disk) where
  each := fun _ => ⟨nofun, nofun, nofun, nofun, nofun⟩
  owner := fun _ => nofun
  unique := nofun
  book := ⟨nofun, nofun, nofun, nofun, fun _ => by simp [book, boot, Book.counted]⟩
  agree := nofun

/-! ### What holds along runs -/

variable {disk : Nat → Nat → Dinode} {h : List (Move Slot Call)}
  {p : Pool Op Op.Ans Panic State Slot}

/-- No two entries in use are for one inode; `ref` counts the references; what is valid and
not locked is as on the disk; and only an `iput` that has the only reference to an inode
without links frees it. -/
theorem cache_consistent (hr : Run (Guarded (system n).Step soleRule.Keeps) (.start (boot disk)) h p) :
    (∀ ip jp, 0 < (p.shared.inode ip).ref → 0 < (p.shared.inode jp).ref →
      (p.shared.inode ip).dev = (p.shared.inode jp).dev →
      (p.shared.inode ip).inum = (p.shared.inode jp).inum → ip = jp) ∧
    (∀ ip, (p.shared.inode ip).ref = ∑ t, (p.shared.held t).count ip) ∧
    (∀ ip, 0 < (p.shared.inode ip).ref → (p.shared.inode ip).valid = true →
      (p.shared.inode ip).lock = none → (p.shared.inode ip).copy = p.shared.stored ip) ∧
    ∀ t p', Guarded (system n).Step soleRule.Keeps p (.go t) p' → ∀ dev inum,
      (p.shared.disk dev inum).type ≠ none → (p'.shared.disk dev inum).type = none →
      ∃ ip, (p.shared.inode ip).dev = dev ∧ (p.shared.inode ip).inum = inum ∧
        (p.shared.inode ip).lock = some (t, .iput) ∧ ip ∈ p.shared.held t ∧
        (p.shared.inode ip).ref = 1 ∧ (p.shared.inode ip).copy.nlink = 0 ∧
        (p.shared.disk dev inum).nlink = 0 := by
  obtain ⟨γ, hI, -⟩ := System.run_safe (O := outline) (boot_inv disk) (fun _ _ c _ => code_ok c) hr
  refine ⟨fun _ _ => hI.unique, fun ip => ?_, fun ip hpos hvalid hlock => ?_, ?_⟩
  · have hbal := hI.book.balanced ip
    simpa [book, Book.counted] using hbal
  · refine ((hI.agree hvalid hpos).resolve_right fun hw => ?_).1
    obtain ⟨t, site, ht⟩ := hw
    rw [hI.lock_at ht rfl] at hlock
    cases hlock
  · rintro t p' ⟨hstep, hrule⟩ dev inum hbefore hafter
    rcases (system n).step_cases hstep with ⟨_, _, hmove, _⟩ |
      ⟨t', o, k, a, s', hmove, hprog, hexec, rfl⟩ | ⟨t', w, s', hmove, -, hhalt, rfl⟩
    · cases hmove
    · cases hmove
      have hnext : (p.prog t).next = some o := by
        rw [hprog]
        rfl
      have hassert := System.run_asserts (O := outline) (boot_inv disk) (fun _ _ c _ => code_ok c) hr hnext
        (hrule o hnext)
      exact hassert a s' (run_of_exec hexec) dev inum hbefore hafter
    · have hhalt : State.halt w p.shared = some s' := hhalt
      unfold State.halt at hhalt
      split at hhalt
      · cases hhalt
        exact absurd hafter hbefore
      · cases hhalt

def bareDisk (_ _ : Nat) : Dinode := .blank none

/-- An inode is allocated and dropped again; `iput` is about to free it. -/
theorem cache_consistent_freed : ∃ h p p',
    Run (Guarded (system 200).Step soleRule.Keeps) (.start (boot bareDisk)) h p ∧
    (system 200).Step p (.go 0) p' ∧ (p.shared.disk 1 1).type = some .file ∧
    (p'.shared.disk 1 1).type = none ∧ (p.shared.inode 0).ref = ∑ t, (p.shared.held t).count 0 ∧
    ∃ ip, (p.shared.inode ip).lock = some (0, .iput) ∧ (p.shared.inode ip).ref = 1 := by
  have hrun := (system 200).exists_of_moves soleRule (boot bareDisk)
    (Move.calls 0 (Call.ialloc 1 .file) 2 ++ Move.calls 0 (Call.ilock 0) 3 ++ Move.calls 0 (Call.iunlock 0) 1 ++
      Move.calls 0 (Call.iput 0) 4)
    (P := fun p => ((system 200).step p (.go 0)).any (fun p' => (p'.shared.disk 1 1).type = none) = true ∧
      (p.shared.disk 1 1).type = some .file ∧ soleRule.Keeps p (.go 0)) (by decide +kernel)
  obtain ⟨h, p, hr, hany, hfile, hkeeps⟩ := hrun
  obtain ⟨p', hstep, hfree⟩ := (Option.any_eq_true _ _).mp hany
  have hfree := of_decide_eq_true hfree
  obtain ⟨-, href, -, hsole⟩ := cache_consistent hr
  obtain ⟨ip, -, -, hlock, -, hone, -⟩ := hsole 0 p' ⟨hstep, hkeeps⟩ 1 1 (by rw [hfile]; nofun) hfree
  exact ⟨h, p, p', hr, hstep, hfile, hfree, href 0, ip, hlock, hone⟩

/-- Between the test in `iput` and the freeing, another thread gets a reference. -/
theorem freed_while_referenced : ∃ h p p',
    Run (Guarded (system 200).Step useRule.Keeps) (.start (boot bareDisk)) h p ∧
    Guarded (system 200).Step useRule.Keeps p (.go 0) p' ∧
    (p.shared.inode 0).dev = 1 ∧ (p.shared.inode 0).inum = 1 ∧ (p.shared.inode 0).ref = 2 ∧
    0 ∈ p.shared.held 1 ∧ (p.shared.disk 1 1).type = some .file ∧
    (p'.shared.disk 1 1).type = none := by
  have hrun := (system 200).exists_of_moves useRule (boot bareDisk)
    (Move.calls 0 (Call.ialloc 1 .file) 2 ++ Move.calls 0 (Call.ilock 0) 3 ++ Move.calls 0 (Call.iunlock 0) 1 ++
      Move.calls 0 (Call.iput 0) 3 ++ Move.calls 1 (Call.iget 1 1) 1 ++ [Move.go 0])
    (P := fun p => ((system 200).step p (.go 0)).any (fun p' => (p'.shared.disk 1 1).type = none) = true ∧
      useRule.Keeps p (.go 0) ∧
      (p.shared.inode 0).dev = 1 ∧ (p.shared.inode 0).inum = 1 ∧ (p.shared.inode 0).ref = 2 ∧
      0 ∈ p.shared.held 1 ∧ (p.shared.disk 1 1).type = some .file) (by decide +kernel)
  obtain ⟨h, p, hr, hany, hkeeps, hdev, hinum, href, hheld, hfile⟩ := hrun
  obtain ⟨p', hstep, hfree⟩ := (Option.any_eq_true _ _).mp hany
  exact ⟨h, p, p', hr, ⟨hstep, hkeeps⟩, hdev, hinum, href, hheld, hfile, of_decide_eq_true hfree⟩

end ThreadKernel.Icache
