import Mathlib

/-! Redo logs.

A store has locations of two kinds, those of the log and the others, called homes. A log
names the homes that are out of date and keeps the content of the `i`-th in slot `i`. The
store then stands for the contents that carrying out the log would give (`Redoable`), and
goes on standing for them while the log is carried out, however often that is begun again. -/
namespace Redo

open Function

variable {β α : Type} {b : β}

section
variable [DecidableEq β]

/-- The store after the writes `ws`, the first of the list first. -/
def replay (m : β → α) (ws : List (β × α)) : β → α :=
  ws.foldl (fun m w => update m w.1 w.2) m

theorem replay_append (m : β → α) (ws ws' : List (β × α)) :
    replay m (ws ++ ws') = replay (replay m ws) ws' :=
  List.foldl_append ..

@[simp] theorem replay_snoc (m : β → α) (ws : List (β × α)) (b : β) (x : α) :
    replay m (ws ++ [(b, x)]) = update (replay m ws) b x :=
  replay_append m ws [(b, x)]

theorem replay_of_notMem {m : β → α} {ws : List (β × α)} (h : b ∉ ws.map Prod.fst) :
    replay m ws b = m b := by
  induction ws generalizing m with
  | nil => rfl
  | cons w ws ih =>
    rw [List.map_cons, List.mem_cons, not_or] at h
    exact (ih h.2).trans (update_of_ne h.1 ..)

end

/-- The store `m` with the log of `homes` stands for `target`. -/
structure Redoable (log : β → Prop) (slot : Nat → β) (m : β → α) (homes : List β) (target : β → α) :
    Prop where
  home : ∀ b ∈ homes, ¬ log b
  slots : ∀ i < homes.length, log (slot i)
  copy : ∀ i b, homes[i]? = some b → m (slot i) = target b
  rest : ∀ b, ¬ log b → b ∉ homes → m b = target b

section
variable {log : β → Prop} {slot : Nat → β} {m : β → α} {homes : List β} {target old : β → α}
  {k : Nat}

/-- With an empty log the store stands for itself. -/
theorem redoable_nil_iff : Redoable log slot m [] target ↔ ∀ b, ¬ log b → m b = target b := by
  constructor
  · intro h b hb
    exact h.rest b hb List.not_mem_nil
  · intro h
    exact ⟨nofun, nofun, nofun, fun b hb _ => h b hb⟩

/-- Putting a log in force. The homes it names need not hold anything in particular. -/
theorem Redoable.publish (h : Redoable log slot m [] old) (hhome : ∀ b ∈ homes, ¬ log b)
    (hslots : ∀ i < homes.length, log (slot i))
    (hcopy : ∀ i b, homes[i]? = some b → m (slot i) = target b)
    (hrest : ∀ b, ¬ log b → b ∉ homes → target b = old b) :
    Redoable log slot m homes target :=
  ⟨hhome, hslots, hcopy, fun b hb hnot => by rw [hrest b hb hnot, redoable_nil_iff.mp h b hb]⟩

/-- The first `k` homes of the log are up to date. -/
def Installed (m : β → α) (homes : List β) (k : Nat) (target : β → α) : Prop :=
  ∀ i < k, ∀ b, homes[i]? = some b → m b = target b

theorem installed_zero : Installed m homes 0 target := nofun

theorem Redoable.clear (h : Redoable log slot m homes target)
    (hi : Installed m homes k target) (hk : homes[k]? = none) : Redoable log slot m [] target := by
  rw [redoable_nil_iff]
  intro b hb
  by_cases hmem : b ∈ homes
  · obtain ⟨i, hlt, hget⟩ := List.getElem_of_mem hmem
    have hlen := List.getElem?_eq_none_iff.mp hk
    exact hi i (by omega) b (List.getElem?_eq_some_iff.mpr ⟨hlt, hget⟩)
  · exact h.rest b hb hmem

variable [DecidableEq β]

/-- Writing to the log while it is not in force. -/
theorem Redoable.write_slot {c : β} {x : α} (h : Redoable log slot m [] target) (hc : log c) :
    Redoable log slot (update m c x) [] target := by
  rw [redoable_nil_iff] at h ⊢
  intro b hb
  rw [update_of_ne, h b hb]
  rintro rfl
  exact hb hc

theorem Redoable.install (h : Redoable log slot m homes target)
    (hk : homes[k]? = some b) : Redoable log slot (update m b (m (slot k))) homes target := by
  have hb := h.home b (List.mem_of_getElem? hk)
  refine ⟨h.home, h.slots, fun i c hi => ?_, fun c hc hnot => ?_⟩
  · have hlog : log (slot i) := h.slots i (List.getElem?_eq_some_iff.mp hi).1
    rw [update_of_ne, h.copy i c hi]
    intro heq
    rw [heq] at hlog
    exact hb hlog
  · rw [update_of_ne, h.rest c hc hnot]
    rintro rfl
    exact hnot (List.mem_of_getElem? hk)

theorem Installed.install (h : Redoable log slot m homes target)
    (hi : Installed m homes k target) (hk : homes[k]? = some b) :
    Installed (update m b (m (slot k))) homes (k + 1) target := by
  intro i hlt c hc
  by_cases heq : c = b
  · rw [heq, update_self, h.copy k b hk]
  · rw [update_of_ne heq]
    have hne : i ≠ k := by
      rintro rfl
      rw [hk] at hc
      exact heq (Option.some.inj hc).symm
    exact hi i (by omega) c hc

end

end Redo
