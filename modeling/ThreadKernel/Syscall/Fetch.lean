import ThreadKernel.Syscall.Thread
import ThreadKernel.Memory.Image

/-! What the arguments of a system call may reach.

The words, blocks and strings that `syscall.c` lets through, and the vector that
`sys_exec` fetches, lie below the size of the process. The tests are made on sums that
wrap; with a size below `KERNBASE` none wraps where its test passes. -/
namespace ThreadKernel.Machine

open Bytes
open Memory (MAXARG)

section
variable (m : Machine) (cur : Slot) (own : Page)

/-- The loop of `fetchstr`, with `left` bytes up to the size: where the null is. -/
def findNull : Nat → Nat → Except Fail Nat
  | 0, _ => .error .refused
  | left + 1, s =>
    match load (phys (m.dir own)) m.ram s with
    | none => .error .fault
    | some b => if b = 0 then .ok s else findNull left (s + 1)

/-- The pointer, and the length of the string. -/
def fetchstr (addr : Word) : Except Fail (Word × Nat) :=
  if m.size own ≤ addr.toNat then .error .refused
  else do
    let s ← m.findNull own (m.size own - addr.toNat) addr.toNat
    return (addr, s - addr.toNat)

def argstr (n : Word) : Except Fail (Word × Nat) := do
  let addr ← m.argint cur own n
  m.fetchstr own addr

/-- The loop of `sys_exec`, with `left` entries of `argv` to go: the words it looks for,
and the vector. -/
def fetchArgv (uargv : Word) : Nat → Nat → List Word → List Word × Except Fail (List Word)
  | 0, _, _ => ([], .error .refused)
  | left + 1, i, argv =>
    let addr := uargv + 4 * .ofNat 32 i
    match m.fetchint own addr with
    | .error e => ([addr], .error e)
    | .ok uarg =>
      if uarg = 0 then ([addr], .ok (argv.set i 0))
      else
        match m.fetchstr own uarg with
        | .error e => ([addr], .error e)
        | .ok (s, _) =>
          let x := fetchArgv uargv left (i + 1) (argv.set i s)
          (addr :: x.1, x.2)

/-- The path, the address of the vector and its copy, as `sys_exec` hands them on. -/
def sysExecArgs : Except Fail (Word × Word × List Word) := do
  let (path, _) ← m.argstr cur own 0
  let uargv ← m.argint cur own 1
  let argv ← (m.fetchArgv own uargv MAXARG 0 (List.replicate MAXARG 0)).2
  return (path, uargv, argv)

/-! ### Below the size -/

/-- The `len` bytes at `a`. -/
def Inside (a : Word) (len : Nat) : Prop := a.toNat + len ≤ m.size own

/-- The argument word of the call. -/
def ArgInside (n : Word) : Prop := m.Inside own ((m.tf cur).esp + 4 + 4 * n) 4

/-- A string with the null after its `len` bytes. -/
def StrInside (a : Word) (len : Nat) : Prop :=
  m.Inside own a (len + 1) ∧ load (phys (m.dir own)) m.ram (a.toNat + len) = some 0 ∧
    ∀ i < len, load (phys (m.dir own)) m.ram (a.toNat + i) ≠ some 0

/-- The words from the `i`th on, up to a null, and the strings they point at. -/
def ArgvInside (uargv : Word) (argv : List Word) (i : Nat) : Prop :=
  ∃ argc, i ≤ argc ∧ argc < MAXARG ∧ argv[argc]? = some 0 ∧
    (∀ j, i ≤ j → j ≤ argc → m.Inside own (uargv + 4 * .ofNat 32 j) 4) ∧
    ∀ j, i ≤ j → j < argc → ∃ s len, argv[j]? = some s ∧ m.StrInside own s len

end

variable {m : Machine} {cur : Slot} {own : Page}

theorem ok_of_bind {α β : Type} {x : Except Fail α} {f : α → Except Fail β} {b : β}
    (h : x >>= f = .ok b) : ∃ a, x = .ok a ∧ f a = .ok b := by
  cases x with
  | error e => cases h
  | ok a => exact ⟨a, rfl, h⟩

theorem fetchArgv_reads (uargv : Word) (left i : Nat) (argv : List Word) :
    (m.fetchArgv own uargv left i argv).1.length ≤ left := by
  induction left generalizing i argv with
  | zero => exact Nat.le_refl 0
  | succ left ih =>
    have hone : [uargv + 4 * BitVec.ofNat 32 i].length ≤ left + 1 := Nat.succ_le_succ (Nat.zero_le _)
    rw [fetchArgv]
    cases m.fetchint own (uargv + 4 * BitVec.ofNat 32 i) with
    | error e => exact hone
    | ok uarg =>
      dsimp only
      split
      · exact hone
      · cases m.fetchstr own uarg with
        | error e => exact hone
        | ok x => exact Nat.succ_le_succ (ih _ _)

theorem findNull_ok {left s e : Nat} (h : m.findNull own left s = .ok e) :
    s ≤ e ∧ e < s + left ∧ load (phys (m.dir own)) m.ram e = some 0 ∧
      ∀ i, s ≤ i → i < e → load (phys (m.dir own)) m.ram i ≠ some 0 := by
  induction left generalizing s with
  | zero => cases h
  | succ left ih =>
    rw [findNull] at h
    split at h
    · cases h
    · rename_i b hb
      split at h
      · rename_i hnull
        cases h
        exact ⟨Nat.le_refl _, by omega, hnull ▸ hb, fun i hi hlt => absurd hlt (by omega)⟩
      · rename_i hnull
        obtain ⟨hle, hlt, hend, hbefore⟩ := ih h
        refine ⟨by omega, by omega, hend, fun i hi hie => ?_⟩
        rcases Nat.eq_or_lt_of_le hi with rfl | hi
        · rw [hb]
          exact fun heq => hnull (Option.some.inj heq)
        · exact hbefore i hi hie

theorem fetchstr_inside {addr s : Word} {len : Nat} (h : m.fetchstr own addr = .ok (s, len)) :
    s = addr ∧ m.StrInside own s len := by
  unfold fetchstr at h
  split at h
  · cases h
  · rename_i hlt
    obtain ⟨e, hfind, heq⟩ := ok_of_bind h
    cases heq
    obtain ⟨hle, hend, hnull, hbefore⟩ := findNull_ok hfind
    have hat : addr.toNat + (e - addr.toNat) = e := by omega
    refine ⟨rfl, ?_, by rw [hat]; exact hnull, fun i hi => hbefore _ (by omega) (by omega)⟩
    unfold Inside
    omega

section
variable (hsz : m.size own < KERNBASE)
include hsz

theorem fetchint_inside {addr w : Word} (h : m.fetchint own addr = .ok w) : m.Inside own addr 4 := by
  unfold fetchint at h
  split at h
  · cases h
  · rename_i htest
    have hadd : (addr + 4).toNat = (addr.toNat + 4) % 2 ^ 32 := BitVec.toNat_add _ _
    have hkern : KERNBASE = 2 ^ 31 := rfl
    unfold Inside
    omega

theorem fetchArgv_inside {uargv : Word} {left i : Nat} {argv argv' : List Word}
    (hleft : i + left = MAXARG) (hlen : argv.length = MAXARG)
    (h : (m.fetchArgv own uargv left i argv).2 = .ok argv') :
    (∀ j < i, argv'[j]? = argv[j]?) ∧ m.ArgvInside own uargv argv' i := by
  induction left generalizing i argv with
  | zero => cases h
  | succ left ih =>
    rw [fetchArgv] at h
    cases hword : m.fetchint own (uargv + 4 * BitVec.ofNat 32 i) with
    | error e =>
      rw [hword] at h
      cases h
    | ok uarg =>
      have hin := fetchint_inside hsz hword
      rw [hword] at h
      dsimp only at h
      split at h
      · cases h
        refine ⟨fun j hj => List.getElem?_set_ne (by omega), i, Nat.le_refl _, by omega, ?_, ?_, ?_⟩
        · exact List.getElem?_set_self (by omega)
        · intro j hj hji
          rwa [Nat.le_antisymm hji hj]
        · intro j hj hlt
          omega
      · cases hstr : m.fetchstr own uarg with
        | error e =>
          rw [hstr] at h
          cases h
        | ok x =>
          rw [hstr] at h
          obtain ⟨hkeep, argc, hle, hlt, hnull, hwords, hstrs⟩ :=
            ih (by omega) (by rw [List.length_set, hlen]) h
          refine ⟨fun j hj => ?_, argc, by omega, hlt, hnull, fun j hj hja => ?_, fun j hj hja => ?_⟩
          · rw [hkeep j (by omega), List.getElem?_set_ne (by omega)]
          · rcases Nat.eq_or_lt_of_le hj with rfl | hj
            · exact hin
            · exact hwords j hj hja
          · rcases Nat.eq_or_lt_of_le hj with rfl | hj
            · refine ⟨x.1, x.2, ?_, (fetchstr_inside hstr).2⟩
              rw [hkeep i (by omega), List.getElem?_set_self (by omega)]
            · exact hstrs j hj hja

/-- Whatever the user's stack pointer and words, what a call takes for an argument lies
below the size of the process. -/
theorem args_inside :
    (∀ n w, m.argint cur own n = .ok w → m.ArgInside cur own n) ∧
    (∀ n size p, m.argptr cur own n size = .ok p →
      m.ArgInside cur own n ∧ 0 ≤ size.toInt ∧ m.Inside own p size.toNat) ∧
    (∀ n s len, m.argstr cur own n = .ok (s, len) → m.ArgInside cur own n ∧ m.StrInside own s len) ∧
    (∀ path uargv argv, m.sysExecArgs cur own = .ok (path, uargv, argv) →
      m.ArgInside cur own 0 ∧ m.ArgInside cur own 1 ∧ (∃ len, m.StrInside own path len) ∧
        m.ArgvInside own uargv argv 0) ∧
    ∀ uargv, (m.fetchArgv own uargv MAXARG 0 (List.replicate MAXARG 0)).1.length ≤ MAXARG := by
  have hint : ∀ n w, m.argint cur own n = .ok w → m.ArgInside cur own n :=
    fun n w h => fetchint_inside hsz h
  have hstr : ∀ n s len, m.argstr cur own n = .ok (s, len) →
      m.ArgInside cur own n ∧ m.StrInside own s len := fun n s len h => by
    obtain ⟨addr, harg, h⟩ := ok_of_bind h
    exact ⟨hint n addr harg, (fetchstr_inside h).2⟩
  refine ⟨hint, fun n size p h => ?_, hstr, fun path uargv argv h => ?_, fun uargv => ?_⟩
  · obtain ⟨i, harg, h⟩ := ok_of_bind h
    split at h
    · cases h
    · rename_i htest
      cases h
      have hadd : (p + size).toNat = (p.toNat + size.toNat) % 2 ^ 32 := BitVec.toNat_add _ _
      have hkern : KERNBASE = 2 ^ 31 := rfl
      have hsize := BitVec.toInt_eq_toNat_cond size
      refine ⟨hint n p harg, by omega, ?_⟩
      unfold Inside
      split at hsize <;> omega
  · obtain ⟨x, hpath, h⟩ := ok_of_bind h
    obtain ⟨u, hu, h⟩ := ok_of_bind h
    obtain ⟨v, hargv, heq⟩ := ok_of_bind h
    cases heq
    obtain ⟨harg, hin⟩ := hstr 0 _ _ hpath
    exact ⟨harg, hint 1 _ hu, ⟨_, hin⟩, (fetchArgv_inside hsz rfl List.length_replicate hargv).2⟩
  · exact fetchArgv_reads _ _ _ _

end

/-- `exec` of the string at 276, with itself for the only argument. -/
theorem args_inside_exec : ∃ m : Machine, m.size 5 < KERNBASE ∧
    m.sysExecArgs 1 5 = .ok (276, 268, 276 :: List.replicate 31 0) ∧
      (∃ len, m.StrInside 5 276 len) ∧ m.ArgvInside 5 268 (276 :: List.replicate 31 0) 0 := by
  have hsz : (onePage Kernel.boot [276, 268, 276, 0, 0x736C]).size 5 < KERNBASE := by decide
  have hcall : (onePage Kernel.boot [276, 268, 276, 0, 0x736C]).sysExecArgs 1 5 =
      .ok (276, 268, 276 :: List.replicate 31 0) := by decide +kernel
  obtain ⟨-, -, hpath, hargv⟩ := (args_inside hsz).2.2.2.1 _ _ _ hcall
  exact ⟨_, hsz, hcall, hpath, hargv⟩

end ThreadKernel.Machine
