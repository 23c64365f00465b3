import ThreadKernel.Proc.Step
import ThreadKernel.Vm.Space

/-! The kernel with the memory of its processes, and the arguments of a system call.

`syscall.c` fetches the words that the user pushed, through the directory of the caller
and up to its size. `argptr` takes the word for a pointer: it lets through the addresses
of blocks that end below the size, and nothing else. -/
namespace ThreadKernel

open Bytes

/-- `struct trapframe`, as far as the calls below use it. -/
structure Trapframe where
  eip : Word
  esp : Word
  eax : Word
  deriving DecidableEq, Repr

/-- `size` and `dir` are `sharePtr->sz` and what `sharePtr->pgdir` points at, by the page
of the `sharePtr`. -/
structure Machine where
  kernel : Kernel
  size : Page → Nat
  dir : Page → Pgdir
  ram : Ram
  tf : Slot → Trapframe

/-- How fetching an argument ends when it does not succeed. -/
inductive Fail where
  /-- The call returns -1. -/
  | refused
  /-- The kernel takes a page fault. -/
  | fault
  deriving DecidableEq, Repr

namespace Machine

/-- The proc whose user code runs on CPU `c`, and its process. -/
def caller (m : Machine) (c : Nat) : Option (Slot × Page) :=
  match m.kernel.running c with
  | some (cur, .user) => (m.kernel.proc cur).sharePtr.map fun own => (cur, own)
  | _ => none

def setEax (m : Machine) (p : Slot) (x : Word) : Machine :=
  {m with tf := Function.update m.tf p {m.tf p with eax := x}}

variable (m : Machine) (cur : Slot) (own : Page)

def fetchint (addr : Word) : Except Fail Word :=
  if m.size own ≤ addr.toNat ∨ m.size own < (addr + 4).toNat then .error .refused
  else
    match loadWord (phys (m.dir own)) m.ram addr.toNat with
    | some w => .ok w
    | none => .error .fault

def argint (n : Word) : Except Fail Word :=
  m.fetchint own ((m.tf cur).esp + 4 + 4 * n)

def argptr (n size : Word) : Except Fail Word := do
  let i ← m.argint cur own n
  if size.toInt < 0 ∨ m.size own ≤ i.toNat ∨ m.size own < (i + size).toNat then .error .refused
  else .ok i

variable {m cur own}

/-- A word passes for the pointer to a word exactly when that word is within the size. -/
theorem argptr_word {n i : Word} (hsz : m.size own < KERNBASE) (hi : m.argint cur own n = .ok i) :
    m.argptr cur own n 4 = if i.toNat + 4 ≤ m.size own then .ok i else .error .refused := by
  have hadd : (i + 4).toNat = (i.toNat + 4) % 2 ^ 32 := by rw [BitVec.toNat_add]; rfl
  have hkern : KERNBASE = 2 ^ 31 := rfl
  have hbad : ((4 : Word).toInt < 0 ∨ m.size own ≤ i.toNat ∨ m.size own < (i + 4).toNat) ↔
      ¬ i.toNat + 4 ≤ m.size own := by
    rw [hadd, show (4 : Word).toInt = 4 by decide]
    omega
  rw [argptr, hi]
  by_cases h : i.toNat + 4 ≤ m.size own
  · rw [if_pos h]
    exact if_neg (by rw [hbad]; exact fun hnot => hnot h)
  · rw [if_neg h]
    exact if_pos (hbad.mpr h)

end Machine

end ThreadKernel
