import ThreadKernel.Memory.Calls

/-! What `exec` builds from a file.

The headers of the file, the loop that loads its segments, the stack and the arguments on
it, with the pages all this takes. Where a step fails, `bad` frees what there is; the two
other ends are a panic, and a stray access: `loaduvm` writes through an entry of the
directory that is not a page of the image, or `uva2ka` follows a null pointer.

How far the build gets depends on the file, the arguments and the length of the free list,
and on the list only through the failures. `plan` is the build with all the memory it can
ask for, computed on sizes. -/
namespace ThreadKernel.Memory

open Bytes

abbrev Content := List Byte

abbrev MAXARG : Nat := 32
abbrev ELF_MAGIC : Word := 0x464C457F
abbrev ELF_PROG_LOAD : Word := 1

/-- `readi` of `n` bytes at `off`; `none` is any number of bytes but `n`. -/
def readi (f : Content) (off n : Nat) : Option (List Byte) :=
  if off + n < 2 ^ 32 ∧ off + n ≤ f.length then some ((f.drop off).take n) else none

/-- How many bytes such a call copies. -/
def copied (f : Content) (off n : Nat) : Nat :=
  if off + n < 2 ^ 32 then min n (f.length - off) else 0

def uint (bs : List Byte) (i : Nat) : Word :=
  toWord (bs.getD i 0) (bs.getD (i + 1) 0) (bs.getD (i + 2) 0) (bs.getD (i + 3) 0)

def ushort (bs : List Byte) (i : Nat) : Nat :=
  (bs.getD i 0).toNat + 256 * (bs.getD (i + 1) 0).toNat

/-- `struct elfhdr`, as far as `exec` reads it. -/
structure Elfhdr where
  entry : Word
  phoff : Word
  phnum : Nat

/-- `struct proghdr`, as far as `exec` reads it. -/
structure Proghdr where
  type : Word
  off : Word
  vaddr : Word
  filesz : Word
  memsz : Word

/-- The header, if it can be read and has the magic number. -/
def elfhdr (f : Content) : Option Elfhdr :=
  match readi f 0 52 with
  | none => none
  | some bs => if uint bs 0 = ELF_MAGIC then some ⟨uint bs 24, uint bs 28, ushort bs 44⟩ else none

def proghdr (f : Content) (off : Nat) : Option Proghdr :=
  (readi f off 32).map fun bs => ⟨uint bs 0, uint bs 4, uint bs 8, uint bs 16, uint bs 20⟩

/-- What the loop of `exec` reads, a header a round. -/
def proghdrs (f : Content) (elf : Elfhdr) : List (Option Proghdr) :=
  (List.range elf.phnum).map fun i => proghdr f ((elf.phoff.toNat + 32 * i) % 2 ^ 32)

/-! ### The directory with its kernel half -/

/-- The page tables of `kmap`; every entry of them is present. -/
def kernTable (i : Nat) : Bool :=
  (UTABLES ≤ i ∧ i < UTABLES + PHYSTOP / TABLESIZE) ∨ (DEVSPACE / TABLESIZE ≤ i ∧ i < 1024)

def withKernel (user : Pgdir) : Pgdir where
  table i := if i < UTABLES then user.table i else kernTable i
  entry v := if v < UPAGES then user.entry v else some ⟨0, false⟩

/-! ### Loading -/

/-- Bytes of the file go to page `page` of the image, which is in `frame`. -/
structure Write where
  page : Nat
  frame : Page

inductive Loaded where
  | ok (ws : List Write)
  /-- `readi` got less than it asked for. -/
  | short
  /-- A write to a page that is not one of the image. -/
  | stray
  /-- `loaduvm: address should exist` -/
  | panicked

/-- The loop of `loaduvm`: `n` pages from page `v` on, `sz` bytes at `off` of the file. A page
of the kernel has no `PTE_U`; an entry that is not present stands for physical page 0. There
is something to read in every round, so no byte is less than was asked for. -/
def loaduvm (d : Pgdir) (f : Content) : Nat → Nat → Nat → Nat → Loaded
  | 0, _, _, _ => .ok []
  | n + 1, v, off, sz =>
    match d.walk (v % 2 ^ 20) with
    | none => .panicked
    | some pte =>
      let k := copied f (off % 2 ^ 32) (min sz PGSIZE)
      if k = 0 then .short
      else
        match pte with
        | some ⟨pa, true⟩ =>
          if k = min sz PGSIZE then
            match loaduvm d f n (v + 1) (off + PGSIZE) (sz - PGSIZE) with
            | .ok ws => .ok (⟨v % 2 ^ 20, pa⟩ :: ws)
            | r => r
          else .short
        | _ => .stray

inductive Built (α : Type) where
  | next (x : α) (d : PhysDir) (free : List Page)
  | bad (d : PhysDir) (free : List Page)
  | stray
  | panicked

/-- `loaduvm` of a segment, in the directory `d`. -/
def loadSegment (d : Pgdir) (f : Content) (ph : Proghdr) : Loaded :=
  loaduvm (withKernel d) f (pages ph.filesz.toNat) (ph.vaddr.toNat / PGSIZE) ph.off.toNat ph.filesz.toNat

/-- The loop of `exec` over the program headers, with the size it comes to and what it has
written. -/
def loadLoop (f : Content) : List (Option Proghdr) → Nat → List Write → PhysDir → List Page →
    Built (Nat × List Write)
  | [], sz, ws, d, free => .next (sz, ws) d free
  | none :: _, _, _, d, free => .bad d free
  | some ph :: rest, sz, ws, d, free =>
    if ph.type ≠ ELF_PROG_LOAD then loadLoop f rest sz ws d free
    else if ph.memsz < ph.filesz then .bad d free
    else
      match d.allocuvm sz (ph.vaddr + ph.memsz).toNat free with
      | none => .panicked
      | some (d', r, free') =>
        if r = 0 then .bad d' free'
        else if ph.vaddr.toNat % PGSIZE ≠ 0 then .bad d' free'
        else
          match loadSegment d'.dir f ph with
          | .ok ws' => loadLoop f rest r (ws ++ ws') d' free'
          | .short => .bad d' free'
          | .stray => .stray
          | .panicked => .panicked

/-- Two pages at the next page boundary, the first without `PTE_U`. -/
def makeStack (sz : Nat) (d : PhysDir) (free : List Page) : Built Nat :=
  match d.allocuvm (pages sz * PGSIZE) (pages sz * PGSIZE + 2 * PGSIZE) free with
  | none => .panicked
  | some (d', r, free') =>
    if r = 0 then .bad d' free'
    else
      match clearpteu d'.dir ((r - 2 * PGSIZE) / PGSIZE) with
      | none => .panicked
      | some dir => .next r {d' with dir := dir} free'

/-! ### The arguments -/

/-- What `copyout` returns. -/
def push (d : Pgdir) (va : Nat) (buf : List Byte) : Copied Unit :=
  match copyout d va buf (fun _ => 0) with
  | .ok _ => .ok ()
  | .failed _ => .failed ()
  | .wild => .wild

inductive Pushed where
  | ok (sp : Nat)
  | bad
  | wild

/-- `a - b` for two `uint`s. -/
def usub (a b : Nat) : Nat := (a + 2 ^ 32 - b % 2 ^ 32) % 2 ^ 32

/-- `ustack`: a return address, `argc`, `argv`, and the pointers with a null at their end. -/
def ustack (sp : Nat) (ptrs : List Nat) : List Byte :=
  ([0xffffffff, ptrs.length, usub sp ((ptrs.length + 1) * 4)] ++ ptrs ++ [0]).flatMap fun w =>
    ofWord (BitVec.ofNat 32 w)

/-- The loop over the argument strings, given without the null byte at their end, and the
copy of `ustack` after it. `ptrs` are the strings already pushed. -/
def pushArgs (d : Pgdir) : List (List Byte) → Nat → List Nat → Pushed
  | [], sp, ptrs =>
    let sp' := usub sp ((3 + ptrs.length + 1) * 4)
    match push d sp' (ustack sp ptrs) with
    | .ok _ => .ok sp'
    | .failed _ => .bad
    | .wild => .wild
  | s :: argv, sp, ptrs =>
    if MAXARG ≤ ptrs.length then .bad
    else
      let sp' := usub sp (s.length + 1) / 4 * 4
      match push d sp' (s ++ [0]) with
      | .ok _ => pushArgs d argv sp' (ptrs ++ [sp'])
      | .failed _ => .bad
      | .wild => .wild

/-- The size and the stack pointer of the image, once `setupkvm` has returned `d`. -/
def build (f : Content) (elf : Elfhdr) (argv : List (List Byte)) (d : PhysDir) (free : List Page) :
    Built (Nat × Nat) :=
  match loadLoop f (proghdrs f elf) 0 [] d free with
  | .stray => .stray
  | .panicked => .panicked
  | .bad d free => .bad d free
  | .next (sz, _) d free =>
    match makeStack sz d free with
    | .stray => .stray
    | .panicked => .panicked
    | .bad d free => .bad d free
    | .next sz d free =>
      match pushArgs (withKernel d.dir) argv sz [] with
      | .ok sp => .next (sz, sp) d free
      | .bad => .bad d free
      | .wild => .stray

/-! ### The build with all the memory it asks for -/

inductive Verdict (α : Type) where
  | next (x : α)
  | bad
  | stray
  | panicked
  deriving DecidableEq

def Loaded.verdict : Loaded → Verdict Unit
  | .ok _ => .next ()
  | .short => .bad
  | .stray => .stray
  | .panicked => .panicked

/-- A directory of `m` pages, `u` saying which of them a user may access. -/
def flat (m : Nat) (u : Nat → Bool) : Pgdir where
  table i := i * 1024 < m
  entry v := if v < m then some ⟨0, u v⟩ else none

def planLoad (f : Content) : List (Option Proghdr) → Nat → Verdict Nat
  | [], sz => .next sz
  | none :: _, _ => .bad
  | some ph :: rest, sz =>
    if ph.type ≠ ELF_PROG_LOAD then planLoad f rest sz
    else if ph.memsz < ph.filesz then .bad
    else
      let newsz := (ph.vaddr + ph.memsz).toNat
      if KERNBASE ≤ newsz ∨ max sz newsz = 0 ∨ ph.vaddr.toNat % PGSIZE ≠ 0 then .bad
      else
        match (loadSegment (flat (pages (max sz newsz)) fun _ => true) f ph).verdict with
        | .next _ => planLoad f rest (max sz newsz)
        | .bad => .bad
        | .stray => .stray
        | .panicked => .panicked

/-- What becomes of the file and the arguments when memory does not run out. -/
def plan (f : Content) (argv : List (List Byte)) : Verdict (Nat × Nat) :=
  match elfhdr f with
  | none => .bad
  | some elf =>
    match planLoad f (proghdrs f elf) 0 with
    | .stray => .stray
    | .panicked => .panicked
    | .bad => .bad
    | .next sz =>
      let r := pages sz * PGSIZE + 2 * PGSIZE
      if KERNBASE ≤ r then .bad
      else
        match pushArgs (withKernel (flat (pages sz + 2) fun v => v ≠ pages sz)) argv r [] with
        | .ok sp => .next (r, sp)
        | .bad => .bad
        | .wild => .stray

end ThreadKernel.Memory
