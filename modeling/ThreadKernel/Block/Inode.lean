import ThreadKernel.Library.Field

/-! The file system on the disk, byte by byte: `fs.h`, and what `fs.c` does to blocks and to
what inodes have in them.

A disk is its blocks, and a block its bytes. The buffer cache and the log stand between `fs.c`
and the disk; here `bread` is the block as it was last written. An inode is the copy in memory
of the caller, who has it locked; `iupdate` puts it on the disk. One call runs at a time.
The log has room for what a call writes: `log_write` panics (`too big a transaction`) when it
has not, and `filewrite` cuts a write into pieces that are small enough. -/
namespace ThreadKernel.Block

open Bytes Field Function

/-! ### fs.h -/

abbrev BSIZE : Nat := 512
abbrev NDIRECT : Nat := 12
abbrev NINDIRECT : Nat := BSIZE / 4
abbrev MAXFILE : Nat := NDIRECT + NINDIRECT
/-- `sizeof(struct dinode)` is 64. -/
abbrev IPB : Nat := BSIZE / 64
abbrev BPB : Nat := BSIZE * 8

abbrev Data := Nat → Byte

abbrev Disk := Nat → Data

/-- What the kernel reads of the superblock. -/
structure Superblock where
  size : Nat
  ninodes : Nat
  inodestart : Nat
  bmapstart : Nat
  deriving DecidableEq, Repr

def IBLOCK (i : Nat) (sb : Superblock) : Nat := i / IPB + sb.inodestart

def BBLOCK (b : Nat) (sb : Superblock) : Nat := b / BPB + sb.bmapstart

/-- `struct dinode` -/
structure Dinode where
  type : BitVec 16
  major : BitVec 16
  minor : BitVec 16
  nlink : BitVec 16
  size : BitVec 32
  addrs : Fin (NDIRECT + 1) → BitVec 32

/-- `(struct dinode*)bp->data + k` -/
def getDinode (blk : Data) (k : Nat) : Dinode where
  type := BitVec.ofNat 16 (num blk (64 * k) 2)
  major := BitVec.ofNat 16 (num blk (64 * k + 2) 2)
  minor := BitVec.ofNat 16 (num blk (64 * k + 4) 2)
  nlink := BitVec.ofNat 16 (num blk (64 * k + 6) 2)
  size := BitVec.ofNat 32 (num blk (64 * k + 8) 4)
  addrs i := BitVec.ofNat 32 (num blk (64 * k + 12 + 4 * i.val) 4)

/-- The array of block numbers as bytes. -/
def Dinode.addrBytes (x : Dinode) : List Byte :=
  (List.finRange (NDIRECT + 1)).flatMap fun i => toBytes 4 (x.addrs i).toNat

def putDinode (blk : Data) (k : Nat) (x : Dinode) : Data :=
  let blk := setNum blk (64 * k) 2 x.type.toNat
  let blk := setNum blk (64 * k + 2) 2 x.major.toNat
  let blk := setNum blk (64 * k + 4) 2 x.minor.toNat
  let blk := setNum blk (64 * k + 6) 2 x.nlink.toNat
  let blk := setNum blk (64 * k + 8) 4 x.size.toNat
  splice blk (64 * k + 12) x.addrBytes

/-- Entry `k` of a block of block numbers. -/
def getAddr (blk : Data) (k : Nat) : BitVec 32 := BitVec.ofNat 32 (num blk (4 * k) 4)

def putAddr (blk : Data) (k : Nat) (w : BitVec 32) : Data := setNum blk (4 * k) 4 w.toNat

/-- `struct inode`, of the inode that the caller has locked. -/
structure Inode extends Dinode where
  inum : Nat

inductive Panic where
  /-- `balloc: out of blocks` -/
  | balloc
  /-- `bmap: out of range` -/
  | bmap
  deriving DecidableEq, Repr

/-! ### fs.c -/

def bzero (d : Disk) (b : Nat) : Disk := update d b fun _ => 0

/-- `(bp->data[bi/8] & m) == 0`, in the block of the bitmap that has the bit of `b`. -/
def isFree (sb : Superblock) (d : Disk) (b : Nat) : Bool :=
  d (BBLOCK b sb) (b % BPB / 8) &&& 1#8 <<< (b % BPB % 8) = 0

def mark (sb : Superblock) (d : Disk) (b : Nat) (v : Bool) : Disk :=
  update d (BBLOCK b sb) (setBit (d (BBLOCK b sb)) (b % BPB) v)

/-- `balloc`: its two loops come to the blocks in order. -/
def balloc (sb : Superblock) (d : Disk) : Except Panic (Nat × Disk) :=
  match (List.range sb.size).find? (isFree sb d) with
  | none => .error .balloc
  | some b => .ok (b, bzero (mark sb d b true) b)

/-- `dip` of `iupdate` and `ilock`. -/
def readInode (sb : Superblock) (d : Disk) (inum : Nat) : Dinode :=
  getDinode (d (IBLOCK inum sb)) (inum % IPB)

def iupdate (sb : Superblock) (d : Disk) (ip : Inode) : Disk :=
  update d (IBLOCK ip.inum sb) (putDinode (d (IBLOCK ip.inum sb)) (ip.inum % IPB) ip.toDinode)

/-- An entry of the inode in memory. -/
def Inode.setAddr (ip : Inode) (i : Fin (NDIRECT + 1)) (w : BitVec 32) : Inode :=
  {ip with addrs := update ip.addrs i w}

def Inode.setSize (ip : Inode) (w : BitVec 32) : Inode := {ip with size := w}

def bmap (sb : Superblock) (d : Disk) (ip : Inode) (bn : Nat) : Except Panic (Nat × Inode × Disk) :=
  if h : bn < NDIRECT then
    let i : Fin (NDIRECT + 1) := ⟨bn, by omega⟩
    if ip.addrs i = 0 then do
      let (addr, d) ← balloc sb d
      return (addr, ip.setAddr i (BitVec.ofNat 32 addr), d)
    else .ok ((ip.addrs i).toNat, ip, d)
  else if bn - NDIRECT < NINDIRECT then do
    let (ip, d) ←
      if ip.addrs (Fin.last NDIRECT) = 0 then do
        let (addr, d) ← balloc sb d
        pure (ip.setAddr (Fin.last NDIRECT) (BitVec.ofNat 32 addr), d)
      else pure (ip, d)
    let ind := (ip.addrs (Fin.last NDIRECT)).toNat
    let addr := getAddr (d ind) (bn - NDIRECT)
    if addr = 0 then do
      let (addr, d) ← balloc sb d
      -- the buffer of the indirect block has been held since before `balloc`
      return (addr, ip, update d ind (putAddr (d ind) (bn - NDIRECT) (BitVec.ofNat 32 addr)))
    else return (addr.toNat, ip, d)
  else .error .bmap

/-- The loop of `readi`, with `n` bytes to go. -/
def readLoop (sb : Superblock) : Nat → Disk → Inode → Nat → Nat → Except Panic (List Byte × Inode × Disk)
  | 0, d, ip, _, _ => .ok ([], ip, d)
  | fuel + 1, d, ip, off, n =>
    if n = 0 then .ok ([], ip, d)
    else do
      let (b, ip, d) ← bmap sb d ip (off / BSIZE)
      let m := min n (BSIZE - off % BSIZE)
      let dst := slice (d b) (off % BSIZE) m
      let (rest, ip, d) ← readLoop sb fuel d ip (off + m) (n - m)
      return (dst ++ rest, ip, d)

/-- `readi` of what is not a device; without a result it returns -1. -/
def readi (sb : Superblock) (d : Disk) (ip : Inode) (off n : Nat) :
    Except Panic (Option (List Byte) × Inode × Disk) :=
  if ip.size.toNat < off ∨ (off + n) % 2 ^ 32 < off then .ok (none, ip, d)
  else do
    let n := if ip.size.toNat < off + n then ip.size.toNat - off else n
    let (l, ip, d) ← readLoop sb n d ip off n
    return (some l, ip, d)

/-- The loop of `writei`, with `src` to go. -/
def writeLoop (sb : Superblock) : Nat → Disk → Inode → Nat → List Byte → Except Panic (Inode × Disk)
  | 0, d, ip, _, _ => .ok (ip, d)
  | fuel + 1, d, ip, off, src =>
    if src = [] then .ok (ip, d)
    else do
      let (b, ip, d) ← bmap sb d ip (off / BSIZE)
      let m := min src.length (BSIZE - off % BSIZE)
      writeLoop sb fuel (update d b (splice (d b) (off % BSIZE) (src.take m))) ip (off + m)
        (src.drop m)

/-- `writei` to what is not a device, with whether it returns `n`; else it returns -1. -/
def writei (sb : Superblock) (d : Disk) (ip : Inode) (src : List Byte) (off : Nat) :
    Except Panic (Bool × Inode × Disk) :=
  if ip.size.toNat < off ∨ (off + src.length) % 2 ^ 32 < off then .ok (false, ip, d)
  else if MAXFILE * BSIZE < off + src.length then .ok (false, ip, d)
  else do
    let (ip, d) ← writeLoop sb src.length d ip off src
    if 0 < src.length ∧ ip.size.toNat < off + src.length then
      let ip := ip.setSize (BitVec.ofNat 32 (off + src.length))
      return (true, ip, iupdate sb d ip)
    else return (true, ip, d)

end ThreadKernel.Block
