import Xv6.Fs.Format

namespace Xv6
namespace Fs

open Foundation Function
open Buffer (Block Stop)

/-!
# Blocks, inodes and their contents

The lower half of `kernel/fs.c`: the block allocator, the inode cache, and
reading and writing the contents of an inode, over a store that holds the
blocks as the buffer cache shows them.

The calls of one process run to the end of their transaction before another
process runs, so a sleep-lock is a flag here, and to acquire one that is held
stops the call.  A block that is changed and passed to `log_write` is recorded
as logged until the operation ends.  A block that is changed and not logged
keeps its home contents beside it: the buffer may be evicted, which brings
them back.
-/

abbrev Index := Fin NINODE

/-- `struct inode`; the device is the same for all. -/
@[ext] structure Inode where
  inum : Nat
  ref : Int
  locked : Bool
  valid : Bool
  dinode : Dinode

/-- A directory entry that `dirlookup` followed: the directory, the name, the
inode number, and the type of that inode on the disk. -/
structure Lookup where
  dir : Nat
  name : Name
  inum : Nat
  type : BitVec 16
deriving DecidableEq

/-- The state of the file system.  The lookups are a record of the past that
the code does not read. -/
structure Store where
  sb : Superblock
  blocks : Nat → Block
  stale : Nat → Option Block
  logged : List Nat
  inOp : Bool
  icache : Index → Inode
  lookups : List Lookup

abbrev Kernel := EStateM Stop Store

/-! ## Blocks -/

/-- The data of the buffer that `bread` returns. -/
def bread (blockno : Nat) : Kernel Block := do
  return (← get).blocks blockno

/-- Change the data of a buffer and pass it to `log_write`. -/
def modifyBlock (blockno : Nat) (update : Block → Block) : Kernel PUnit := do
  let store ← get
  if store.inOp then
    set { store with
      blocks := Function.update store.blocks blockno (update (store.blocks blockno))
      stale := Function.update store.stale blockno none
      logged := if blockno ∈ store.logged then store.logged else store.logged ++ [blockno] }
  else throw (.panic .logWriteOutsideOfTrans)

/-- Change the data of a buffer and release it without `log_write`.  A block
that this operation has logged before is committed all the same. -/
def scribble (blockno : Nat) (update : Block → Block) : Kernel PUnit :=
  modify fun store =>
    { store with
      blocks := Function.update store.blocks blockno (update (store.blocks blockno))
      stale := if blockno ∈ store.logged then store.stale
        else Function.update store.stale blockno
          (some ((store.stale blockno).getD (store.blocks blockno))) }

/-- A buffer that is not pinned loses what was not logged. -/
def evict (store : Store) (blockno : Nat) : Store :=
  { store with
    blocks := update store.blocks blockno ((store.stale blockno).getD (store.blocks blockno))
    stale := update store.stale blockno none }

def beginOp : Kernel PUnit :=
  modify fun store => { store with inOp := true }

/-- `end_op`: the logged blocks are committed. -/
def endOp : Kernel PUnit :=
  modify fun store => { store with inOp := false, logged := [] }

def bzero (blockno : Nat) : Kernel PUnit :=
  modifyBlock blockno fun _ => Bytes.zero

/-- The inner loop of `balloc`: the first free bit, from `bi` on. -/
def freeBit (block : Block) : (bi fuel : Nat) → Option Nat
  | _, 0 => none
  | bi, fuel + 1 => if bitSet block bi then freeBit block (bi + 1) fuel else some bi

/-- The outer loop of `balloc`. -/
def ballocFrom : (b fuel : Nat) → Kernel Nat
  | _, 0 => throw (.panic .ballocOutOfBlocks)
  | b, fuel + 1 => do
      let sb := (← get).sb
      if b < sb.size then
        let block ← bread (sb.BBLOCK b)
        match freeBit block 0 (min BPB (sb.size - b)) with
        | some bi =>
          modifyBlock (sb.BBLOCK b) (markBit bi)
          bzero (b + bi)
          return b + bi
        | none => ballocFrom (b + BPB) fuel
      else throw (.panic .ballocOutOfBlocks)

/-- `balloc`: allocate a zeroed block. -/
def balloc : Kernel Nat := do
  ballocFrom 0 ((← get).sb.size / BPB + 1)

/-- `bfree`. -/
def bfree (b : Nat) : Kernel PUnit := do
  let sb := (← get).sb
  let block ← bread (sb.BBLOCK b)
  if bitSet block (b % BPB) then modifyBlock (sb.BBLOCK b) (clearBit (b % BPB))
  else throw (.panic .freeingFreeBlock)

/-! ## The inode cache -/

/-- Change an entry of the cache. -/
def setInode (ip : Index) (update : Inode → Inode) : Kernel PUnit :=
  modify fun store =>
    { store with icache := Function.update store.icache ip (update (store.icache ip)) }

/-- Assign to fields that live on the disk. -/
def setDinode (ip : Index) (update : Dinode → Dinode) : Kernel PUnit :=
  setInode ip fun inode => { inode with dinode := update inode.dinode }

/-- The entry that has the inode, if there is one. -/
def cachedInode (icache : Index → Inode) (inum : Nat) : Option Index :=
  (List.finRange NINODE).find? fun ip =>
    decide (0 < (icache ip).ref ∧ (icache ip).inum = inum)

/-- The first empty entry. -/
def emptyInode (icache : Index → Inode) : Option Index :=
  (List.finRange NINODE).find? fun ip => decide ((icache ip).ref = 0)

def iget (inum : Nat) : Kernel Index := do
  let store ← get
  match cachedInode store.icache inum with
  | some ip =>
    setInode ip fun inode => { inode with ref := inode.ref + 1 }
    return ip
  | none =>
    match emptyInode store.icache with
    | some ip =>
      setInode ip fun inode => { inode with inum := inum, ref := 1, valid := false }
      return ip
    | none => throw (.panic .igetNoInodes)

/-- The loop of `ialloc`. -/
def iallocFrom (type : BitVec 16) : (inum fuel : Nat) → Kernel Index
  | _, 0 => throw (.panic .iallocNoInodes)
  | inum, fuel + 1 => do
      let sb := (← get).sb
      let block ← bread (sb.IBLOCK inum)
      if (Dinode.decode block (inum % IPB)).type = 0 then
        modifyBlock (sb.IBLOCK inum) (Dinode.clear type (inum % IPB))
        iget inum
      else iallocFrom type (inum + 1) fuel

def ialloc (type : BitVec 16) : Kernel Index := do
  iallocFrom type 1 ((← get).sb.ninodes - 1)

def iupdate (ip : Index) : Kernel PUnit := do
  let store ← get
  let inode := store.icache ip
  modifyBlock (store.sb.IBLOCK inode.inum) (inode.dinode.encode (inode.inum % IPB))

def idup (ip : Index) : Kernel PUnit :=
  setInode ip fun inode => { inode with ref := inode.ref + 1 }

def ilock (ip : Index) : Kernel PUnit := do
  let store ← get
  let inode := store.icache ip
  if inode.ref < 1 then throw (.panic .ilock)
  else if inode.locked then throw .asleep
  else if inode.valid then setInode ip fun inode => { inode with locked := true }
  else
    let block ← bread (store.sb.IBLOCK inode.inum)
    let dinode := Dinode.decode block (inode.inum % IPB)
    setInode ip fun inode => { inode with locked := true, valid := true, dinode := dinode }
    if dinode.type = 0 then throw (.panic .ilockNoType) else pure ⟨⟩

def iunlock (ip : Index) : Kernel PUnit := do
  let inode := (← get).icache ip
  if inode.locked = false ∨ inode.ref < 1 then throw (.panic .iunlock)
  else setInode ip fun inode => { inode with locked := false }

/-! ## Inode contents -/

/-- The slot of the indirect block in `addrs`. -/
def indirectSlot : Fin (NDIRECT + 1) := Fin.last NDIRECT

/-- A zero address of the inode is replaced by that of a new block. -/
def bmapSlot (ip : Index) (slot : Fin (NDIRECT + 1)) : Kernel Nat := do
  let addr := ((← get).icache ip).dinode.addrs slot
  if addr = 0 then
    let new ← balloc
    setDinode ip fun dinode =>
      { dinode with addrs := update dinode.addrs slot (BitVec.ofNat 32 new) }
    return new
  else return addr.toNat

/-- A zero entry of the indirect block is replaced by the address of a new
block. -/
def bmapEntry (indirect entry : Nat) : Kernel Nat := do
  let block ← bread indirect
  let addr := block.getLE (4 * entry) 4
  if addr = 0 then
    let new ← balloc
    modifyBlock indirect fun block => block.setLE (4 * entry) 4 new
    return new
  else return addr

/-- `bmap`: the block of the inode with this index, allocated if necessary. -/
def bmap (ip : Index) (bn : Nat) : Kernel Nat := do
  if bn < NDIRECT then bmapSlot ip (Fin.ofNat _ bn)
  else if bn - NDIRECT < NINDIRECT then
    let indirect ← bmapSlot ip indirectSlot
    bmapEntry indirect (bn - NDIRECT)
  else throw (.panic .bmapOutOfRange)

/-- The body of the first loop of `itrunc`. -/
def itruncSlot (ip : Index) (slot : Fin (NDIRECT + 1)) : Kernel PUnit := do
  let addr := ((← get).icache ip).dinode.addrs slot
  if addr = 0 then pure ⟨⟩
  else
    bfree addr.toNat
    setDinode ip fun dinode => { dinode with addrs := update dinode.addrs slot 0 }

/-- Free the blocks that an indirect block names. -/
def itruncEntries (block : Block) : List Nat → Kernel PUnit
  | [] => pure ⟨⟩
  | entry :: rest => do
      if block.getLE (4 * entry) 4 = 0 then pure ⟨⟩ else bfree (block.getLE (4 * entry) 4)
      itruncEntries block rest

def itruncSlots (ip : Index) : List (Fin (NDIRECT + 1)) → Kernel PUnit
  | [] => pure ⟨⟩
  | slot :: rest => do
      itruncSlot ip slot
      itruncSlots ip rest

section

variable (ip : Index)

/-- The part of `itrunc` for the indirect block. -/
def itruncIndirect : Kernel PUnit := do
  let addr := ((← get).icache ip).dinode.addrs indirectSlot
  if addr = 0 then pure ⟨⟩
  else
    let block ← bread addr.toNat
    itruncEntries block (List.range NINDIRECT)
    itruncSlot ip indirectSlot

def itrunc : Kernel PUnit := do
  itruncSlots ip ((List.finRange NDIRECT).map Fin.castSucc)
  itruncIndirect ip
  setDinode ip fun dinode => { dinode with size := 0 }
  iupdate ip

/-- The part of `iput` that frees an inode without links. -/
def ifree : Kernel PUnit := do
  if ((← get).icache ip).locked then throw .asleep
  else
    setInode ip fun inode => { inode with locked := true }
    itrunc ip
    setDinode ip fun dinode => { dinode with type := 0 }
    iupdate ip
    setInode ip fun inode => { inode with valid := false, locked := false }

def iput : Kernel PUnit := do
  let inode := (← get).icache ip
  if inode.ref = 1 ∧ inode.valid = true ∧ inode.dinode.nlink = 0 then ifree ip else pure ⟨⟩
  setInode ip fun inode => { inode with ref := inode.ref - 1 }

def iunlockput : Kernel PUnit := do
  iunlock ip
  iput ip

end

/-! ## Copying between blocks and memory -/

def PGSIZE : Nat := 4096

/-- The pages that a process may use, by page number. -/
abbrev UserMemory := Nat → Option (Nat → UInt8)

/-- How many of `length` bytes `copyin` and `copyout` copy before they meet a
page that is not mapped. -/
def mapped (memory : UserMemory) : (address length fuel : Nat) → Nat
  | _, _, 0 => 0
  | address, length, fuel + 1 =>
    if length = 0 then 0
    else if (memory (address / PGSIZE)).isSome then
      let n := min (PGSIZE - address % PGSIZE) length
      n + mapped memory ((address + n) % 2 ^ 64) (length - n) fuel
    else 0

/-- The source of `writei`, and of `either_copyin`. -/
inductive Source where
  | kernel (bytes : Nat → UInt8)
  | user (memory : UserMemory) (address : Nat)

namespace Source

def byte : Source → Nat → UInt8
  | kernel bytes, position => bytes position
  | user memory address, position =>
    let va := (address + position) % 2 ^ 64
    match memory (va / PGSIZE) with
    | some page => page (va % PGSIZE)
    | none => 0

/-- How many bytes `either_copyin` copies. -/
def reach : Source → (position length : Nat) → Nat
  | kernel _, _, length => length
  | user memory address, position, length =>
    mapped memory ((address + position) % 2 ^ 64) length length

/-- What `either_copyin` does to the buffer of the block at an offset. -/
def copy (src : Source) (tot off copied : Nat) (block : Block) : Block :=
  block.splice (off % BSIZE) copied fun position => src.byte (tot + position)

end Source

/-- The destination of `readi`, and of `either_copyout`. -/
inductive Destination where
  | kernel
  | user (memory : UserMemory) (address : Nat)

/-- How many bytes `either_copyout` copies. -/
def Destination.reach : Destination → (position length : Nat) → Nat
  | kernel, _, length => length
  | user memory address, position, length =>
    mapped memory ((address + position) % 2 ^ 64) length length

/-! ## Reading and writing -/

/-- The loop of `readi`.  It gives `tot`, and the bytes that were copied. -/
def readiFrom (ip : Index) (dst : Destination) : (tot off n fuel : Nat) → Kernel (Nat × List UInt8)
  | tot, _, _, 0 => return (tot, [])
  | tot, off, n, fuel + 1 => do
      if tot < n then
        let addr ← bmap ip (off / BSIZE)
        let block ← bread addr
        let m := min (n - tot) (BSIZE - off % BSIZE)
        let copied := dst.reach tot m
        let bytes := (List.range copied).map fun position => block.get (off % BSIZE + position)
        if copied < m then return (tot, bytes)
        else
          let (total, rest) ← readiFrom ip dst (tot + m) (off + m) n fuel
          return (total, bytes ++ rest)
      else return (tot, [])

/-- `readi`; `off` and `n` are 32 bits wide. -/
def readi (ip : Index) (dst : Destination) (off n : Nat) : Kernel (Nat × List UInt8) := do
  let size := ((← get).icache ip).dinode.size.toNat
  if off > size ∨ (off + n) % 2 ^ 32 < off then return (0, [])
  else if (off + n) % 2 ^ 32 > size then readiFrom ip dst 0 off (size - off) (size - off)
  else readiFrom ip dst 0 off n n

/-- The loop of `writei`.  It gives the offset at which it stopped. -/
def writeiFrom (ip : Index) (src : Source) : (tot off n fuel : Nat) → Kernel Nat
  | _, off, _, 0 => return off
  | tot, off, n, fuel + 1 => do
      if tot < n then
        let addr ← bmap ip (off / BSIZE)
        let m := min (n - tot) (BSIZE - off % BSIZE)
        let copied := src.reach tot m
        if copied < m then
          scribble addr (src.copy tot off copied)
          return off
        else
          modifyBlock addr (src.copy tot off copied)
          writeiFrom ip src (tot + m) (off + m) n fuel
      else return off

/-- `writei`; `off` and `n` are 32 bits wide. -/
def writei (ip : Index) (src : Source) (off n : Nat) : Kernel Int := do
  let size := ((← get).icache ip).dinode.size.toNat
  if off > size ∨ (off + n) % 2 ^ 32 < off then return -1
  else if (off + n) % 2 ^ 32 > MAXFILE * BSIZE then return -1
  else if n > 0 then
    let final ← writeiFrom ip src 0 off n n
    setDinode ip fun dinode =>
      if final > dinode.size.toNat then { dinode with size := BitVec.ofNat 32 final } else dinode
    iupdate ip
    return n
  else return n

end Fs
end Xv6
