import Xv6.Param

namespace Xv6

/-!
# On-disk layout

The format constants of `kernel/fs.h` and the super block that
`mkfs/mkfs.c` writes.  The kernel never recomputes the layout: it trusts the
super block, so the agreement between the two files is a fact about the
values below.
-/

/-- Root inode number. -/
def ROOTINO : Nat := 1

/-- Block size in bytes. -/
def BSIZE : Nat := 1024

def NDIRECT : Nat := 12

/-- Block numbers in an indirect block, `BSIZE / sizeof(uint)`. -/
def NINDIRECT : Nat := BSIZE / 4

def MAXFILE : Nat := NDIRECT + NINDIRECT

/-- Inodes per block; `sizeof(struct dinode)` is 64. -/
def IPB : Nat := BSIZE / 64

/-- Bitmap bits per block. -/
def BPB : Nat := BSIZE * 8

/-- Bytes of a name in a directory entry. -/
def DIRSIZ : Nat := 14

/-- The super block describes the disk layout. -/
structure Superblock where
  size : Nat
  nblocks : Nat
  ninodes : Nat
  nlog : Nat
  logstart : Nat
  inodestart : Nat
  bmapstart : Nat
deriving DecidableEq, Repr

namespace Superblock

/-- Block containing inode `i`. -/
def IBLOCK (sb : Superblock) (i : Nat) : Nat :=
  i / IPB + sb.inodestart

/-- Block of the free map containing the bit for block `b`. -/
def BBLOCK (sb : Superblock) (b : Nat) : Nat :=
  b / BPB + sb.bmapstart

end Superblock

/-! ## The image `mkfs` builds -/

namespace Mkfs

/-- Size of the file system in blocks. -/
def FSSIZE : Nat := 1000

def NINODES : Nat := 200

def nbitmap : Nat := FSSIZE / (BSIZE * 8) + 1

def ninodeblocks : Nat := NINODES / IPB + 1

def nlog : Nat := LOGSIZE

def nmeta : Nat := 2 + nlog + ninodeblocks + nbitmap

/-- The super block that `main` assembles before it writes any block. -/
def superblock : Superblock where
  size := FSSIZE
  nblocks := FSSIZE - nmeta
  ninodes := NINODES
  nlog := nlog
  logstart := 2
  inodestart := 2 + nlog
  bmapstart := 2 + nlog + ninodeblocks

end Mkfs

end Xv6
