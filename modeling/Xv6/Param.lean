import Mathlib.Algebra.GroupWithZero.Nat

namespace Xv6

/-!
# Kernel parameters

The compile-time constants of `kernel/param.h`, `kernel/fs.h` and
`mkfs/mkfs.c` that the modelled code reads.  They are plain definitions, so
every bound below is checked against the values the source fixes.
-/

/-- Maximum number of processes. -/
def NPROC : Nat := 64

instance : NeZero NPROC := ⟨by decide⟩

/-- Maximum number of blocks any file-system operation writes. -/
def MAXOPBLOCKS : Nat := 10

/-- Maximum number of data blocks in the on-disk log. -/
def LOGSIZE : Nat := MAXOPBLOCKS * 3

/-- Size of the disk block cache. -/
def NBUF : Nat := MAXOPBLOCKS * 3

instance : NeZero NBUF := ⟨by decide⟩

/-- Open files per process. -/
def NOFILE : Nat := 16

/-- Open files per system. -/
def NFILE : Nat := 100

/-- Maximum number of active inodes. -/
def NINODE : Nat := 50

instance : NeZero NINODE := ⟨by decide⟩

/-- Maximum major device number. -/
def NDEV : Nat := 10

/-- Device number of the file system's root disk. -/
def ROOTDEV : Nat := 1

end Xv6
