namespace Xv6

/-!
# Kernel panics

Every call of `panic` in the modelled code stops the machine.  The reasons
are kept as data so that a safety statement can name the calls it excludes.
-/

/-- The `panic` calls of the modelled functions, each named after the text it
prints. -/
inductive Panic where
  | logCommitting
  | tooBigATransaction
  | logWriteOutsideOfTrans
  | initExiting
  | zombieExit
  | kerneltrap
  | acquire
  | schedLock
  | schedLocks
  | schedRunning
  | wakeup1
  | bgetNoBuffers
  | bwrite
  | brelse
  | ballocOutOfBlocks
  | freeingFreeBlock
  | iallocNoInodes
  | igetNoInodes
  | ilock
  | ilockNoType
  | iunlock
  | bmapOutOfRange
  | dirlookupNotDir
  | dirlookupRead
  | dirlinkRead
  | dirlink
  | isdiremptyReadi
  | unlinkNlink
  | unlinkWritei
  | createDots
  | createDirlink
  | filedup
  | fileclose
  | fileread
  | filewrite
  | shortFilewrite
  | kfree
  | walk
  | remap
  | uvmunmapNotAligned
  | uvmunmapWalk
  | uvmunmapNotMapped
  | uvmunmapNotALeaf
deriving DecidableEq, Repr

end Xv6
