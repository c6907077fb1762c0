import Xv6.Foundation.Tally
import Xv6.Fs.Image

namespace Xv6
namespace Fs

open Foundation
open Buffer (Block Pid Stop)

/-!
# Buffers and their home blocks between transactions

A transaction that has ended has committed the blocks it passed to `log_write`.
A block that was changed and not passed to it differs from its home block on
the disk, and the change is lost with the buffer.  Every function of the file
system passes what it changes to `log_write`, with one exception: `writei` has
no byte to lose only if `either_copyin`, when it fails, has copied nothing.
-/

/-- The contents of the home block while no operation is outstanding. -/
def Store.home (store : Store) (blockno : Nat) : Block :=
  (store.stale blockno).getD (store.blocks blockno)

/-- What was not logged does not differ from the home block, and between
operations everything that was logged is committed. -/
structure Clean (store : Store) : Prop where
  agrees : ∀ blockno home, store.stale blockno = some home → home = store.blocks blockno
  settled : store.inOp = false → store.logged = []

variable {store : Store}

section

variable (clean : Clean store)
include clean

theorem Clean.home : store.home = store.blocks := by
  funext blockno
  unfold Store.home
  cases isStale : store.stale blockno with
  | none => rfl
  | some home => exact clean.agrees blockno home isStale

theorem Clean.blocks_evict (blockno : Nat) : (evict store blockno).blocks = store.blocks := by
  have same : (store.stale blockno).getD (store.blocks blockno) = store.blocks blockno :=
    congrFun clean.home blockno
  unfold Fs.evict
  rw [same, Function.update_eq_self]

theorem Clean.evict (blockno : Nat) : Clean (evict store blockno) := by
  constructor
  · intro other home isStale
    rw [clean.blocks_evict]
    rcases update_eq_cases isStale with ⟨_, impossible⟩ | ⟨_, before⟩
    · cases impossible
    · exact clean.agrees other home before
  · exact clean.settled

theorem Clean.modified (inOp : store.inOp = true)
    (blockno : Nat) (update : Block → Block) : Clean (store.modified blockno update) := by
  constructor
  · intro other home isStale
    rw [Store.stale_modified] at isStale
    rcases update_eq_cases isStale with ⟨_, impossible⟩ | ⟨different, before⟩
    · cases impossible
    · rw [Store.blocks_modified_of_ne different]
      exact clean.agrees other home before
  · intro outside
    exact absurd (inOp.symm.trans outside) (by simp)

end

variable {update : Block → Block}

theorem Clean.scribbled (clean : Clean store) (blockno : Nat)
    (unchanged : ∀ block, update block = block) :
    Clean (store.scribbled blockno update) := by
  have blocks : (store.scribbled blockno update).blocks = store.blocks := by
    unfold Store.scribbled
    rw [unchanged, Function.update_eq_self]
  constructor
  · intro other home isStale
    rw [blocks]
    unfold Store.scribbled at isStale
    dsimp only at isStale
    split at isStale
    · exact clean.agrees other home isStale
    · rcases update_eq_cases isStale with ⟨rfl, isHome⟩ | ⟨_, before⟩
      · cases isHome
        exact congrFun clean.home other
      · exact clean.agrees other home before
  · exact clean.settled

/-! ## The functions of `kernel/fs.c` -/

variable {blockno b fuel inum tot off fd omode address : Nat} {ip dp cwd : Index}
  {type major minor : BitVec 16} {slot : Fin (NDIRECT + 1)} {dst : Destination} {n : Int}
  {name : Name} {parent : Bool} {path new : Path} {reads : List (Nat × Nat)} {file : FileIndex}
  {pid child : Pid} {memory : UserMemory}

theorem keeps_modifyBlock : Keeps Clean (modifyBlock blockno update) := by
  intro store clean
  simp only [modifyBlock, wp_bind, wp_get, wp_ite]
  split
  · rename_i inOp
    exact (wp_set _).mpr (clean.modified inOp blockno update)
  · exact (wp_throw _).mpr trivial

theorem keeps_bread : Keeps Clean (bread blockno) :=
  keeps_get.returns

theorem keeps_beginOp : Keeps Clean beginOp :=
  keeps_modify fun _ clean => ⟨clean.agrees, fun impossible => by cases impossible⟩

theorem keeps_endOp : Keeps Clean endOp :=
  keeps_modify fun _ clean => ⟨clean.agrees, fun _ => rfl⟩

theorem keeps_ballocFrom : Keeps Clean (ballocFrom b fuel) := by
  induction fuel generalizing b with
  | zero => exact keeps_throw
  | succ fuel ih =>
    apply keeps_bind keeps_get
    intro store
    dsimp only
    split
    · apply keeps_bind keeps_bread
      intro block
      split
      · exact keeps_modifyBlock.seq <| keeps_modifyBlock.returns
      · exact ih
    · exact keeps_throw

theorem keeps_balloc : Keeps Clean balloc :=
  keeps_bind keeps_get fun _ => keeps_ballocFrom

theorem keeps_bfree : Keeps Clean (bfree b) := by
  apply keeps_bind keeps_get
  intro store
  apply keeps_bind keeps_bread
  intro block
  split
  · exact keeps_modifyBlock
  · exact keeps_throw

theorem keeps_setInode {update : Inode → Inode} : Keeps Clean (setInode ip update) :=
  keeps_modify fun _ clean => ⟨clean.agrees, clean.settled⟩

theorem keeps_setDinode {update : Dinode → Dinode} : Keeps Clean (setDinode ip update) :=
  keeps_setInode

theorem keeps_iget : Keeps Clean (iget inum) := by
  apply keeps_bind keeps_get
  intro store
  split
  · exact keeps_setInode.returns
  · split
    · exact keeps_setInode.returns
    · exact keeps_throw

theorem keeps_iallocFrom : Keeps Clean (iallocFrom type inum fuel) := by
  induction fuel generalizing inum with
  | zero => exact keeps_throw
  | succ fuel ih =>
    apply keeps_bind keeps_get
    intro store
    apply keeps_bind keeps_bread
    intro block
    split
    · exact keeps_modifyBlock.seq keeps_iget
    · exact ih

theorem keeps_ialloc : Keeps Clean (ialloc type) :=
  keeps_bind keeps_get fun _ => keeps_iallocFrom

theorem keeps_iupdate : Keeps Clean (iupdate ip) :=
  keeps_bind keeps_get fun _ => keeps_modifyBlock

theorem keeps_ilock : Keeps Clean (ilock ip) := by
  apply keeps_bind keeps_get
  intro store
  dsimp only
  split
  · exact keeps_throw
  · split
    · exact keeps_throw
    · split
      · exact keeps_setInode
      · apply keeps_bind keeps_bread
        intro block
        apply keeps_setInode.seq
        split
        · exact keeps_throw
        · exact keeps_pure

theorem keeps_iunlock : Keeps Clean (iunlock ip) := by
  apply keeps_bind keeps_get
  intro store
  dsimp only
  split
  · exact keeps_throw
  · exact keeps_setInode

theorem keeps_bmapSlot : Keeps Clean (bmapSlot ip slot) := by
  apply keeps_bind keeps_get
  intro store
  dsimp only
  split
  · exact keeps_bind keeps_balloc fun _ =>
      keeps_setDinode.returns
  · exact keeps_pure

theorem keeps_bmapEntry {indirect entry : Nat} : Keeps Clean (bmapEntry indirect entry) := by
  apply keeps_bind keeps_bread
  intro block
  dsimp only
  split
  · exact keeps_bind keeps_balloc fun _ =>
      keeps_modifyBlock.returns
  · exact keeps_pure

theorem keeps_bmap {bn : Nat} : Keeps Clean (bmap ip bn) := by
  unfold bmap
  split
  · exact keeps_bmapSlot
  · split
    · exact keeps_bind keeps_bmapSlot fun _ => keeps_bmapEntry
    · exact keeps_throw

theorem keeps_itruncSlot : Keeps Clean (itruncSlot ip slot) := by
  apply keeps_bind keeps_get
  intro store
  dsimp only
  split
  · exact keeps_pure
  · exact keeps_bfree.seq keeps_setDinode

theorem keeps_itruncSlots {slots : List (Fin (NDIRECT + 1))} :
    Keeps Clean (itruncSlots ip slots) := by
  induction slots with
  | nil => exact keeps_pure
  | cons slot rest ih =>
    exact keeps_itruncSlot.seq ih

theorem keeps_itruncEntries {block : Block} {entries : List Nat} :
    Keeps Clean (itruncEntries block entries) := by
  induction entries with
  | nil => exact keeps_pure
  | cons entry rest ih =>
    simp only [itruncEntries]
    split
    · exact ih
    · exact keeps_bfree.seq ih

theorem keeps_itruncIndirect : Keeps Clean (itruncIndirect ip) := by
  apply keeps_bind keeps_get
  intro store
  dsimp only
  split
  · exact keeps_pure
  · exact keeps_bind keeps_bread fun _ =>
      keeps_itruncEntries.seq keeps_itruncSlot

theorem keeps_itrunc : Keeps Clean (itrunc ip) :=
  keeps_itruncSlots.seq <| keeps_itruncIndirect.seq <| keeps_setDinode.seq keeps_iupdate

theorem keeps_ifree : Keeps Clean (ifree ip) := by
  apply keeps_bind keeps_get
  intro store
  split
  · exact keeps_throw
  · exact keeps_setInode.seq <| keeps_itrunc.seq <| keeps_setDinode.seq <| keeps_iupdate.seq <|
      keeps_setInode

theorem keeps_iput : Keeps Clean (iput ip) := by
  apply keeps_bind keeps_get
  intro store
  dsimp only
  split
  · exact keeps_ifree.seq keeps_setInode
  · exact keeps_setInode

theorem keeps_iunlockput : Keeps Clean (iunlockput ip) :=
  keeps_iunlock.seq keeps_iput

theorem keeps_readiFrom {n : Nat} : Keeps Clean (readiFrom ip dst tot off n fuel) := by
  induction fuel generalizing tot off with
  | zero => exact keeps_pure
  | succ fuel ih =>
    unfold readiFrom
    split
    · apply keeps_bind keeps_bmap
      intro addr
      apply keeps_bind keeps_bread
      intro block
      dsimp only
      split
      · exact keeps_pure
      · exact keeps_bind ih fun _ => keeps_pure
    · exact keeps_pure

theorem keeps_readi {n : Nat} : Keeps Clean (readi ip dst off n) := by
  apply keeps_bind keeps_get
  intro store
  dsimp only
  split
  · exact keeps_pure
  · split
    · exact keeps_readiFrom
    · exact keeps_readiFrom

/-! ## `writei` -/

namespace Source

/-- Every round of the loop of `writei` copies all its bytes or none. -/
def Whole (src : Source) : (tot off n fuel : Nat) → Prop
  | _, _, _, 0 => True
  | tot, off, n, fuel + 1 =>
    tot < n →
      let m := min (n - tot) (BSIZE - off % BSIZE)
      if src.reach tot m = m then src.Whole (tot + m) (off + m) n fuel else src.reach tot m = 0

instance Whole.decidable (src : Source) :
    (tot off n fuel : Nat) → Decidable (src.Whole tot off n fuel)
  | _, _, _, 0 => .isTrue trivial
  | tot, off, n, fuel + 1 =>
    have := Whole.decidable src (tot + min (n - tot) (BSIZE - off % BSIZE))
      (off + min (n - tot) (BSIZE - off % BSIZE)) n fuel
    inferInstanceAs (Decidable (tot < n →
      if src.reach tot (min (n - tot) (BSIZE - off % BSIZE)) =
          min (n - tot) (BSIZE - off % BSIZE) then
        src.Whole (tot + min (n - tot) (BSIZE - off % BSIZE))
          (off + min (n - tot) (BSIZE - off % BSIZE)) n fuel
      else src.reach tot (min (n - tot) (BSIZE - off % BSIZE)) = 0))

theorem whole_kernel {bytes : Nat → UInt8} {n : Nat} : (kernel bytes).Whole tot off n fuel := by
  induction fuel generalizing tot off with
  | zero => trivial
  | succ fuel ih =>
    intro _
    dsimp only
    rw [if_pos (by rfl)]
    exact ih

theorem copy_zero (src : Source) (tot off : Nat) (block : Block) :
    src.copy tot off 0 block = block := by
  apply Bytes.ext_get
  intro position _
  rw [copy, Bytes.get_splice_outside block _ (by omega)]

end Source

variable {src : Source}

theorem keeps_scribble {addr : Nat} : Keeps Clean (scribble addr (src.copy tot off 0)) := by
  intro store clean
  rw [scribble_wp]
  exact clean.scribbled addr (src.copy_zero tot off)

theorem keeps_writeiFrom {tot off n fuel : Nat} (whole : src.Whole tot off n fuel) :
    Keeps Clean (writeiFrom ip src tot off n fuel) := by
  induction fuel generalizing tot off with
  | zero => exact keeps_pure
  | succ fuel ih =>
    unfold writeiFrom
    split
    · rename_i more
      have round := whole more
      apply keeps_bind keeps_bmap
      intro addr
      dsimp only at round ⊢
      split
      · rename_i failed
        rw [if_neg (by omega)] at round
        rw [round]
        exact keeps_scribble.returns
      · rename_i copied
        have atMost := src.reach_le tot (min (n - tot) (BSIZE - off % BSIZE))
        rw [if_pos (by omega)] at round
        exact keeps_modifyBlock.seq <| ih round
    · exact keeps_pure

theorem keeps_writei {off n : Nat} (whole : src.Whole 0 off n n) :
    Keeps Clean (writei ip src off n) := by
  apply keeps_bind keeps_get
  intro store
  dsimp only
  split
  · exact keeps_pure
  · split
    · exact keeps_pure
    · split
      · exact keeps_bind (keeps_writeiFrom whole) fun _ =>
          keeps_setDinode.seq <| keeps_iupdate.returns
      · exact keeps_pure

/-! ## Directories and paths -/

theorem keeps_readDirent {short : Panic} : Keeps Clean (readDirent dp off short) := by
  apply keeps_bind keeps_readi
  intro result
  dsimp only
  split
  · exact keeps_throw
  · exact keeps_pure

theorem keeps_noteLookup {dir : Nat} : Keeps Clean (noteLookup dir name inum) :=
  keeps_modify fun _ clean => ⟨clean.agrees, clean.settled⟩

theorem keeps_dirlookupFrom : Keeps Clean (dirlookupFrom dp name off fuel) := by
  induction fuel generalizing off with
  | zero => exact keeps_pure
  | succ fuel ih =>
    apply keeps_bind keeps_get
    intro store
    dsimp only
    split
    · apply keeps_bind keeps_readDirent
      intro de
      split
      · exact ih
      · split
        · exact keeps_noteLookup.seq <| keeps_iget.returns
        · exact ih
    · exact keeps_pure

theorem keeps_dirlookup : Keeps Clean (dirlookup dp name) := by
  apply keeps_bind keeps_get
  intro store
  dsimp only
  split
  · exact keeps_throw
  · exact keeps_dirlookupFrom

theorem keeps_emptyDirent : Keeps Clean (emptyDirent dp off fuel) := by
  induction fuel generalizing off with
  | zero => exact keeps_pure
  | succ fuel ih =>
    apply keeps_bind keeps_get
    intro store
    split
    · apply keeps_bind keeps_readDirent
      intro de
      split
      · exact keeps_pure
      · exact ih
    · exact keeps_pure

theorem keeps_dirlink : Keeps Clean (dirlink dp name inum) := by
  apply keeps_bind keeps_dirlookup
  intro found
  split
  · exact keeps_iput.returns
  · apply keeps_bind keeps_get
    intro store
    apply keeps_bind keeps_emptyDirent
    intro off
    apply keeps_bind (keeps_writei Source.whole_kernel)
    intro written
    split
    · exact keeps_throw
    · exact keeps_pure

theorem keeps_namexFrom {array : List UInt8} :
    Keeps Clean (namexFrom parent fuel ip path array) := by
  induction fuel generalizing ip path array with
  | zero => exact keeps_pure
  | succ fuel ih =>
    unfold namexFrom
    split
    · split
      · exact keeps_iput.returns
      · exact keeps_pure
    · apply keeps_ilock.seq
      apply keeps_bind keeps_get
      intro store
      split
      · exact keeps_iunlockput.returns
      · split
        · exact keeps_iunlock.returns
        · apply keeps_bind keeps_dirlookup
          intro found
          split
          · exact keeps_iunlockput.returns
          · exact keeps_iunlockput.seq ih

theorem keeps_namex : Keeps Clean (namex cwd path parent) := by
  unfold namex
  split
  · exact keeps_bind keeps_iget fun _ => keeps_namexFrom
  · exact keeps_setInode.seq keeps_namexFrom

theorem keeps_namei : Keeps Clean (namei cwd path) :=
  keeps_namex.returns

/-! ## The calls without the file table -/

theorem keeps_linkBad : Keeps Clean (linkBad ip) :=
  keeps_ilock.seq <| keeps_setDinode.seq <| keeps_iupdate.seq <| keeps_iunlockput.seq <|
    keeps_endOp.returns

theorem keeps_linkNew : Keeps Clean (linkNew cwd ip new) := by
  apply keeps_bind keeps_namex
  intro found
  split
  · exact keeps_linkBad
  · apply keeps_ilock.seq
    apply keeps_bind keeps_get
    intro store
    apply keeps_bind keeps_dirlink
    intro linked
    split
    · exact keeps_iunlockput.seq keeps_linkBad
    · exact keeps_iunlockput.seq <| keeps_iput.seq <| keeps_endOp.returns

theorem keeps_sysLink {old new : Option Path} : Keeps Clean (sysLink cwd old new) := by
  unfold sysLink
  split
  · apply keeps_beginOp.seq
    apply keeps_bind keeps_namei
    intro found
    split
    · exact keeps_endOp.returns
    · apply keeps_ilock.seq
      apply keeps_bind keeps_get
      intro store
      split
      · exact keeps_iunlockput.seq <| keeps_endOp.returns
      · exact keeps_setDinode.seq <| keeps_iupdate.seq <| keeps_iunlock.seq keeps_linkNew
  · exact keeps_pure

theorem keeps_isdiremptyFrom : Keeps Clean (isdiremptyFrom dp off fuel) := by
  induction fuel generalizing off with
  | zero => exact keeps_pure
  | succ fuel ih =>
    apply keeps_bind keeps_get
    intro store
    split
    · apply keeps_bind keeps_readDirent
      intro de
      split
      · exact keeps_pure
      · exact ih
    · exact keeps_pure

theorem keeps_isFullDirectory : Keeps Clean (isFullDirectory ip) := by
  apply keeps_bind keeps_get
  intro store
  split
  · exact (keeps_bind keeps_get fun _ => keeps_isdiremptyFrom).returns
  · exact keeps_pure

theorem keeps_unlinkBad : Keeps Clean (unlinkBad dp) :=
  keeps_iunlockput.seq <| keeps_endOp.returns

theorem keeps_unlinkDotdot : Keeps Clean (unlinkDotdot dp ip) := by
  apply keeps_bind keeps_get
  intro store
  split
  · exact keeps_setDinode.seq keeps_iupdate
  · exact keeps_pure

theorem keeps_unlinkEntry : Keeps Clean (unlinkEntry dp ip off) := by
  apply keeps_bind keeps_get
  intro store
  split
  · exact keeps_throw
  · apply keeps_bind keeps_isFullDirectory
    intro full
    split
    · exact keeps_iunlockput.seq keeps_unlinkBad
    · apply keeps_bind (keeps_writei Source.whole_kernel)
      intro written
      split
      · exact keeps_throw
      · exact keeps_unlinkDotdot.seq <| keeps_iunlockput.seq <| keeps_setDinode.seq <|
          keeps_iupdate.seq <| keeps_iunlockput.seq <| keeps_endOp.returns

theorem keeps_sysUnlink {path : Option Path} : Keeps Clean (sysUnlink cwd path) := by
  cases path with
  | none => exact keeps_pure
  | some path =>
    apply keeps_beginOp.seq
    apply keeps_bind keeps_namex
    intro found
    split
    · exact keeps_endOp.returns
    · apply keeps_ilock.seq
      split
      · exact keeps_unlinkBad
      · apply keeps_bind keeps_dirlookup
        intro entry
        split
        · exact keeps_unlinkBad
        · exact keeps_ilock.seq keeps_unlinkEntry

theorem keeps_createDots : Keeps Clean (createDots dp ip type) := by
  unfold createDots
  split
  · apply keeps_setDinode.seq
    apply keeps_iupdate.seq
    apply keeps_bind keeps_get
    intro store
    apply keeps_bind keeps_dirlink
    intro dot
    split
    · exact keeps_throw
    · apply keeps_bind keeps_get
      intro store
      apply keeps_bind keeps_dirlink
      intro dotdot
      split
      · exact keeps_throw
      · exact keeps_pure
  · exact keeps_pure

theorem keeps_createFound : Keeps Clean (createFound dp ip type) := by
  apply keeps_iunlockput.seq
  apply keeps_ilock.seq
  apply keeps_bind keeps_get
  intro store
  dsimp only
  split
  · exact keeps_pure
  · exact keeps_iunlockput.returns

theorem keeps_createNew : Keeps Clean (createNew dp name type major minor) := by
  apply keeps_bind keeps_ialloc
  intro ip
  apply keeps_ilock.seq
  apply keeps_setDinode.seq
  apply keeps_iupdate.seq
  apply keeps_createDots.seq
  apply keeps_bind keeps_get
  intro store
  apply keeps_bind keeps_dirlink
  intro linked
  split
  · exact keeps_throw
  · exact keeps_iunlockput.returns

theorem keeps_create : Keeps Clean (create cwd path type major minor) := by
  apply keeps_bind keeps_namex
  intro found
  split
  · exact keeps_pure
  · apply keeps_ilock.seq
    apply keeps_bind keeps_dirlookup
    intro entry
    split
    · exact keeps_createFound
    · exact keeps_createNew

theorem keeps_makeNode {path : Option Path} : Keeps Clean (makeNode cwd path type major minor) := by
  apply keeps_beginOp.seq
  split
  · exact keeps_endOp.returns
  · apply keeps_bind keeps_create
    intro made
    split
    · exact keeps_endOp.returns
    · exact keeps_iunlockput.seq <| keeps_endOp.returns

theorem keeps_sysChdir {path : Option Path} : Keeps Clean (sysChdir cwd path) := by
  apply keeps_beginOp.seq
  split
  · exact keeps_endOp.returns
  · apply keeps_bind keeps_namei
    intro found
    split
    · exact keeps_endOp.returns
    · apply keeps_ilock.seq
      apply keeps_bind keeps_get
      intro store
      split
      · exact keeps_iunlockput.seq <| keeps_endOp.returns
      · exact keeps_iunlock.seq <| keeps_iput.seq <| keeps_endOp.returns

theorem keeps_execReads : Keeps Clean (execReads ip reads) := by
  induction reads with
  | nil => exact keeps_pure
  | cons read rest ih =>
    exact keeps_bind (keeps_map keeps_readi) fun _ => ih

theorem keeps_sysExec {path : Option Path} : Keeps Clean (sysExec cwd path reads) := by
  unfold sysExec
  split
  · exact keeps_pure
  · apply keeps_beginOp.seq
    apply keeps_bind keeps_namei
    intro found
    split
    · exact keeps_endOp
    · exact keeps_ilock.seq <| keeps_execReads.seq <| keeps_iunlockput.seq keeps_endOp

/-! ## The calls with the file table -/

/-- The same of a whole system. -/
def CleanStore (system : System) : Prop :=
  Clean system.store

variable {page : Option Nat} {system : System}

section

theorem keeps_onStore {α : Type} {program : Kernel α} (kept : Keeps Clean program) :
    Keeps CleanStore (onStore program) := by
  intro system clean
  rw [wp_onStore]
  exact kept system.store clean

theorem keeps_setFile {update : File → File} : Keeps CleanStore (setFile file update) :=
  keeps_modify fun _ clean => clean

theorem keeps_setPage {page : Nat} {update : PipePage → PipePage} :
    Keeps CleanStore (setPage page update) :=
  keeps_modify fun _ clean => clean

theorem keeps_setProcess {update : Process → Process} : Keeps CleanStore (setProcess pid update) :=
  keeps_modify fun _ clean => clean

theorem keeps_setFd {fd : Fin NOFILE} {file : Option FileIndex} :
    Keeps CleanStore (setFd pid fd file) :=
  keeps_setProcess

theorem keeps_filealloc : Keeps CleanStore filealloc := by
  apply keeps_bind keeps_get
  intro system
  split
  · exact keeps_setFile.returns
  · exact keeps_pure

theorem keeps_fdalloc : Keeps CleanStore (fdalloc pid file) := by
  apply keeps_bind keeps_get
  intro system
  dsimp only
  split
  · exact keeps_setFd.returns
  · exact keeps_pure

theorem keeps_filedup : Keeps CleanStore (filedup file) := by
  apply keeps_bind keeps_get
  intro system
  split
  · exact keeps_throw
  · exact keeps_setFile

theorem keeps_closeInode : Keeps Clean (closeInode ip) :=
  keeps_beginOp.seq <| keeps_iput.seq keeps_endOp

theorem keeps_fileclose : Keeps CleanStore (fileclose file) := by
  apply keeps_bind keeps_get
  intro system
  dsimp only
  split
  · exact keeps_throw
  · split
    · exact keeps_setFile
    · apply keeps_setFile.seq
      split
      · exact keeps_setPage
      · exact keeps_onStore keeps_closeInode
      · exact keeps_onStore keeps_closeInode
      · exact keeps_pure

theorem keeps_openInode : Keeps Clean (openInode cwd path omode) := by
  unfold openInode
  split
  · exact keeps_create
  · apply keeps_bind keeps_namei
    intro found
    split
    · exact keeps_pure
    · apply keeps_ilock.seq
      apply keeps_bind keeps_get
      intro store
      split
      · exact keeps_iunlockput.returns
      · exact keeps_pure

theorem keeps_openBad : Keeps Clean (openBad ip) :=
  keeps_iunlockput.seq <| keeps_endOp.returns

theorem keeps_openTruncate : Keeps Clean (openTruncate ip omode) := by
  apply keeps_bind keeps_get
  intro store
  dsimp only
  split
  · exact keeps_itrunc.seq <| keeps_iunlock.seq keeps_endOp
  · exact keeps_iunlock.seq keeps_endOp

theorem keeps_openFound : Keeps CleanStore (openFound pid ip omode) := by
  apply keeps_bind keeps_get
  intro system
  dsimp only
  split
  · exact keeps_onStore keeps_openBad
  · apply keeps_bind keeps_filealloc
    intro file
    split
    · exact keeps_onStore keeps_openBad
    · apply keeps_bind keeps_fdalloc
      intro fd
      split
      · exact keeps_fileclose.seq <| keeps_onStore keeps_openBad
      · exact keeps_setFile.seq <| (keeps_onStore keeps_openTruncate).returns

theorem keeps_sysOpen {path : Option Path} : Keeps CleanStore (sysOpen pid cwd path omode) := by
  unfold sysOpen
  split
  · exact keeps_pure
  · apply (keeps_onStore keeps_beginOp).seq
    apply keeps_bind (keeps_onStore keeps_openInode)
    intro found
    split
    · exact (keeps_onStore keeps_endOp).returns
    · exact keeps_openFound

theorem keeps_sysDup : Keeps CleanStore (sysDup pid fd) := by
  apply keeps_bind keeps_get
  intro system
  split
  · exact keeps_pure
  · apply keeps_bind keeps_fdalloc
    intro new
    split
    · exact keeps_pure
    · exact keeps_filedup.returns

theorem keeps_sysClose : Keeps CleanStore (sysClose pid fd) := by
  apply keeps_bind keeps_get
  intro system
  split
  · exact keeps_pure
  · exact keeps_setFd.seq <| keeps_fileclose.returns

theorem keeps_pipealloc : Keeps CleanStore (pipealloc page) := by
  apply keeps_bind keeps_filealloc
  intro first
  split
  · exact keeps_pure
  · apply keeps_bind keeps_filealloc
    intro second
    split
    · exact keeps_fileclose.returns
    · split
      · exact keeps_fileclose.seq <| keeps_fileclose.returns
      · exact keeps_setPage.seq <| keeps_setFile.seq <| keeps_setFile.returns

theorem keeps_pipeBad {rf wf : FileIndex} : Keeps CleanStore (pipeBad rf wf) :=
  keeps_fileclose.seq <| keeps_fileclose.returns

theorem keeps_sysPipe {copied : Bool} : Keeps CleanStore (sysPipe pid page copied) := by
  apply keeps_bind keeps_pipealloc
  intro files
  split
  · exact keeps_pure
  · apply keeps_bind keeps_fdalloc
    intro fd0
    split
    · exact keeps_pipeBad
    · apply keeps_bind keeps_fdalloc
      intro fd1
      split
      · exact keeps_setFd.seq keeps_pipeBad
      · split
        · exact keeps_pure
        · exact keeps_setFd.seq <| keeps_setFd.seq keeps_pipeBad

theorem keeps_forkFiles {parent : Process} {fds : List (Fin NOFILE)} :
    Keeps CleanStore (forkFiles parent child fds) := by
  induction fds with
  | nil => exact keeps_pure
  | cons fd rest ih =>
    apply keeps_bind _ fun _ => ih
    unfold forkFile
    split
    · exact keeps_pure
    · exact keeps_filedup.seq keeps_setFd

theorem keeps_sysFork : Keeps CleanStore (sysFork pid cwd child) :=
  keeps_bind keeps_get fun _ => keeps_forkFiles.seq <| (keeps_onStore keeps_setInode).seq <|
    keeps_setProcess

theorem keeps_advance {r : Int} : Keeps CleanStore (advance file r) := by
  unfold advance
  split
  · exact keeps_setFile
  · exact keeps_pure

theorem keeps_fileread : Keeps CleanStore (fileread file memory address n) := by
  apply keeps_bind keeps_get
  intro system
  dsimp only
  split
  · exact keeps_pure
  · split
    · apply (keeps_onStore keeps_ilock).seq
      apply keeps_bind keeps_get
      intro locked
      apply keeps_bind (keeps_onStore keeps_readi)
      exact fun _ => keeps_advance.seq <| (keeps_onStore keeps_iunlock).returns
    · exact keeps_pure
    · exact keeps_pure
    · exact keeps_throw

theorem keeps_sysRead : Keeps CleanStore (sysRead pid fd memory address n) := by
  apply keeps_bind keeps_get
  intro system
  split
  · exact keeps_pure
  · exact keeps_fileread.returns

theorem keeps_sysFstat : Keeps CleanStore (sysFstat pid fd) := by
  apply keeps_bind keeps_get
  intro system
  split
  · exact keeps_pure
  · dsimp only
    split
    · exact (keeps_onStore keeps_ilock).seq <| (keeps_onStore keeps_iunlock).returns
    · exact (keeps_onStore keeps_ilock).seq <| (keeps_onStore keeps_iunlock).returns
    · exact keeps_pure
    · exact keeps_pure

theorem keeps_sysWrite : Keeps CleanStore (sysWrite pid fd memory address n) := by
  apply keeps_bind keeps_get
  intro system
  split
  · exact keeps_pure
  · dsimp only
    split
    · exact keeps_pure
    · split
      · exact keeps_setProcess.returns
      · exact keeps_pure
      · exact keeps_pure
      · exact keeps_throw

theorem filewriteChunk_clean {n1 : Nat} (clean : CleanStore system)
    (whole : (Source.user memory address).Whole 0 (system.ftable file).off n1 n1) :
    Wp (filewriteChunk file memory address n1) system (fun _ => CleanStore) fun _ _ => True := by
  have rest : Keeps CleanStore (do
      let written ← onStore (writei (system.ftable file).ip (.user memory address)
        (system.ftable file).off n1)
      advance file written
      onStore (iunlock (system.ftable file).ip)
      onStore endOp
      return written) := by
    apply keeps_bind (keeps_onStore (keeps_writei whole))
    intro written
    apply keeps_advance.seq
    exact (keeps_onStore keeps_iunlock).seq <| (keeps_onStore keeps_endOp).returns
  rw [filewriteChunk, wp_bind, wp_onStore]
  apply (keeps_beginOp system.store clean).imp
  intro _ begun cleanBegun
  rw [wp_bind, wp_get, wp_bind, wp_onStore]
  apply (keeps_ilock begun cleanBegun).imp
  intro _ locked cleanLocked
  rw [wp_bind, wp_get]
  exact rest _ cleanLocked

theorem continueWrite_clean {pid : Pid} {n : Int} {i : Nat} (clean : CleanStore system)
    (whole : (i : Int) < n → (Source.user memory ((address + i) % 2 ^ 64)).Whole 0
      (system.ftable file).off (min (n - i).toNat maxChunk) (min (n - i).toNat maxChunk)) :
    Wp (continueWrite pid file memory address n i) system (fun _ => CleanStore)
      fun _ _ => True := by
  unfold continueWrite
  split
  · rename_i more
    refine (filewriteChunk_clean clean (whole more)).seq ?_
    intro written after stillClean
    split
    · exact keeps_setProcess after stillClean
    · split
      · exact (wp_throw _).mpr trivial
      · exact keeps_setProcess after stillClean
  · exact keeps_setProcess system clean

theorem keeps_continueExit : Keeps CleanStore (continueExit pid fd) := by
  unfold continueExit
  split
  · apply keeps_bind _ fun _ => keeps_setProcess
    apply keeps_bind keeps_get
    intro system
    split
    · exact keeps_pure
    · exact keeps_fileclose.seq keeps_setFd
  · apply keeps_bind _ fun _ => keeps_setProcess
    apply keeps_bind keeps_get
    intro system
    split
    · exact keeps_pure
    · exact (keeps_onStore keeps_beginOp).seq <| (keeps_onStore keeps_iput).seq <|
        keeps_onStore keeps_endOp

theorem keeps_run {request : Call} : Keeps CleanStore (request.run pid cwd) := by
  cases request with
  | «open» path omode => exact keeps_map keeps_sysOpen
  | mkdir path | mknod path major minor => exact keeps_map (keeps_onStore keeps_makeNode)
  | link old new => exact keeps_map (keeps_onStore keeps_sysLink)
  | unlink path => exact keeps_map (keeps_onStore keeps_sysUnlink)
  | chdir path =>
    apply keeps_bind (keeps_onStore keeps_sysChdir)
    intro new
    split
    · exact keeps_pure
    · exact keeps_setProcess
  | exec path reads => exact keeps_onStore keeps_sysExec
  | dup fd => exact keeps_map keeps_sysDup
  | close fd => exact keeps_map keeps_sysClose
  | pipe page copied => exact keeps_map keeps_sysPipe
  | fstat fd => exact keeps_map keeps_sysFstat
  | read fd memory address n => exact keeps_map keeps_sysRead
  | write fd memory address n => exact keeps_map keeps_sysWrite
  | fork child => exact keeps_sysFork
  | exit =>
    simp only [Call.run]
    split
    · exact keeps_throw
    · exact keeps_setProcess

end

/-! ## Every run -/

/-- In the transaction of a `write` that comes next, every copy from user
memory that fails has copied nothing. -/
def WholeCopies (system : System) : Action → Prop
  | .resume pid =>
    match (system.procs pid).pending with
    | .writing file memory address n i =>
      (i : Int) < n → (Source.user memory ((address + i) % 2 ^ 64)).Whole 0
        (system.ftable file).off (min (n - i).toNat maxChunk) (min (n - i).toNat maxChunk)
    | _ => True
  | _ => True

instance (system : System) : (action : Action) → Decidable (WholeCopies system action)
  | .resume pid =>
    match isPending : (system.procs pid).pending with
    | .writing file memory address n i =>
      decidable_of_iff ((i : Int) < n → (Source.user memory ((address + i) % 2 ^ 64)).Whole 0
        (system.ftable file).off (min (n - i).toNat maxChunk) (min (n - i).toNat maxChunk))
        (by simp only [WholeCopies, isPending])
    | .idle => .isTrue (by simp only [WholeCopies, isPending])
    | .exiting _ => .isTrue (by simp only [WholeCopies, isPending])
  | .call _ _ | .evict _ => .isTrue trivial

theorem step_clean {next : System} {action : Action} (clean : CleanStore system)
    (whole : WholeCopies system action) (ran : step system action = .next next) :
    CleanStore next := by
  unfold step at ran
  split at ran
  · rename_i program isProgram
    have returned := System.attempt_eq_next ran
    cases action with
    | call pid request =>
      simp only [Action.program] at isProgram
      split at isProgram
      · split at isProgram
        · cases isProgram
          exact (wp_of_run returned).mp (keeps_run system clean)
        · cases isProgram
      · cases isProgram
    | resume pid =>
      simp only [Action.program] at isProgram
      simp only [WholeCopies] at whole
      split at isProgram
      · cases isProgram
      · rename_i isPending
        rw [isPending] at whole
        cases isProgram
        exact (wp_of_run returned).mp (continueWrite_clean clean whole)
      · cases isProgram
        exact (wp_of_run returned).mp (keeps_continueExit system clean)
    | evict blockno =>
      cases isProgram
      have kept : Keeps CleanStore (modify fun system : System =>
          { system with store := Fs.evict system.store blockno } : Sys PUnit) :=
        keeps_modify fun _ isClean => Clean.evict isClean blockno
      exact (wp_of_run returned).mp (kept system clean)
  · cases ran

/-- Whenever no operation is outstanding every buffer has the contents of its
home block, and eviction changes nothing, if every copy that fails has copied
nothing. -/
theorem buffers_agree_with_home {start final : System} {schedule : List Action}
    (clean : CleanStore start) (whole : Meets step WholeCopies start schedule)
    (reached : exec step start schedule = .next final) :
    (final.store.inOp = false → final.store.logged = []) ∧ final.store.home = final.store.blocks ∧
      ∀ blockno, (evict final.store blockno).blocks = final.store.blocks := by
  have stillClean : CleanStore final :=
    exec_invariant CleanStore (fun _ _ _ => step_clean) clean whole reached
  exact ⟨stillClean.settled, stillClean.home, stillClean.blocks_evict⟩

theorem Sample.clean : CleanStore Sample.system := by
  constructor
  · intro blockno home impossible
    cases impossible
  · intro _
    rfl

/-- One page of user memory; the next one is not mapped. -/
def onePage : UserMemory
  | 0 => some fun position => UInt8.ofNat (65 + position / BSIZE)
  | _ => none

/-- A file of one block is made, and opened again. -/
def makeFile : List Action :=
  [.call 0 (.open (some [102]) (O_CREATE ||| O_RDWR)), .call 0 (.write 0 onePage 0 BSIZE),
   .resume 0, .resume 0, .call 0 (.close 0), .call 0 (.open (some [102]) O_RDWR)]

theorem buffers_agree_with_home_makeFile : ∃ final,
    exec step Sample.system makeFile = .next final ∧ final.store.home = final.store.blocks := by
  have whole : Meets step WholeCopies Sample.system makeFile := by
    decide +kernel
  refine Outcome.next_and (by decide +kernel) fun final reached => ?_
  exact (buffers_agree_with_home Sample.clean whole reached).2.1

/-- The first half of the block is written from the end of the page, and then
the copy fails. -/
def writeAcrossPage : List Action :=
  makeFile ++ [.call 0 (.write 0 onePage (PGSIZE - BSIZE / 2) BSIZE), .resume 0, .resume 0]

/-- The buffer differs from its home block, and eviction brings the old bytes
back. -/
theorem writeAcrossPage_not_logged : ∃ final,
    exec step Sample.system writeAcrossPage = .next final ∧
      final.store.inOp = false ∧ (final.store.home 37).get 0 = 65 ∧
      (final.store.blocks 37).get 0 = 68 ∧ ((evict final.store 37).blocks 37).get 0 = 65 := by
  decide +kernel

end Fs
end Xv6
