import Xv6.Foundation.Run
import Xv6.Fs.Directory

namespace Xv6
namespace Fs

open Foundation Function
open Buffer (Block Pid Stop)

/-!
# File-system system calls

`kernel/sysfile.c`, `kernel/file.c`, and the parts of `kernel/pipe.c`,
`kernel/exec.c` and `kernel/proc.c` that use files and inodes.  The calls that
touch no file table are programs over the store; the others run on the whole
system, which has the file table, the pages of the pipes and, for each process,
its working directory and its open files.

A step of the system is one transaction.  A call that consists of several,
`write` and `exit`, leaves in the process how far it has come, and goes on in
later steps; the steps of other processes may come between.

What a call fetches from user memory or gets from `kalloc` is an argument of
the call.  The data in pipes, the devices and the memory of a program are not
modelled.
-/

/-! ## Calls without the file table -/

/-- The label `bad` of `sys_link`. -/
def linkBad (ip : Index) : Kernel Int := do
  ilock ip
  setDinode ip fun dinode => { dinode with nlink := dinode.nlink - 1 }
  iupdate ip
  iunlockput ip
  endOp
  return -1

/-- `sys_link` after the old inode is found and counted. -/
def linkNew (cwd ip : Index) (new : Path) : Kernel Int := do
  match ← nameiparent cwd new with
  | none => linkBad ip
  | some (dp, name) =>
    ilock dp
    let linked ← dirlink dp name ((← get).icache ip).inum
    if linked < 0 then
      iunlockput dp
      linkBad ip
    else
      iunlockput dp
      iput ip
      endOp
      return 0

/-- `sys_link`.  A path that `argstr` cannot fetch is missing. -/
def sysLink (cwd : Index) : (old new : Option Path) → Kernel Int
  | some old, some new => do
      beginOp
      match ← namei cwd old with
      | none =>
        endOp
        return -1
      | some ip =>
        ilock ip
        if ((← get).icache ip).dinode.type = T_DIR then
          iunlockput ip
          endOp
          return -1
        else
          setDinode ip fun dinode => { dinode with nlink := dinode.nlink + 1 }
          iupdate ip
          iunlock ip
          linkNew cwd ip new
  | _, _ => return -1

/-- The loop of `isdirempty`. -/
def isdiremptyFrom (dp : Index) : (off fuel : Nat) → Kernel Bool
  | _, 0 => return true
  | off, fuel + 1 => do
      if off < ((← get).icache dp).dinode.size.toNat then
        let de ← readDirent dp off .isdiremptyReadi
        if de.inum ≠ 0 then return false
        else isdiremptyFrom dp (off + direntSize) fuel
      else return true

/-- `isdirempty`: are there no entries but the first two? -/
def isdirempty (dp : Index) : Kernel Bool := do
  let size := ((← get).icache dp).dinode.size.toNat
  isdiremptyFrom dp (2 * direntSize) (size / direntSize + 1)

/-- `ip->type == T_DIR && !isdirempty(ip)`. -/
def isFullDirectory (ip : Index) : Kernel Bool := do
  if ((← get).icache ip).dinode.type = T_DIR then return !(← isdirempty ip) else return false

/-- The label `bad` of `sys_unlink`. -/
def unlinkBad (dp : Index) : Kernel Int := do
  iunlockput dp
  endOp
  return -1

/-- Drop the link that `".."` of a removed directory was. -/
def unlinkDotdot (dp ip : Index) : Kernel PUnit := do
  if ((← get).icache ip).dinode.type = T_DIR then
    setDinode dp fun dinode => { dinode with nlink := dinode.nlink - 1 }
    iupdate dp
  else pure ⟨⟩

/-- `sys_unlink` once the entry and its inode are found and locked. -/
def unlinkEntry (dp ip : Index) (off : Nat) : Kernel Int := do
  if ((← get).icache ip).dinode.nlink.toInt < 1 then throw (.panic .unlinkNlink)
  else if ← isFullDirectory ip then
    iunlockput ip
    unlinkBad dp
  else
    let written ← writei dp (.kernel (Dirent.bytes Dirent.empty)) off direntSize
    if written ≠ direntSize then throw (.panic .unlinkWritei)
    else
      unlinkDotdot dp ip
      iunlockput dp
      setDinode ip fun dinode => { dinode with nlink := dinode.nlink - 1 }
      iupdate ip
      iunlockput ip
      endOp
      return 0

def sysUnlink (cwd : Index) : Option Path → Kernel Int
  | some path => do
      beginOp
      match ← nameiparent cwd path with
      | none =>
        endOp
        return -1
      | some (dp, name) =>
        ilock dp
        if name = dotName ∨ name = dotdotName then unlinkBad dp
        else
          match ← dirlookup dp name with
          | none => unlinkBad dp
          | some (ip, off) =>
            ilock ip
            unlinkEntry dp ip off
  | none => return -1

/-- The entries `"."` and `".."` of a new directory. -/
def createDots (dp ip : Index) (type : BitVec 16) : Kernel PUnit := do
  if type = T_DIR then
    setDinode dp fun dinode => { dinode with nlink := dinode.nlink + 1 }
    iupdate dp
    let dot ← dirlink ip dotName ((← get).icache ip).inum
    if dot < 0 then throw (.panic .createDots)
    else
      let dotdot ← dirlink ip dotdotName ((← get).icache dp).inum
      if dotdot < 0 then throw (.panic .createDots) else pure ⟨⟩
  else pure ⟨⟩

/-- `create` for a name that exists already. -/
def createFound (dp ip : Index) (type : BitVec 16) : Kernel (Option Index) := do
  iunlockput dp
  ilock ip
  let found := ((← get).icache ip).dinode.type
  if type = T_FILE ∧ (found = T_FILE ∨ found = T_DEVICE) then return some ip
  else
    iunlockput ip
    return none

/-- `create` for a new name. -/
def createNew (dp : Index) (name : Name) (type major minor : BitVec 16) :
    Kernel (Option Index) := do
  let ip ← ialloc type
  ilock ip
  setDinode ip fun dinode => { dinode with major := major, minor := minor, nlink := 1 }
  iupdate ip
  createDots dp ip type
  let linked ← dirlink dp name ((← get).icache ip).inum
  if linked < 0 then throw (.panic .createDirlink)
  else
    iunlockput dp
    return some ip

section

variable (cwd : Index)

/-- `create`.  The inode it returns is locked. -/
def create (path : Path) (type major minor : BitVec 16) : Kernel (Option Index) := do
  match ← nameiparent cwd path with
  | none => return none
  | some (dp, name) =>
    ilock dp
    match ← dirlookup dp name with
    | some (ip, _) => createFound dp ip type
    | none => createNew dp name type major minor

variable (path : Option Path)

/-- `sys_mkdir` and `sys_mknod` after their arguments are fetched. -/
def makeNode (type major minor : BitVec 16) : Kernel Int := do
  beginOp
  match path with
  | none =>
    endOp
    return -1
  | some path =>
    match ← create cwd path type major minor with
    | none =>
      endOp
      return -1
    | some ip =>
      iunlockput ip
      endOp
      return 0

def sysMkdir : Kernel Int :=
  makeNode cwd path T_DIR 0 0

def sysMknod (major minor : BitVec 16) : Kernel Int :=
  makeNode cwd path T_DEVICE major minor

/-- `sys_chdir`.  The result is the new working directory. -/
def sysChdir : Kernel (Option Index) := do
  beginOp
  match path with
  | none =>
    endOp
    return none
  | some path =>
    match ← namei cwd path with
    | none =>
      endOp
      return none
    | some ip =>
      ilock ip
      if ((← get).icache ip).dinode.type ≠ T_DIR then
        iunlockput ip
        endOp
        return none
      else
        iunlock ip
        iput cwd
        endOp
        return some ip

end

/-- The calls of `readi` that `exec` makes, with the offset and the number of
bytes of each.  Which ones they are depends on what they read. -/
def execReads (ip : Index) : List (Nat × Nat) → Kernel PUnit
  | [] => pure ⟨⟩
  | (off, n) :: rest => do
      discard (readi ip .kernel off n)
      execReads ip rest

/-- The transaction of `exec`.  It ends in the same way whether the program is
loaded or not. -/
def sysExec (cwd : Index) (path : Option Path) (reads : List (Nat × Nat)) : Kernel PUnit := do
  match path with
  | none => pure ⟨⟩
  | some path =>
    beginOp
    match ← namei cwd path with
    | none => endOp
    | some ip =>
      ilock ip
      execReads ip reads
      iunlockput ip
      endOp

/-! ## The file table and the processes -/

/-- The types of `struct file`. -/
inductive FileType where
  | none
  | pipe
  | inode
  | device
deriving DecidableEq, Repr

abbrev FileIndex := Fin NFILE

/-- `struct file`.  The pipe is the page that holds it. -/
structure File where
  type : FileType
  ref : Int
  readable : Bool
  writable : Bool
  pipe : Nat
  ip : Index
  off : Nat
  major : BitVec 16

/-- The ends of a `struct pipe` in a page of memory, and how often `pipealloc`
has got the page from `kalloc` and `pipeclose` has passed it to `kfree`. -/
structure PipePage where
  readopen : Bool
  writeopen : Bool
  allocs : Nat
  frees : Nat
deriving DecidableEq, Repr

/-- A call of several transactions that has not returned. -/
inductive Pending where
  | idle
  | writing (file : FileIndex) (memory : UserMemory) (address : Nat) (n : Int) (i : Nat)
  | exiting (fd : Nat)

/-- The fields of `struct proc` that the calls use.  A slot without a working
directory has no process that can make calls. -/
structure Process where
  cwd : Option Index
  ofile : Fin NOFILE → Option FileIndex
  pending : Pending

structure System where
  store : Store
  ftable : FileIndex → File
  pipes : Nat → PipePage
  procs : Pid → Process

abbrev Sys := EStateM Stop System

/-- Run a program of the store. -/
def onStore {α : Type} (program : Kernel α) : Sys α := fun system =>
  match program system.store with
  | .ok value store => .ok value { system with store := store }
  | .error stop store => .error stop { system with store := store }

theorem wp_onStore {α : Type} (program : Kernel α) {system : System}
    {returns : α → System → Prop} {stops : Stop → System → Prop} :
    Wp (onStore program) system returns stops ↔
      Wp program system.store (fun value store => returns value { system with store := store })
        fun stop store => stops stop { system with store := store } := by
  unfold Wp onStore EStateM.run
  dsimp only
  cases program system.store <;> rfl

def setFile (file : FileIndex) (update : File → File) : Sys PUnit :=
  modify fun system =>
    { system with ftable := Function.update system.ftable file (update (system.ftable file)) }

def setPage (page : Nat) (update : PipePage → PipePage) : Sys PUnit :=
  modify fun system =>
    { system with pipes := Function.update system.pipes page (update (system.pipes page)) }

section

variable (pid : Pid)

def setProcess (update : Process → Process) : Sys PUnit :=
  modify fun system =>
    { system with procs := Function.update system.procs pid (update (system.procs pid)) }

def setFd (fd : Fin NOFILE) (file : Option FileIndex) : Sys PUnit :=
  setProcess pid fun process => { process with ofile := update process.ofile fd file }

/-- `argfd`. -/
def argfd (process : Process) (fd : Nat) : Option (Fin NOFILE × FileIndex) :=
  if inside : fd < NOFILE then (process.ofile ⟨fd, inside⟩).map fun file => (⟨fd, inside⟩, file)
  else none

def filealloc : Sys (Option FileIndex) := do
  let system ← get
  match (List.finRange NFILE).find? fun file => decide ((system.ftable file).ref = 0) with
  | some file =>
    setFile file fun entry => { entry with ref := 1 }
    return some file
  | none => return none

def fdalloc (file : FileIndex) : Sys (Option (Fin NOFILE)) := do
  let process := (← get).procs pid
  match (List.finRange NOFILE).find? fun fd => (process.ofile fd).isNone with
  | some fd =>
    setFd pid fd (some file)
    return some fd
  | none => return none

def filedup (file : FileIndex) : Sys PUnit := do
  if ((← get).ftable file).ref < 1 then throw (.panic .filedup)
  else setFile file fun entry => { entry with ref := entry.ref + 1 }

/-- One end of the pipe in a page is closed. -/
def PipePage.close (writable : Bool) (page : PipePage) : PipePage :=
  if writable then { page with writeopen := false } else { page with readopen := false }

/-- `kfree` of the page of a pipe: it is filled with ones. -/
def PipePage.kfree (page : PipePage) : PipePage :=
  { page with readopen := true, writeopen := true, frees := page.frees + 1 }

def pipeclose (page : Nat) (writable : Bool) : Sys PUnit :=
  setPage page fun entry =>
    let entry := entry.close writable
    if entry.readopen = false ∧ entry.writeopen = false then entry.kfree else entry

/-- The transaction of `fileclose` for the last reference. -/
def closeInode (ip : Index) : Kernel PUnit := do
  beginOp
  iput ip
  endOp

def fileclose (file : FileIndex) : Sys PUnit := do
  let entry := (← get).ftable file
  if entry.ref < 1 then throw (.panic .fileclose)
  else if entry.ref - 1 > 0 then setFile file fun entry => { entry with ref := entry.ref - 1 }
  else
    setFile file fun entry => { entry with ref := 0, type := .none }
    match entry.type with
    | .pipe => pipeclose entry.pipe entry.writable
    | .inode | .device => onStore (closeInode entry.ip)
    | .none => pure ⟨⟩

/-! ## Calls with the file table -/

def O_RDONLY : Nat := 0x000

def O_WRONLY : Nat := 0x001

def O_RDWR : Nat := 0x002

def O_CREATE : Nat := 0x200

def O_TRUNC : Nat := 0x400

/-- The part of `sys_open` that finds the inode, and returns it locked. -/
def openInode (cwd : Index) (path : Path) (omode : Nat) : Kernel (Option Index) := do
  if omode &&& O_CREATE ≠ 0 then create cwd path T_FILE 0 0
  else
    match ← namei cwd path with
    | none => return none
    | some ip =>
      ilock ip
      if ((← get).icache ip).dinode.type = T_DIR ∧ omode ≠ O_RDONLY then
        iunlockput ip
        return none
      else return some ip

/-- A failure of `sys_open` after the inode is found. -/
def openBad (ip : Index) : Kernel Int := do
  iunlockput ip
  endOp
  return -1

/-- The last part of `sys_open` on the inode. -/
def openTruncate (ip : Index) (omode : Nat) : Kernel PUnit := do
  if omode &&& O_TRUNC ≠ 0 ∧ ((← get).icache ip).dinode.type = T_FILE then itrunc ip else pure ⟨⟩
  iunlock ip
  endOp

/-- The assignments to the new `struct file`. -/
def openFile (inode : Inode) (ip : Index) (omode : Nat) (entry : File) : File :=
  let entry := { entry with
    ip := ip
    readable := decide (omode &&& O_WRONLY = 0)
    writable := decide (omode &&& O_WRONLY ≠ 0 ∨ omode &&& O_RDWR ≠ 0) }
  if inode.dinode.type = T_DEVICE then { entry with type := .device, major := inode.dinode.major }
  else { entry with type := .inode, off := 0 }

/-- `sys_open` once the inode is found and locked. -/
def openFound (ip : Index) (omode : Nat) : Sys Int := do
  let inode := (← get).store.icache ip
  if inode.dinode.type = T_DEVICE ∧
      (inode.dinode.major.toInt < 0 ∨ inode.dinode.major.toInt ≥ NDEV) then onStore (openBad ip)
  else
    match ← filealloc with
    | none => onStore (openBad ip)
    | some file =>
      match ← fdalloc pid file with
      | none =>
        fileclose file
        onStore (openBad ip)
      | some fd =>
        setFile file (openFile inode ip omode)
        onStore (openTruncate ip omode)
        return fd.val

def sysOpen (cwd : Index) (path : Option Path) (omode : Nat) : Sys Int := do
  match path with
  | none => return -1
  | some path =>
    onStore beginOp
    match ← onStore (openInode cwd path omode) with
    | none =>
      onStore endOp
      return -1
    | some ip => openFound pid ip omode

def sysDup (fd : Nat) : Sys Int := do
  match argfd ((← get).procs pid) fd with
  | none => return -1
  | some (_, file) =>
    match ← fdalloc pid file with
    | none => return -1
    | some new =>
      filedup file
      return new.val

def sysClose (fd : Nat) : Sys Int := do
  match argfd ((← get).procs pid) fd with
  | none => return -1
  | some (slot, file) =>
    setFd pid slot none
    fileclose file
    return 0

/-- The assignments of `pipealloc` to the page. -/
def PipePage.kalloc (page : PipePage) : PipePage :=
  { page with readopen := true, writeopen := true, allocs := page.allocs + 1 }

/-- The assignments of `pipealloc` to one of its files. -/
def pipeFile (page : Nat) (writable : Bool) (entry : File) : File :=
  { entry with type := .pipe, readable := !writable, writable := writable, pipe := page }

/-- `pipealloc`, with the page that `kalloc` has returned. -/
def pipealloc (page : Option Nat) : Sys (Option (FileIndex × FileIndex)) := do
  match ← filealloc with
  | none => return none
  | some f0 =>
    match ← filealloc with
    | none =>
      fileclose f0
      return none
    | some f1 =>
      match page with
      | none =>
        fileclose f0
        fileclose f1
        return none
      | some page =>
        setPage page PipePage.kalloc
        setFile f0 (pipeFile page false)
        setFile f1 (pipeFile page true)
        return some (f0, f1)

/-- A failure of `sys_pipe` after the pipe is allocated. -/
def pipeBad (rf wf : FileIndex) : Sys Int := do
  fileclose rf
  fileclose wf
  return -1

/-- `sys_pipe`.  The last argument says if `copyout` copies the descriptors. -/
def sysPipe (page : Option Nat) (copied : Bool) : Sys Int := do
  match ← pipealloc page with
  | none => return -1
  | some (rf, wf) =>
    match ← fdalloc pid rf with
    | none => pipeBad rf wf
    | some fd0 =>
      match ← fdalloc pid wf with
      | none =>
        setFd pid fd0 none
        pipeBad rf wf
      | some fd1 =>
        if copied then return 0
        else
          setFd pid fd0 none
          setFd pid fd1 none
          pipeBad rf wf

/-- The child shares an open file of its parent. -/
def forkFile (parent : Process) (child : Pid) (fd : Fin NOFILE) : Sys PUnit :=
  match parent.ofile fd with
  | none => pure ⟨⟩
  | some file => do
      filedup file
      setFd child fd (some file)

/-- The loop of `fork` over the open files of the parent. -/
def forkFiles (parent : Process) (child : Pid) : List (Fin NOFILE) → Sys PUnit
  | [] => pure ⟨⟩
  | fd :: rest => do
      forkFile parent child fd
      forkFiles parent child rest

/-- `fork` into a slot that `allocproc` has found. -/
def sysFork (cwd : Index) (child : Pid) : Sys PUnit := do
  forkFiles ((← get).procs pid) child (List.finRange NOFILE)
  onStore (idup cwd)
  setProcess child fun process => { process with cwd := some cwd }

/-- The addresses of a range get new bytes.  Addresses have 64 bits. -/
def UserMemory.write (memory : UserMemory) (address : Nat) (bytes : List UInt8) :
    UserMemory := fun number =>
  (memory number).map fun page offset =>
    let position := (number * PGSIZE + offset + 2 ^ 64 - address % 2 ^ 64) % 2 ^ 64
    bytes.getD position (page offset)

/-- `if (r > 0) f->off += r`. -/
def advance (file : FileIndex) (r : Int) : Sys PUnit :=
  if r > 0 then setFile file fun entry => { entry with off := (entry.off + r.toNat) % 2 ^ 32 }
  else pure ⟨⟩

/-- `fileread`.  It gives the result, and the memory of the process with the
bytes that were copied to it.  `n` is converted to 32 bits without sign. -/
def fileread (file : FileIndex) (memory : UserMemory) (address : Nat) (n : Int) :
    Sys (Int × UserMemory) := do
  let entry := (← get).ftable file
  if entry.readable = false then return (-1, memory)
  else
    match entry.type with
    | .inode =>
      onStore (ilock entry.ip)
      let off := ((← get).ftable file).off
      let (r, bytes) ← onStore (readi entry.ip (.user memory address) off (n % 2 ^ 32).toNat)
      advance file r
      onStore (iunlock entry.ip)
      return (r, memory.write address bytes)
    | .pipe | .device => return (-1, memory)
    | .none => throw (.panic .fileread)

/-- `sys_read`. -/
def sysRead (fd : Nat) (memory : UserMemory) (address : Nat) (n : Int) : Sys Int := do
  match argfd ((← get).procs pid) fd with
  | none => return -1
  | some (_, file) =>
    let (r, _) ← fileread file memory address n
    return r

/-- `sys_fstat` as far as the inode is concerned. -/
def sysFstat (fd : Nat) : Sys Int := do
  let system ← get
  match argfd (system.procs pid) fd with
  | none => return -1
  | some (_, file) =>
    let entry := system.ftable file
    match entry.type with
    | .inode | .device =>
      onStore (ilock entry.ip)
      onStore (iunlock entry.ip)
      return 0
    | .pipe | .none => return -1

/-- The most that one transaction of `filewrite` writes. -/
def maxChunk : Nat := (MAXOPBLOCKS - 1 - 1 - 2) / 2 * BSIZE

/-- One round of the loop in `filewrite`.  The result is that of `writei`. -/
def filewriteChunk (file : FileIndex) (memory : UserMemory) (address n1 : Nat) : Sys Int := do
  onStore beginOp
  let ip := ((← get).ftable file).ip
  onStore (ilock ip)
  let off := ((← get).ftable file).off
  let written ← onStore (writei ip (.user memory address) off n1)
  advance file written
  onStore (iunlock ip)
  onStore endOp
  return written

/-- `sys_write`. -/
def sysWrite (fd : Nat) (memory : UserMemory) (address : Nat) (n : Int) : Sys Int := do
  let system ← get
  match argfd (system.procs pid) fd with
  | none => return -1
  | some (_, file) =>
    let entry := system.ftable file
    if entry.writable = false then return -1
    else
      match entry.type with
      | .inode =>
        setProcess pid fun process =>
          { process with pending := .writing file memory address n 0 }
        return 0
      | .pipe | .device => return -1
      | .none => throw (.panic .filewrite)

/-- The test and the body of the loop in `filewrite`. -/
def continueWrite (file : FileIndex) (memory : UserMemory) (address : Nat) (n : Int)
    (i : Nat) : Sys PUnit := do
  if (i : Int) < n then
    let n1 := min (n - i).toNat maxChunk
    let written ← filewriteChunk file memory ((address + i) % 2 ^ 64) n1
    if written < 0 then setProcess pid fun process => { process with pending := .idle }
    else if written ≠ n1 then throw (.panic .shortFilewrite)
    else
      setProcess pid fun process =>
        { process with pending := .writing file memory address n (i + n1) }
  else setProcess pid fun process => { process with pending := .idle }

/-- The body of the loop in `exit`. -/
def exitFile (fd : Fin NOFILE) : Sys PUnit := do
  match ((← get).procs pid).ofile fd with
  | none => pure ⟨⟩
  | some file =>
    fileclose file
    setFd pid fd none

/-- `iput(p->cwd)` in a transaction of its own. -/
def exitCwd : Sys PUnit := do
  match ((← get).procs pid).cwd with
  | none => pure ⟨⟩
  | some cwd =>
    onStore beginOp
    onStore (iput cwd)
    onStore endOp

/-- One round of the loop in `exit`, or what follows it. -/
def continueExit (fd : Nat) : Sys PUnit := do
  if inside : fd < NOFILE then
    exitFile pid ⟨fd, inside⟩
    setProcess pid fun process => { process with pending := .exiting (fd + 1) }
  else
    exitCwd pid
    setProcess pid fun process => { process with cwd := none, pending := .idle }

/-! ## Steps -/

/-- The system calls with their arguments. -/
inductive Call where
  | open (path : Option Path) (omode : Nat)
  | mkdir (path : Option Path)
  | mknod (path : Option Path) (major minor : BitVec 16)
  | link (old new : Option Path)
  | unlink (path : Option Path)
  | chdir (path : Option Path)
  | exec (path : Option Path) (reads : List (Nat × Nat))
  | dup (fd : Nat)
  | close (fd : Nat)
  | pipe (page : Option Nat) (copied : Bool)
  | fstat (fd : Nat)
  | read (fd : Nat) (memory : UserMemory) (address : Nat) (n : Int)
  | write (fd : Nat) (memory : UserMemory) (address : Nat) (n : Int)
  | fork (child : Pid)
  | exit

/-- The first transaction of a call, for a process with a working directory.
The first process is `initproc`. -/
def Call.run (cwd : Index) : Call → Sys PUnit
  | .open path omode => do discard (sysOpen pid cwd path omode)
  | .mkdir path => do discard (onStore (sysMkdir cwd path))
  | .mknod path major minor => do discard (onStore (sysMknod cwd path major minor))
  | .link old new => do discard (onStore (sysLink cwd old new))
  | .unlink path => do discard (onStore (sysUnlink cwd path))
  | .chdir path => do
      match ← onStore (sysChdir cwd path) with
      | none => pure ⟨⟩
      | some new => setProcess pid fun process => { process with cwd := some new }
  | .exec path reads => onStore (sysExec cwd path reads)
  | .dup fd => do discard (sysDup pid fd)
  | .close fd => do discard (sysClose pid fd)
  | .pipe page copied => do discard (sysPipe pid page copied)
  | .fstat fd => do discard (sysFstat pid fd)
  | .read fd memory address n => do discard (sysRead pid fd memory address n)
  | .write fd memory address n => do discard (sysWrite pid fd memory address n)
  | .fork child => sysFork pid cwd child
  | .exit =>
    if pid = 0 then throw (.panic .initExiting)
    else setProcess pid fun process => { process with pending := .exiting 0 }

end

/-- A process makes a call, a call goes on, or a buffer is evicted. -/
inductive Action where
  | call (pid : Pid) (request : Call)
  | resume (pid : Pid)
  | evict (blockno : Nat)

namespace System

def attempt (system : System) (program : Sys PUnit) : Outcome Panic System :=
  match program.run system with
  | .ok _ after => .next after
  | .error .asleep _ => .blocked
  | .error (.panic reason) _ => .halted reason

theorem attempt_eq_next {system next : System} {program : Sys PUnit}
    (ran : system.attempt program = .next next) : program.run system = .ok ⟨⟩ next := by
  unfold attempt at ran
  split at ran
  · cases ran
    assumption
  · cases ran
  · cases ran

theorem attempt_eq_halted {system : System} {program : Sys PUnit} {reason : Panic}
    (ran : system.attempt program = .halted reason) :
    ∃ after, program.run system = .error (.panic reason) after := by
  unfold attempt at ran
  split at ran
  · cases ran
  · cases ran
  · cases ran
    exact ⟨_, by assumption⟩

/-- The slot that `allocproc` has found for `fork` has no process, the page
that `kalloc` has returned for a pipe is free, the path that `argstr` has
fetched ends before its first zero, and `exec` reads ranges of 32 bits. -/
def Admits (system : System) : Call → Prop
  | .fork child => (system.procs child).cwd = none
  | .pipe page _ => ∀ page' ∈ page, (system.pipes page').allocs = (system.pipes page').frees
  | .open path _ | .mkdir path | .mknod path _ _ | .unlink path | .chdir path => ∀ p ∈ path, 0 ∉ p
  | .exec path reads =>
    (∀ p ∈ path, 0 ∉ p) ∧ ∀ read ∈ reads, read.1 < 2 ^ 32 ∧ read.2 < 2 ^ 32
  | .link old new => (∀ p ∈ old, 0 ∉ p) ∧ ∀ p ∈ new, 0 ∉ p
  | .dup _ | .close _ | .fstat _ | .read .. | .write .. | .exit => True

instance (system : System) (request : Call) : Decidable (system.Admits request) :=
  match request with
  | .fork child => inferInstanceAs (Decidable ((system.procs child).cwd = none))
  | .pipe page _ => inferInstanceAs (Decidable (∀ page' ∈ page, _ = _))
  | .open path _ | .mkdir path | .mknod path _ _ | .unlink path | .chdir path =>
    inferInstanceAs (Decidable (∀ p ∈ path, 0 ∉ p))
  | .exec path reads => inferInstanceAs (Decidable ((∀ p ∈ path, 0 ∉ p) ∧ ∀ read ∈ reads, _ ∧ _))
  | .link old new => inferInstanceAs (Decidable ((∀ p ∈ old, 0 ∉ p) ∧ ∀ p ∈ new, 0 ∉ p))
  | .dup _ | .close _ | .fstat _ | .read .. | .write .. | .exit => .isTrue trivial

end System

/-- The program of a step, unless the step is not possible. -/
def Action.program (system : System) : Action → Option (Sys PUnit)
  | .call pid request =>
    match (system.procs pid).cwd, (system.procs pid).pending with
    | some cwd, .idle => if system.Admits request then some (request.run pid cwd) else none
    | _, _ => none
  | .resume pid =>
    match (system.procs pid).pending with
    | .idle => none
    | .writing file memory address n i => some (continueWrite pid file memory address n i)
    | .exiting fd => some (continueExit pid fd)
  | .evict blockno =>
    some (modify fun system => { system with store := Fs.evict system.store blockno })

def step (system : System) (action : Action) : Outcome Panic System :=
  match action.program system with
  | some program => system.attempt program
  | none => .blocked

end Fs
end Xv6
