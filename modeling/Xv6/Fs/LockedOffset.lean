import Xv6.Fs.SharedOffset

namespace Xv6
namespace Fs

open Foundation Function
open Buffer (Block Pid Stop)

/-!
# A shared file offset, step by step

A chunk is taken apart at the points where other processes may run: up to
`ilock`, the read of `f->off`, the transfer, the update of `f->off`, and from
`iunlock` on are steps of their own.  Between them any other process may begin a
call, return from one, or try to lock the inode.  The offset that a call passes to
`readi` or `writei` is still the one that it adds to, because the inode is locked
in all of these states and `ilock` lets nobody else in.  So every run does what
some order of whole chunks does.
-/

/-! ## The pieces of a call -/

/-- A call of `fileread`, or a round of the loop in `filewrite`. -/
inductive Job where
  | read (fd : Nat) (memory : UserMemory) (address : Nat) (n : Int)
  | write (memory : UserMemory) (address : Nat) (n : Int) (i : Nat)

namespace Job

/-- The step that does the whole call without a break. -/
def action (pid : Pid) : Job → Action
  | .read fd memory address n => .call pid (.read fd memory address n)
  | .write .. => .resume pid

/-- Up to `ilock`. -/
def lock (ip : Index) : Job → Kernel PUnit
  | .read .. => ilock ip
  | .write .. => do
    beginOp
    ilock ip

/-- `readi` or `writei` at the offset in a local variable. -/
def transfer (ip : Index) (off : Nat) : Job → Kernel Int
  | .read _ memory address n => do
    let read ← readi ip (.user memory address) off (n % 2 ^ 32).toNat
    return (read.1 : Int)
  | .write memory address n i =>
    writei ip (.user memory ((address + i) % 2 ^ 64)) off (min (n - i).toNat maxChunk)

/-- From `iunlock` on, to the end of the call or to the next test of the loop. -/
def leave (file : FileIndex) (pid : Pid) (ip : Index) (r : Int) : Job → Sys PUnit
  | .read .. => onStore (iunlock ip)
  | .write memory address n i => do
    onStore (iunlock ip)
    onStore endOp
    if r < 0 then setProcess pid fun process => { process with pending := .idle }
    else if r ≠ min (n - i).toNat maxChunk then throw (.panic .shortFilewrite)
    else
      setProcess pid fun process =>
        { process with pending := .writing file memory address n (i + min (n - i).toNat maxChunk) }

/-- The chunk of a call that has transferred `r` bytes at an offset. -/
def chunk (pid : Pid) (off : Nat) (r : Int) : Job → Option Chunk
  | .read .. => if 0 < r then some ⟨pid, off, r.toNat, none⟩ else none
  | .write memory address _ i =>
    if 0 < r then
      some ⟨pid, off, r.toNat, some (userBytes memory ((address + i) % 2 ^ 64) r.toNat)⟩
    else none

end Job

/-- The process and the call that a step is about to do under the lock, if
any. -/
def jobOf (file : FileIndex) (system : System) : Action → Option (Pid × Job)
  | .call pid (.read fd memory address n) =>
    if (system.ftable file).readable = true then some (pid, .read fd memory address n) else none
  | .resume pid =>
    match (system.procs pid).pending with
    | .writing _ memory address n i =>
      if (i : Int) < n then some (pid, .write memory address n i) else none
    | _ => none
  | _ => none

/-- How far a process has got, with its local variables. -/
inductive Point where
  | out
  | locked (job : Job) (ip : Index)
  | fetched (job : Job) (ip : Index) (off : Nat)
  | transferred (job : Job) (ip : Index) (off : Nat) (r : Int)
  | moved (job : Job) (ip : Index) (off : Nat) (r : Int)

namespace Point

def isOut : Point → Bool
  | .out => true
  | _ => false

def job : Point → Option Job
  | .out => none
  | .locked job _ | .fetched job _ _ | .transferred job _ _ _ | .moved job _ _ _ => some job

end Point

/-- The system with the processes in the middle of their calls.  The last two
components record the chunks that are done, and the bytes that each process has
asked to be written. -/
structure Threads where
  system : System
  point : Pid → Point
  chunks : List Chunk
  requests : Pid → List UInt8

/-- A process begins a step of its own, or goes on with its call. -/
inductive Move where
  | begin (action : Action)
  | go (pid : Pid)

namespace Threads

def start (system : System) : Threads where
  system := system
  point := fun _ => .out
  chunks := []
  requests := fun _ => []

/-- Run a program on the system and continue with its result. -/
def attempt {α : Type} (threads : Threads) (program : Sys α)
    (continue' : α → System → Threads) : Outcome Panic Threads :=
  match program.run threads.system with
  | .ok value system => .next (continue' value system)
  | .error .asleep _ => .blocked
  | .error (.panic reason) _ => .halted reason

/-- A process goes to a point. -/
def goto (threads : Threads) (pid : Pid) (point : Point) (system : System) : Threads :=
  { threads with system := system, point := update threads.point pid point }

/-- The step does not belong to a process that is in the middle of a call. -/
def MayBegin (threads : Threads) : Action → Prop
  | .call pid _ | .resume pid => (threads.point pid).isOut = true
  | .evict _ => ∀ pid, (threads.point pid).isOut = true

instance (threads : Threads) : (action : Action) → Decidable (threads.MayBegin action)
  | .call pid _ | .resume pid => inferInstanceAs (Decidable ((threads.point pid).isOut = true))
  | .evict _ => inferInstanceAs (Decidable (∀ pid, (threads.point pid).isOut = true))

section

variable (file : FileIndex) (threads : Threads)

/-- A step without a call under the lock is done at once. -/
def begin (action : Action) : Outcome Panic Threads :=
  match action.program threads.system, jobOf file threads.system action with
  | none, _ => .blocked
  | some _, some (pid, job) =>
    let ip := (threads.system.ftable file).ip
    threads.attempt (onStore (job.lock ip)) fun _ => threads.goto pid (.locked job ip)
  | some program, none =>
    threads.attempt program fun _ system =>
      { threads with
        system := system
        requests := fun pid => threads.requests pid ++ requested file pid threads.system action }

/-- The next step of a call. -/
def go (pid : Pid) : Outcome Panic Threads :=
  match threads.point pid with
  | .out => .blocked
  | .locked job ip =>
    .next (threads.goto pid (.fetched job ip (threads.system.ftable file).off) threads.system)
  | .fetched job ip off =>
    threads.attempt (onStore (job.transfer ip off)) fun r => threads.goto pid (.transferred job ip off r)
  | .transferred job ip off r =>
    threads.attempt (advance file r) fun _ => threads.goto pid (.moved job ip off r)
  | .moved job ip off r =>
    threads.attempt (job.leave file pid ip r) fun _ system =>
      { threads.goto pid .out system with
        chunks := threads.chunks ++ (job.chunk pid off r).toList }

def step (move : Move) : Outcome Panic Threads :=
  match move with
  | .begin action => if threads.MayBegin action then threads.begin file action else .blocked
  | .go pid => threads.go file pid

/-- The step is part of a read or a write on the file. -/
def Shares (move : Move) : Prop :=
  match move with
  | .begin action => Fs.Shares file threads.system action
  | .go _ => True

end

instance (file : FileIndex) (threads : Threads) :
    (move : Move) → Decidable (threads.Shares file move)
  | .begin action => inferInstanceAs (Decidable (Fs.Shares file threads.system action))
  | .go _ => .isTrue trivial

variable {threads next : Threads}

theorem attempt_eq_next {α : Type} {program : Sys α} {continue' : α → System → Threads}
    (ran : threads.attempt program continue' = .next next) :
    ∃ value system, program.run threads.system = .ok value system ∧
      next = continue' value system := by
  unfold attempt at ran
  cases result : program.run threads.system with
  | ok value system =>
    rw [result] at ran
    cases ran
    exact ⟨value, system, rfl, rfl⟩
  | error stop system =>
    rw [result] at ran
    cases stop <;> cases ran

theorem point_goto_self {pid : Pid} {point : Point} {system : System} :
    (threads.goto pid point system).point pid = point :=
  update_self _ _ _

theorem point_goto_of_ne {pid other : Pid} (different : other ≠ pid) {point : Point}
    {system : System} : (threads.goto pid point system).point other = threads.point other :=
  update_of_ne different _ _

end Threads

/-! ## What a call has done so far -/

variable {file : FileIndex} {base system after : System} {pid : Pid} {ip : Index} {off : Nat}
  {r : Int} {job : Job} {point : Point} {store : Store}

/-- The entry of a file after `advance`. -/
def File.moved (entry : File) (r : Int) : File :=
  if r > 0 then { entry with off := (entry.off + r.toNat) % 2 ^ 32 } else entry

theorem advance_run : (advance file r).run system =
    .ok ⟨⟩ (system.withFile file ((system.ftable file).moved r)) := by
  rw [advance, File.moved]
  split
  · rfl
  · rw [System.withFile, update_eq_self]
    rfl

theorem onStore_run {α : Type} {program : Kernel α} {value : α} :
    (onStore program).run system = .ok value after ↔
      ∃ store, program.run system.store = .ok value store ∧ after = system.withStore store := by
  simp only [EStateM.run, onStore]
  cases program system.store with
  | ok found store => simp [System.withStore, eq_comm, and_comm]
  | error stop store => simp

/-- The call has locked the inode. -/
def Job.Locked (file : FileIndex) (base : System) (ip : Index) (store : Store) (job : Job) : Prop :=
  ip = (base.ftable file).ip ∧ (job.lock ip).run base.store = .ok ⟨⟩ store

/-- The call has transferred bytes at the offset that it has read. -/
def Job.Transferred (file : FileIndex) (base : System) (ip : Index) (off : Nat) (r : Int)
    (store : Store) (job : Job) : Prop :=
  off = (base.ftable file).off ∧
    ∃ locked, job.Locked file base ip locked ∧ (job.transfer ip off).run locked = .ok r store

/-- The system when a call has come to a point, by the one in which it has found
the inode unlocked. -/
def Point.Reached (file : FileIndex) (base system : System) : Point → Prop
  | .out => system = base
  | .locked job ip => ∃ store, job.Locked file base ip store ∧ system = base.withStore store
  | .fetched job ip off => ∃ store, (job.Locked file base ip store ∧
    off = (base.ftable file).off) ∧ system = base.withStore store
  | .transferred job ip off r =>
    ∃ store, job.Transferred file base ip off r store ∧ system = base.withStore store
  | .moved job ip off r => ∃ store, job.Transferred file base ip off r store ∧
    system = (base.withStore store).withFile file ((base.ftable file).moved r)

theorem Point.Reached.withProcess (reached : point.Reached file base system) (other : Pid)
    (process : Process) :
    point.Reached file (base.withProcess other process) (system.withProcess other process) := by
  cases point with
  | out =>
    rw [show system = base from reached]
    rfl
  | _ =>
    rcases reached with ⟨store, ran, rfl⟩
    exact ⟨store, ran, rfl⟩

/-- A call leaves the processes alone, and the file but for its offset. -/
theorem Point.Reached.same (reached : point.Reached file base system) :
    system.procs = base.procs ∧ (system.ftable file).ip = (base.ftable file).ip ∧
      (system.ftable file).type = (base.ftable file).type ∧
      (system.ftable file).readable = (base.ftable file).readable ∧
      (system.ftable file).writable = (base.ftable file).writable := by
  cases point with
  | out =>
    rw [show system = base from reached]
    exact ⟨rfl, rfl, rfl, rfl, rfl⟩
  | moved job ip off r =>
    rcases reached with ⟨store, _, rfl⟩
    rw [System.ftable_withFile_self, File.moved]
    split <;> exact ⟨rfl, rfl, rfl, rfl, rfl⟩
  | _ =>
    rcases reached with ⟨store, _, rfl⟩
    exact ⟨rfl, rfl, rfl, rfl, rfl⟩

/-- The call can be made. -/
def Job.Began (file : FileIndex) (base : System) (pid : Pid) : Job → Prop
  | .read fd _ _ _ => (base.procs pid).cwd ≠ none ∧ (base.procs pid).pending = .idle ∧
    (argfd (base.procs pid) fd).map Prod.snd = some file ∧ (base.ftable file).readable = true
  | .write memory address n i => (base.procs pid).pending = .writing file memory address n i ∧
    (i : Int) < n ∧ (base.ftable file).off + min (n - i).toNat maxChunk ≤ MAXFILE * BSIZE

theorem Job.Began.shares (began : job.Began file base pid) : Shares file base (job.action pid) := by
  cases job with
  | read fd memory address n => exact began.2.2.1
  | write memory address n i =>
    rw [Job.action, Shares, began.1]
    exact began.2.2

theorem Job.Began.withProcess (began : job.Began file base pid) {other : Pid}
    (different : pid ≠ other) (process : Process) :
    job.Began file (base.withProcess other process) pid := by
  cases job <;> rw [Job.Began, System.procs_withProcess_of_ne different] <;> exact began

/-! ## The lock -/

theorem Job.not_lock {value : PUnit} {locked : Store} (isLocked : store.locks ip = true) :
    (job.lock ip).run store ≠ .ok value locked := by
  have waits : ∀ store : Store, store.locks ip = true →
      Wp (ilock ip) store (fun _ _ => False) fun _ _ => True := by
    intro store isLocked
    simp only [ilock, wp_bind, wp_get, wp_ite]
    rw [show (store.icache ip).locked = true from isLocked]
    simp
  intro ran
  cases job with
  | read => exact returned ran (waits store isLocked)
  | write =>
    rcases run_bind_eq_ok.mp ran with ⟨_, begun, isBegun, ranIlock⟩
    cases isBegun
    exact returned ranIlock (waits _ isLocked)

section

variable (sharing : Sharing file base) (began : job.Began file base pid)
include sharing began

/-- The inode is locked until `iunlock`. -/
theorem Job.Locked.locks (locked : job.Locked file base ip store) : store.locks ip = true ∧
    ∀ {off r after}, off = (base.ftable file).off → (job.transfer ip off).run store = .ok r after →
      after.locks ip = true := by
  rcases locked with ⟨rfl, ran⟩
  have exact := sharing.kept.exact
  have isOpen : (base.ftable file).IsOpen := Or.inl sharing.isInode
  cases job with
  | read fd memory address n =>
    obtain rfl := (wp_of_run ran).mp (exact.ilock_wp isOpen)
    refine ⟨Store.locks_locking_self, ?_⟩
    rintro off r after rfl transferred
    rcases run_bind_eq_ok.mp transferred with ⟨read, final, ranReadi, isFinal⟩
    cases isFinal
    have reads := (wp_of_run ranReadi).mp (exact.readi_counts sharing.isInode)
    rw [reads.1]
    exact Store.locks_locking_self
  | write memory address n i =>
    rcases run_bind_eq_ok.mp ran with ⟨_, begun, isBegun, ranIlock⟩
    cases isBegun
    have unlocked : base.store.locks (base.ftable file).ip = false := by
      rw [exact.unlocked]
    have start : Consistent { base.store with inOp := true } := exact.consistent.unread
    have isLocked := returned ranIlock ((Fs.ilock_wp start.toIntact (exact.refs_pos isOpen)
      unlocked).mono (fun _ _ both => both.1) fun _ _ _ => trivial)
    rw [isLocked]
    refine ⟨Store.locks_locking_self, ?_⟩
    rintro off r after rfl transferred
    have small : min (n - i).toNat maxChunk < 2 ^ 32 :=
      Nat.lt_of_le_of_lt (Nat.min_le_right _ _) (by decide)
    rcases (sharing.kept.settled pid).writing _ _ _ _ _ began.1 with ⟨_, _, writable⟩
    have writes : Wp (writei (base.ftable file).ip (.user memory ((address + i) % 2 ^ 64))
        (base.ftable file).off (min (n - i).toNat maxChunk)) _ _ _ :=
      exact.writei_wp sharing.isInode writable small (False.elim : False → Shaped base.store)
    exact (returned transferred (writes.mono (fun _ _ => id) fun _ _ _ => trivial)).2.1

end

/-! ## A call is one step of the system -/

theorem step_of_run {action : Action} {program : Sys PUnit}
    (isProgram : action.program system = some program)
    (ran : Wp program system fun _ final => final = after) : step system action = .next after := by
  rcases wp_false_iff.mp ran with ⟨_, _, isRun, rfl⟩
  rw [step, isProgram]
  simp only [System.attempt, isRun]

/-- All the pieces of a call are the step that does the whole call. -/
theorem Job.Began.finish (sharing : Sharing file base) (began : job.Began file base pid)
    (reached : Point.Reached file base system (.moved job ip off r))
    (ran : (job.leave file pid ip r).run system = .ok ⟨⟩ after) :
    step base (job.action pid) = .next after ∧
      chunkOf file base (job.action pid) = job.chunk pid off r := by
  rcases reached with ⟨store, ⟨rfl, locked, ⟨rfl, ranLock⟩, ranTransfer⟩, isSystem⟩
  have isMoved : (advance file r).run (base.withStore store) = .ok ⟨⟩ system := by
    rw [isSystem]
    exact advance_run
  cases job with
  | read fd memory address n =>
    rcases began with ⟨works, idle, shared, readable⟩
    rcases Option.ne_none_iff_exists'.mp works with ⟨cwd, isCwd⟩
    rcases argfd_shared shared with ⟨slot, isFound⟩
    rcases run_bind_eq_ok.mp ranTransfer with ⟨read, final, ranReadi, isFinal⟩
    cases isFinal
    rw [Job.lock] at ranLock
    have whole : Wp (fileread file memory address n) base
        fun result final => result.1 = (read.1 : Int) ∧ final = after := by
      rw [wp_fileread sharing.isInode readable, wp_bind, wp_onStore, wp_of_run ranLock, wp_bind,
        wp_get, wp_bind, wp_onStore, wp_of_run ranReadi, wp_bind]
      refine (wp_of_run isMoved).mpr ?_
      rw [Job.leave] at ran
      rw [wp_bind, wp_of_run ran, wp_pure]
      exact ⟨rfl, rfl⟩
    rcases wp_false_iff.mp whole with ⟨⟨value, buffer⟩, final, ranRead, rfl, rfl⟩
    constructor
    · have isProgram : Action.program base (Job.action pid (.read fd memory address n)) =
          some (Call.run pid cwd (.read fd memory address n)) := by
        simp only [Job.action, Action.program, isCwd, idle]
        exact if_pos trivial
      apply step_of_run isProgram
      simp only [Call.run, sysRead, wp_discard, wp_bind, wp_get, isFound]
      rw [wp_of_run ranRead, wp_pure]
    · rw [Job.action, chunkOf, ranRead]
      rfl
  | write memory address n i =>
    rcases began with ⟨isPending, more, _⟩
    rcases run_bind_eq_ok.mp ranLock with ⟨_, begun, isBegun, ranIlock⟩
    cases isBegun
    rw [Job.transfer] at ranTransfer
    simp only [Job.leave, run_bind_eq_ok] at ran
    rcases ran with ⟨_, unlocked, ranUnlock, _, ended, ranEnd, ranRest⟩
    have whole : Wp (filewriteChunk file memory ((address + i) % 2 ^ 64)
        (min (n - i).toNat maxChunk)) base fun written final => written = r ∧ final = ended := by
      rw [filewriteChunk, wp_bind, wp_onStore, wp_beginOp, wp_bind, wp_get, wp_bind, wp_onStore,
        wp_of_run ranIlock, wp_bind, wp_get, wp_bind, wp_onStore, wp_of_run ranTransfer, wp_bind]
      refine (wp_of_run isMoved).mpr ?_
      rw [wp_bind]
      refine (wp_of_run ranUnlock).mpr ?_
      rw [wp_bind, wp_of_run ranEnd, wp_pure]
      exact ⟨rfl, rfl⟩
    rcases wp_false_iff.mp whole with ⟨written, final, ranChunk, rfl, rfl⟩
    constructor
    · have isProgram : Action.program base (Job.action pid (.write memory address n i)) =
          some (continueWrite pid file memory address n i) := by
        simp only [Job.action, Action.program, isPending]
      apply step_of_run isProgram
      rw [continueWrite, if_pos more, wp_bind, wp_of_run ranChunk]
      exact (wp_of_run ranRest).mpr rfl
    · rw [Job.action, chunkOf, isPending]
      simp only [if_pos more, ranChunk]
      rfl

/-! ## Steps without the lock -/

/-- What a process has become by a step that does not lock the inode. -/
def Action.leaves (file : FileIndex) (writable : Bool) (process : Process) : Action → Process
  | .call _ (.write _ memory address n) =>
    if writable = true then { process with pending := .writing file memory address n 0 } else process
  | .resume _ => { process with pending := .idle }
  | _ => process

theorem refused_of_jobOf {fd address : Nat} {memory : UserMemory} {n : Int}
    (noJob : jobOf file system (.call pid (.read fd memory address n)) = none) :
    (system.ftable file).readable = false := by
  rw [← Bool.not_eq_true]
  intro readable
  rw [jobOf, if_pos readable] at noJob
  cases noJob

theorem ended_of_jobOf {other : FileIndex} {memory : UserMemory} {address i : Nat} {n : Int}
    (isPending : (system.procs pid).pending = .writing other memory address n i)
    (noJob : jobOf file system (.resume pid) = none) : ¬ (i : Int) < n := by
  intro more
  rw [jobOf, isPending] at noJob
  simp only [if_pos more] at noJob
  cases noJob

theorem step_without_job {action : Action} {other : Pid} {program : Sys PUnit}
    (isInode : (system.ftable file).type = .inode) (writers : Writers file system)
    (isActor : action = .resume other ∨ ∃ request, action = .call other request)
    (shares : Shares file system action) (noJob : jobOf file system action = none)
    (isProgram : action.program system = some program) :
    step system action = .next (system.withProcess other
      (action.leaves file (system.ftable file).writable (system.procs other))) := by
  have unchanged : system.withProcess other (system.procs other) = system := by
    rw [System.withProcess, update_eq_self]
  apply step_of_run isProgram
  rcases isActor with rfl | ⟨request, rfl⟩
  · rcases writers other with idle | ⟨memory, address, n, i, isPending, _⟩
    · simp only [Action.program, idle] at isProgram
      cases isProgram
    · simp only [Action.program, isPending] at isProgram
      cases isProgram
      rw [continueWrite, if_neg (ended_of_jobOf isPending noJob), wp_setProcess]
      rfl
  · simp only [Action.program] at isProgram
    split at isProgram
    · split at isProgram
      · cases isProgram
        cases request with
        | read fd memory address n =>
          rcases argfd_shared shares with ⟨slot, isFound⟩
          have refused := refused_of_jobOf noJob
          simp only [Call.run, sysRead, wp_discard, wp_bind, wp_get, isFound, fileread, refused,
            if_true, wp_pure]
          exact unchanged.symm
        | write fd memory address n =>
          rcases argfd_shared shares.1 with ⟨slot, isFound⟩
          cases isWritable : (system.ftable file).writable with
          | false =>
            simp only [Call.run, sysWrite, wp_discard, wp_bind, wp_get, isFound, isWritable,
              if_true, wp_pure]
            exact unchanged.symm
          | true =>
            simp only [Call.run, sysWrite, wp_discard, wp_bind, wp_get, isFound, isWritable,
              Bool.true_eq_false, if_false, isInode, wp_setProcess, wp_pure]
            rfl
        | _ => cases shares
      · cases isProgram
    · cases isProgram

theorem chunkOf_without_job {action : Action} (noJob : jobOf file system action = none) :
    chunkOf file system action = none := by
  cases action with
  | call pid request =>
    cases request with
    | read fd memory address n =>
      have refused := refused_of_jobOf noJob
      have returns : Wp (fileread file memory address n) system fun result _ => result.1 = -1 := by
        simp only [fileread, wp_bind, wp_get, refused, if_true, wp_pure]
      rcases wp_false_iff.mp returns with ⟨⟨value, buffer⟩, final, ran, rfl⟩
      rw [chunkOf, ran]
      rfl
    | _ => rfl
  | resume pid =>
    cases isPending : (system.procs pid).pending with
    | writing other memory address n i =>
      rw [chunkOf, isPending]
      exact if_neg (ended_of_jobOf isPending noJob)
    | _ => rw [chunkOf, isPending]
  | evict => rfl

theorem program_of_procs {action : Action} {program : Sys PUnit} {other : Pid}
    (same : base.procs = system.procs)
    (isActor : action = .resume other ∨ ∃ request, action = .call other request)
    (shares : Shares file system action) (isProgram : action.program system = some program) :
    action.program base = some program := by
  rcases isActor with rfl | ⟨request, rfl⟩
  · rw [Action.program, same]
    exact isProgram
  · cases request with
    | read fd memory address n | write fd memory address n =>
      rw [Action.program, same]
      exact isProgram
    | _ => cases shares

theorem began_of_job {action : Action} {program : Sys PUnit} (writers : Writers file system)
    (shares : Shares file system action) (isProgram : action.program system = some program)
    (isJob : jobOf file system action = some (pid, job)) : job.Began file system pid := by
  cases action with
  | call caller request =>
    cases request with
    | read fd memory address n =>
      rw [jobOf] at isJob
      split at isJob
      · rename_i readable
        cases isJob
        simp only [Action.program] at isProgram
        split at isProgram
        · rename_i cwd isCwd isPending
          exact ⟨by rw [isCwd]; exact Option.some_ne_none cwd, isPending, shares, readable⟩
        · cases isProgram
      · cases isJob
    | _ => cases isJob
  | resume caller =>
    rcases writers caller with idle | ⟨memory, address, n, i, isPending, _⟩
    · rw [jobOf, idle] at isJob
      cases isJob
    · rw [jobOf, isPending] at isJob
      rw [Shares, isPending] at shares
      simp only at isJob
      split at isJob
      · rename_i more
        cases isJob
        exact ⟨isPending, more, shares⟩
      · cases isJob
  | evict => cases isJob

theorem jobOf_congr {action : Action} (procs : base.procs = system.procs)
    (readable : (base.ftable file).readable = (system.ftable file).readable) :
    jobOf file base action = jobOf file system action := by
  cases action with
  | call pid request => cases request <;> simp only [jobOf, readable]
  | resume pid => simp only [jobOf, procs]
  | evict => rfl

theorem requested_congr {action : Action}
    (writable : (system.ftable file).writable = (base.ftable file).writable) :
    requested file pid system action = requested file pid base action := by
  cases action with
  | call caller request => cases request <;> simp only [requested, writable]
  | _ => rfl

/-- A step without the lock is still one on the file before the call of another
process. -/
theorem Sharing.shares_without_job {action : Action} (sharing : Sharing file base)
    (procs : system.procs = base.procs) (noJob : jobOf file base action = none)
    (shares : Shares file system action) : Shares file base action := by
  cases action with
  | call caller request =>
    cases request with
    | read | write =>
      rw [Shares, procs] at shares
      exact shares
    | _ => cases shares
  | resume caller =>
    rw [Shares]
    split
    · rename_i isPending
      have ended := ended_of_jobOf isPending noJob
      have inside := sharing.inside
      have bounded := sharing.kept.exact.sizeOf_le sharing.isInode
      omega
    · trivial
  | evict => trivial

/-! ## The invariant -/

/-- The state of the processes, by the system before the call under the lock. -/
structure Linked (file : FileIndex) (start base : System) (threads : Threads) : Prop where
  sharing : Sharing file base
  transferred : Transferred file start base threads.chunks
  bytes : ∀ pid, (threads.chunks.filter (·.pid = pid)).flatMap Chunk.bytes ++ remaining base pid =
    threads.requests pid
  owner : ∃ pid, (threads.point pid).Reached file base threads.system ∧
    (∀ job, (threads.point pid).job = some job → job.Began file base pid) ∧
    ∀ other, other ≠ pid → threads.point other = .out

namespace Linked

variable {start : System} {threads next : Threads} {action : Action}
  (linked : Linked file start base threads)
include linked

/-- A step of the system with whole calls. -/
theorem whole (shares : Shares file base action) (stepped : step base action = .next after) :
    Sharing file after ∧
      Transferred file start after (threads.chunks ++ (chunkOf file base action).toList) ∧
      ∀ pid, ((threads.chunks ++ (chunkOf file base action).toList).filter (·.pid = pid)).flatMap
          Chunk.bytes ++ remaining after pid =
        threads.requests pid ++ requested file pid base action := by
  have advanced := linked.sharing.advanced shares stepped
  refine ⟨linked.sharing.next advanced stepped, linked.transferred.next advanced, fun pid => ?_⟩
  rw [List.filter_append, List.flatMap_append, List.append_assoc, advanced.bytes,
    ← List.append_assoc, linked.bytes]

theorem owner_of_busy (busy : (threads.point pid).isOut = false) :
    (threads.point pid).Reached file base threads.system ∧
      (∀ job, (threads.point pid).job = some job → job.Began file base pid) ∧
      ∀ other, other ≠ pid → threads.point other = .out := by
  rcases linked.owner with ⟨owner, reached, began, others⟩
  by_cases same : pid = owner
  · rw [same]
    exact ⟨reached, began, others⟩
  · rw [others pid same] at busy
    cases busy

/-- The inode is locked while a process is in a call. -/
theorem locks (busy : (threads.point pid).isOut = false) :
    threads.system.store.locks (threads.system.ftable file).ip = true := by
  rcases linked.owner_of_busy busy with ⟨reached, began, _⟩
  rw [reached.same.2.1]
  have sharing := linked.sharing
  generalize threads.point pid = point at busy reached began
  cases point with
  | out => cases busy
  | locked job ip =>
    rcases reached with ⟨store, locked, isSystem⟩
    rw [isSystem, ← locked.1]
    exact (locked.locks sharing (began job rfl)).1
  | fetched job ip off =>
    rcases reached with ⟨store, ⟨locked, _⟩, isSystem⟩
    rw [isSystem, ← locked.1]
    exact (locked.locks sharing (began job rfl)).1
  | transferred job ip off r =>
    rcases reached with ⟨store, ⟨isOff, before, locked, ran⟩, isSystem⟩
    rw [isSystem, ← locked.1]
    exact (locked.locks sharing (began job rfl)).2 isOff ran
  | moved job ip off r =>
    rcases reached with ⟨store, ⟨isOff, before, locked, ran⟩, isSystem⟩
    rw [isSystem, ← locked.1]
    exact (locked.locks sharing (began job rfl)).2 isOff ran

theorem goto (busy : (threads.point pid).isOut = false)
    (sameJob : point.job = (threads.point pid).job)
    (reached : point.Reached file base system) :
    Linked file start base (threads.goto pid point system) := by
  rcases linked.owner_of_busy busy with ⟨_, began, others⟩
  refine ⟨linked.sharing, linked.transferred, linked.bytes, pid, ?_, ?_, ?_⟩
  · rw [Threads.point_goto_self]
    exact reached
  · rw [Threads.point_goto_self, sameJob]
    exact began
  · intro other different
    rw [Threads.point_goto_of_ne different]
    exact others other different

/-- A call goes on by one step. -/
theorem go (ran : threads.go file pid = .next next) : ∃ base', Linked file start base' next := by
  have busy : (threads.point pid).isOut = false := by
    cases isPoint : threads.point pid with
    | out =>
      rw [Threads.go, isPoint] at ran
      cases ran
    | _ => rfl
  rcases linked.owner_of_busy busy with ⟨reached, began, others⟩
  unfold Threads.go at ran
  split at ran
  · cases ran
  · rename_i job ip isPoint
    cases ran
    rw [isPoint] at reached
    rcases reached with ⟨store, locked, isSystem⟩
    refine ⟨base, linked.goto busy (by rw [isPoint]; rfl) ⟨store, ⟨locked, ?_⟩, isSystem⟩⟩
    rw [isSystem]
    rfl
  · rename_i job ip off isPoint
    rw [isPoint] at reached
    rcases Threads.attempt_eq_next ran with ⟨r, after, transferred, rfl⟩
    rcases onStore_run.mp transferred with ⟨final, ranTransfer, rfl⟩
    rcases reached with ⟨store, ⟨locked, isOff⟩, isSystem⟩
    rw [isSystem] at ranTransfer
    refine ⟨base, linked.goto busy (by rw [isPoint]; rfl)
      ⟨final, ⟨isOff, store, locked, ranTransfer⟩, ?_⟩⟩
    rw [isSystem]
    rfl
  · rename_i job ip off r isPoint
    rw [isPoint] at reached
    rcases Threads.attempt_eq_next ran with ⟨_, after, moved, rfl⟩
    rw [advance_run] at moved
    cases moved
    rcases reached with ⟨store, transferred, isSystem⟩
    refine ⟨base, linked.goto busy (by rw [isPoint]; rfl) ⟨store, transferred, ?_⟩⟩
    rw [isSystem]
    rfl
  · rename_i job ip off r isPoint
    rw [isPoint] at reached began
    rcases Threads.attempt_eq_next ran with ⟨_, after, left, rfl⟩
    have isBegan := began job rfl
    rcases isBegan.finish linked.sharing reached left with ⟨stepped, isChunk⟩
    rcases linked.whole isBegan.shares stepped with ⟨sharing, transferred, bytes⟩
    rw [isChunk] at transferred bytes
    have nothing : ∀ other, requested file other base (job.action pid) = [] := by
      intro other
      cases job <;> rfl
    have isOut : (threads.goto pid .out after).point pid = .out := Threads.point_goto_self
    refine ⟨after, sharing, transferred, fun other => ?_, pid, ?_, ?_, ?_⟩
    · rw [bytes other, nothing, List.append_nil]
      rfl
    · exact isOut.symm ▸ (rfl : Point.Reached file after after .out)
    · intro job isJob
      rw [show Threads.point _ pid = .out from isOut] at isJob
      cases isJob
    · intro other different
      show (threads.goto pid .out after).point other = .out
      rw [Threads.point_goto_of_ne different]
      exact others other different

theorem system_eq (outside : (threads.point pid).isOut = true)
    (others : ∀ other, other ≠ pid → threads.point other = .out) : threads.system = base := by
  rcases linked.owner with ⟨owner, reached, _⟩
  have isOut : threads.point owner = .out := by
    by_cases same : owner = pid
    · rw [same]
      cases isPoint : threads.point pid with
      | out => rfl
      | _ =>
        rw [isPoint] at outside
        cases outside
    · exact others owner same
  rw [isOut] at reached
  exact reached

/-- A process locks the inode, and nobody was in a call. -/
theorem lock {program : Sys PUnit} {store : Store} (shares : Shares file threads.system action)
    (isProgram : action.program threads.system = some program)
    (isJob : jobOf file threads.system action = some (pid, job))
    (ran : (job.lock (threads.system.ftable file).ip).run threads.system.store = .ok ⟨⟩ store) :
    Linked file start base (threads.goto pid (.locked job (threads.system.ftable file).ip)
      (threads.system.withStore store)) := by
  have free : ∀ other, threads.point other = .out := by
    intro other
    cases isPoint : threads.point other with
    | out => rfl
    | _ => exact absurd ran (Job.not_lock (linked.locks (by rw [isPoint]; rfl)))
  have isBase : threads.system = base :=
    linked.system_eq (by rw [free pid]; rfl) fun other _ => free other
  rw [isBase] at shares isProgram isJob ran ⊢
  refine ⟨linked.sharing, linked.transferred, linked.bytes, pid, ?_, ?_, ?_⟩
  · rw [Threads.point_goto_self]
    exact ⟨store, ⟨rfl, ran⟩, rfl⟩
  · rw [Threads.point_goto_self]
    rintro _ ⟨⟩
    exact began_of_job linked.sharing.writers shares isProgram isJob
  · intro other different
    rw [Threads.point_goto_of_ne different]
    exact free other

/-- A step without the lock, while nobody is in a call. -/
theorem alone (free : ∀ pid, threads.point pid = .out)
    (shares : Shares file base action) (noJob : jobOf file base action = none)
    (stepped : step base action = .next after) :
    Linked file start after { threads with
      system := after
      requests := fun pid => threads.requests pid ++ requested file pid base action } := by
  rcases linked.whole shares stepped with ⟨sharing, transferred, bytes⟩
  rw [chunkOf_without_job noJob, Option.toList_none, List.append_nil] at transferred bytes
  refine ⟨sharing, transferred, bytes, 0, ?_, ?_, fun other _ => free other⟩
  · rw [free]
    rfl
  · rw [free]
    nofun

/-- A step without the lock, while another process is in a call. -/
theorem beside {other : Pid} {program : Sys PUnit} (busy : (threads.point pid).isOut = false)
    (outside : (threads.point other).isOut = true)
    (isActor : action = .resume other ∨ ∃ request, action = .call other request)
    (shares : Shares file threads.system action) (noJob : jobOf file threads.system action = none)
    (isProgram : action.program threads.system = some program)
    (stepped : step threads.system action = .next after) :
    ∃ base', Linked file start base' { threads with
      system := after
      requests := fun pid =>
        threads.requests pid ++ requested file pid threads.system action } := by
  rcases linked.owner_of_busy busy with ⟨reached, began, others⟩
  rcases reached.same with ⟨procs, _, type, readable, writable⟩
  have sharing := linked.sharing
  have different : pid ≠ other := by
    rintro rfl
    rw [outside] at busy
    cases busy
  have writers : Writers file threads.system := by
    rw [Writers, procs]
    exact sharing.writers
  rw [step_without_job (type.trans sharing.isInode) writers isActor shares noJob isProgram] at stepped
  cases stepped
  have noJobBefore : jobOf file base action = none := by
    rw [jobOf_congr procs.symm readable.symm]
    exact noJob
  have sharesBefore := sharing.shares_without_job procs noJobBefore shares
  have steppedBefore := step_without_job sharing.isInode sharing.writers isActor sharesBefore
    noJobBefore (program_of_procs procs.symm isActor shares isProgram)
  rcases linked.whole sharesBefore steppedBefore with ⟨sharingAfter, transferred, bytes⟩
  rw [chunkOf_without_job noJobBefore, Option.toList_none, List.append_nil] at transferred bytes
  rw [← writable, ← procs] at sharingAfter transferred bytes
  refine ⟨_, sharingAfter, transferred, fun caller => ?_, pid, ?_, ?_, others⟩
  · show _ = threads.requests caller ++ requested file caller threads.system action
    rw [bytes caller, requested_congr writable]
  · exact reached.withProcess other _
  · exact fun job isJob => (began job isJob).withProcess different _

/-- A process begins a step of its own. -/
theorem begin (shares : Shares file threads.system action) (may : threads.MayBegin action)
    (ran : threads.begin file action = .next next) : ∃ base', Linked file start base' next := by
  unfold Threads.begin at ran
  split at ran
  · cases ran
  · rename_i program pid job isProgram isJob
    rcases Threads.attempt_eq_next ran with ⟨_, after, locked, rfl⟩
    rcases onStore_run.mp locked with ⟨store, ranLock, rfl⟩
    exact ⟨base, linked.lock shares isProgram isJob ranLock⟩
  · rename_i program isProgram noJob
    rcases Threads.attempt_eq_next ran with ⟨_, after, ranProgram, rfl⟩
    have stepped : step threads.system action = .next after :=
      step_of_run isProgram ((wp_of_run ranProgram).mpr rfl)
    by_cases free : ∀ pid, threads.point pid = .out
    · have isOut : (threads.point 0).isOut = true := by
        rw [free]
        rfl
      have isBase : threads.system = base := linked.system_eq isOut fun other _ => free other
      rw [isBase] at shares noJob stepped ⊢
      exact ⟨after, linked.alone free shares noJob stepped⟩
    · rcases not_forall.mp free with ⟨pid, inside⟩
      have busy : (threads.point pid).isOut = false := by
        cases isPoint : threads.point pid with
        | out => exact absurd isPoint inside
        | _ => rfl
      cases action with
      | evict blockno =>
        rw [show (threads.point pid).isOut = true from may pid] at busy
        cases busy
      | call other request =>
        exact linked.beside busy may (Or.inr ⟨request, rfl⟩) shares noJob isProgram stepped
      | resume other => exact linked.beside busy may (Or.inl rfl) shares noJob isProgram stepped

end Linked

theorem Linked.stepped {start : System} (threads : Threads) (move : Move) (next : Threads)
    (linked : ∃ base, Linked file start base threads) (shares : threads.Shares file move)
    (ran : threads.step file move = .next next) : ∃ base, Linked file start base next := by
  rcases linked with ⟨base, linked⟩
  cases move with
  | begin action =>
    rcases guard_eq_next.mp ran with ⟨may, ran⟩
    exact linked.begin shares may ran
  | go pid => exact linked.go ran

/-! ## Nothing is lost -/

/-- Processes that read and write through one entry of the file table lose
nothing, however the pieces of their calls are interleaved.  Whenever nobody has
the inode locked, the offset is the sum of the lengths of the chunks, their ranges
follow each other, and every byte that a process asked to write is in exactly one
of its chunks, in order, or still to be written.  If all chunks are of writes then
the file has them one behind the other. -/
theorem shared_offset_loses_nothing {start : System} {schedule : List Move} {final : Threads}
    (kept : Kept start) (clean : CleanStore start)
    (idle : ∀ pid, (start.procs pid).pending = .idle)
    (isInode : (start.ftable file).type = .inode)
    (inside : (start.ftable file).off ≤ start.sizeOf file)
    (shares : Meets (Threads.step file) (Threads.Shares file) (Threads.start start) schedule)
    (reached : exec (Threads.step file) (Threads.start start) schedule = .next final)
    (outside : ∀ pid, (final.point pid).isOut = true) :
    (final.system.ftable file).off =
        (start.ftable file).off + (final.chunks.map Chunk.length).sum ∧
      Consecutive (start.ftable file).off final.chunks ∧
      final.chunks.Pairwise (fun first second => first.start + first.length ≤ second.start) ∧
      final.system.contentsOf file = final.chunks.foldl Chunk.apply (start.contentsOf file) ∧
      (∀ pid, (final.chunks.filter (·.pid = pid)).flatMap Chunk.bytes ++
        remaining final.system pid = final.requests pid) ∧
      ((∀ chunk ∈ final.chunks, chunk.data.isSome = true) →
        final.system.contentsOf file = overwrite (start.contentsOf file) (start.ftable file).off
          (final.chunks.flatMap Chunk.bytes)) := by
  have initially : Linked file start start (Threads.start start) := by
    refine ⟨⟨kept, clean, isInode, inside, fun pid => Or.inl (idle pid)⟩,
      ⟨rfl, trivial, nofun, rfl⟩, fun pid => remaining_idle (idle pid), 0, rfl, nofun,
      fun _ _ => rfl⟩
  rcases exec_invariant (fun threads => ∃ base, Linked file start base threads) Linked.stepped
    ⟨start, initially⟩ shares reached with ⟨base, linked⟩
  rcases linked.owner with ⟨pid, isReached, _, _⟩
  have isOut : final.point pid = .out := by
    have isOutside := outside pid
    cases isPoint : final.point pid with
    | out => rfl
    | _ =>
      rw [isPoint] at isOutside
      cases isOutside
  rw [isOut] at isReached
  have isBase : final.system = base := isReached
  rw [isBase]
  have transferred := linked.transferred
  refine ⟨transferred.off, transferred.consecutive, transferred.consecutive.pairwise.2,
    transferred.contents, linked.bytes, fun writes => ?_⟩
  rw [← start.length_contentsOf] at inside
  rw [transferred.contents, transferred.consecutive.foldl_apply inside transferred.lengths writes]

instance : (pending : Pending) → Decidable (pending = .idle)
  | .idle => .isTrue rfl
  | .writing .. => .isFalse Pending.noConfusion
  | .exiting _ => .isFalse Pending.noConfusion

/-- A process opens a new file and forks. -/
def openAndFork : List Action :=
  [.call 0 (.open (some [102]) (O_CREATE ||| O_RDWR)), .call 0 (.fork 1)]

/-- Two processes write to the same file, and the second one is faster.  The
first one begins its call while the second one has the inode locked. -/
def writeTogether : List Move :=
  [.begin (.call 1 (.write 0 Sample.zeros 0 10)), .begin (.resume 1), .go 1,
   .begin (.call 0 (.write 0 Sample.zeros 4090 20)), .go 1, .go 1, .go 1,
   .begin (.resume 0), .go 0, .go 0, .begin (.resume 1), .go 0, .go 0]

theorem shared_offset_loses_nothing_together : ∃ start final,
    exec step Sample.system openAndFork = .next start ∧
    exec (Threads.step Sample.file) (Threads.start start) writeTogether = .next final ∧
    (final.system.ftable Sample.file).off = 30 ∧ Consecutive 0 final.chunks ∧
    final.system.contentsOf Sample.file = overwrite [] 0 (final.chunks.flatMap Chunk.bytes) := by
  have ran : ∃ start, exec step Sample.system openAndFork = .next start ∧
      (∀ pid, (start.procs pid).pending = .idle) ∧
      (start.ftable Sample.file).type = .inode ∧ (start.ftable Sample.file).off = 0 ∧
      start.contentsOf Sample.file = [] ∧
      Meets (Threads.step Sample.file) (Threads.Shares Sample.file) (Threads.start start)
        writeTogether ∧
      ∃ final, exec (Threads.step Sample.file) (Threads.start start) writeTogether = .next final ∧
        (final.chunks.map Chunk.length).sum = 30 ∧
        (∀ pid, (final.point pid).isOut = true) ∧
        ∀ chunk ∈ final.chunks, chunk.data.isSome = true := by
    decide +kernel
  have whole : Meets step WholeCopies Sample.system openAndFork := by
    decide +kernel
  rcases ran with ⟨start, opened, idle, isInode, isOff, isEmpty, shares, final, reached, total,
    outside, writes⟩
  have clean : CleanStore start := exec_invariant CleanStore (fun _ _ _ => step_clean)
    Sample.clean whole opened
  have holds := shared_offset_loses_nothing (Sample.starting.kept.run opened) clean idle isInode
    (by rw [isOff]; exact Nat.zero_le _) shares reached outside
  rw [isOff, isEmpty, total] at holds
  exact ⟨start, final, opened, reached, holds.1, holds.2.1, holds.2.2.2.2.2 writes⟩

end Fs
end Xv6
