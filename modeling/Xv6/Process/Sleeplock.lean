import Mathlib.Logic.Embedding.Basic
import Xv6.Foundation.LockTable
import Xv6.Process.Table

namespace Xv6
namespace Process
namespace Sleeplock

open Foundation Function

/-!
# Sleep-locks

`kernel/sleeplock.c` with `sleep` and `wakeup` of `kernel/proc.c`, cut at every
statement that touches what several processes share.  An `acquire` is a step
that is enabled only while the spinlock is free.  `sched` gives the lock of the
process to the scheduler, which releases it, and the scheduler takes it again
before it switches back.

A process that has seen the lock taken is committed to sleep.  It takes its own
lock before it releases `lk->lk`, and `wakeup` needs both.  So whoever is
committed is either asleep when `wakeup` gets to it or not there yet, and in
both cases it is not stranded.
-/

/-! ## The machine -/

/-- A spinlock: `lk->lk`, or the lock of a process. -/
inductive Spin (n : Nat) where
  | lk
  | proc (p : Fin n)
deriving DecidableEq, Repr

/-- A sleep channel: the sleep-lock, or anything else. -/
inductive Chan where
  | lk
  | other (address : Nat)
deriving DecidableEq, Repr

/-- The statement that a process executes next.  A process in `sleep` has the
channel as an argument, and a loop over the table has the processes that it has
still to visit. -/
inductive Pc (n : Nat) where
  | outside
  | acquiring
  | testing
  | sleepLock (chan : Chan)
  | sleepRelease (chan : Chan)
  | sleepChan (chan : Chan)
  | sleepState (chan : Chan)
  | sched (chan : Chan)
  | asleep (chan : Chan)
  | sleepBack (chan : Chan)
  | sleepUnlock (chan : Chan)
  | locking
  | settingPid
  | acquired
  | releasing
  | clearing
  | clearingPid
  | wakeScan (rest : List (Fin n))
  | wakeTest (q : Fin n) (rest : List (Fin n))
  | wakeRelease (q : Fin n) (rest : List (Fin n))
  | asking
  | comparing
  | answering (r : Bool)
deriving DecidableEq, Repr

/-- The fields of `struct proc` that `sleep` and `wakeup` use. -/
structure Proc where
  state : ProcState
  chan : Option Chan
deriving DecidableEq, Repr

/-- The fields of `struct sleeplock`, the owners of the spinlocks, and where
every process is.  A process is between its `acquiresleep` and its
`releasesleep` from the return of the one to the call of the other. -/
structure Machine (n : Nat) where
  owner : Spin n → Option (Fin n)
  locked : Bool
  pid : BitVec 32
  procs : Fin n → Proc
  pc : Fin n → Pc n
  between : Fin n → Bool

variable {n : Nat}

namespace Machine

section

variable (machine : Machine n) (p : Fin n)

def goto (pc : Pc n) : Machine n :=
  { machine with pc := update machine.pc p pc }

def setProc (proc : Proc) : Machine n :=
  { machine with procs := update machine.procs p proc }

def setBetween (between : Bool) : Machine n :=
  { machine with between := update machine.between p between }

def take (lock : Spin n) : Machine n :=
  { machine with owner := update machine.owner lock (some p) }

end

def release (machine : Machine n) (lock : Spin n) : Machine n :=
  { machine with owner := update machine.owner lock none }

/-- `acquire`: it panics if the process has the lock, and spins while another
process has it. -/
def acquire (machine : Machine n) (p : Fin n) (lock : Spin n) (pc : Pc n) :
    Outcome Panic (Machine n) :=
  match machine.owner lock with
  | none => .next ((machine.take p lock).goto p pc)
  | some q => if q = p then .halted .acquire else .blocked

end Machine

/-- The condition and the assignment in the loop of `wakeup`. -/
def Proc.wakeup (proc : Proc) (chan : Chan) : Proc :=
  if proc.state = .SLEEPING ∧ proc.chan = some chan then { proc with state := .RUNNABLE } else proc

/-- Where `sleep` returns to: the loop of `acquiresleep` takes `lk->lk` again, and
other callers are outside. -/
@[simp] def sleepReturn : Chan → Pc n
  | .lk => .acquiring
  | .other _ => .outside

/-- The locks that a process has at a position.  A caller of `sleep` with another
channel has another spinlock, which is not in this model. -/
def held (p : Fin n) : Pc n → List (Spin n)
  | .testing | .sleepLock .lk | .locking | .settingPid | .acquired | .clearing | .clearingPid
  | .wakeScan _ | .comparing | .answering _ => [.lk]
  | .sleepRelease .lk => [.proc p, .lk]
  | .sleepRelease (.other _) | .sleepChan _ | .sleepState _ | .sched _ | .sleepBack _
  | .sleepUnlock _ => [.proc p]
  | .wakeTest q _ | .wakeRelease q _ => [.proc q, .lk]
  | .outside | .acquiring | .sleepLock (.other _) | .asleep _ | .releasing | .asking => []

/-- The calls on the lock. -/
inductive Call where
  | acquiresleep
  | releasesleep
  | holdingsleep
deriving DecidableEq, Repr

/-- A process that is running calls one of the functions, or `sleep` with another
channel, or executes its next statement.  The timer makes it yield where it has
no spinlock.  The scheduler switches to a process that is `RUNNABLE`, and `kill`
wakes one that sleeps. -/
inductive Action (n : Nat) where
  | call (p : Fin n) (call : Call)
  | sleep (p : Fin n) (address : Nat)
  | advance (p : Fin n)
  | yield (p : Fin n)
  | schedule (p : Fin n)
  | kill (p : Fin n)
deriving DecidableEq, Repr

/-- The beginning of a call.  Only a process that has the lock releases it. -/
def enter (machine : Machine n) (p : Fin n) : Call → Outcome Panic (Machine n)
  | .acquiresleep => .next (machine.goto p .acquiring)
  | .releasesleep =>
    if machine.between p then .next ((machine.setBetween p false).goto p .releasing) else .blocked
  | .holdingsleep => .next (machine.goto p .asking)

/-- One statement of a process. -/
def advance (pids : Fin n ↪ BitVec 32) (machine : Machine n) (p : Fin n) :
    Outcome Panic (Machine n) :=
  match machine.pc p with
  | .outside | .asleep _ => .blocked
  | .acquiring => machine.acquire p .lk .testing
  | .testing =>
    if machine.locked then .next (machine.goto p (.sleepLock .lk))
    else .next (machine.goto p .locking)
  | .sleepLock chan => machine.acquire p (.proc p) (.sleepRelease chan)
  | .sleepRelease .lk => .next ((machine.release .lk).goto p (.sleepChan .lk))
  | .sleepRelease (.other address) => .next (machine.goto p (.sleepChan (.other address)))
  | .sleepChan chan =>
    .next ((machine.setProc p { machine.procs p with chan := some chan }).goto p (.sleepState chan))
  | .sleepState chan =>
    .next ((machine.setProc p { machine.procs p with state := .SLEEPING }).goto p (.sched chan))
  | .sched chan => .next ((machine.release (.proc p)).goto p (.asleep chan))
  | .sleepBack chan =>
    .next ((machine.setProc p { machine.procs p with chan := none }).goto p (.sleepUnlock chan))
  | .sleepUnlock chan => .next ((machine.release (.proc p)).goto p (sleepReturn chan))
  | .locking => .next ({ machine with locked := true }.goto p .settingPid)
  | .settingPid => .next ({ machine with pid := pids p }.goto p .acquired)
  | .acquired => .next (((machine.release .lk).setBetween p true).goto p .outside)
  | .releasing => machine.acquire p .lk .clearing
  | .clearing => .next ({ machine with locked := false }.goto p .clearingPid)
  | .clearingPid => .next ({ machine with pid := 0 }.goto p (.wakeScan (List.finRange n)))
  | .wakeScan [] => .next ((machine.release .lk).goto p .outside)
  | .wakeScan (q :: rest) => machine.acquire p (.proc q) (.wakeTest q rest)
  | .wakeTest q rest =>
    .next ((machine.setProc q ((machine.procs q).wakeup .lk)).goto p (.wakeRelease q rest))
  | .wakeRelease q rest => .next ((machine.release (.proc q)).goto p (.wakeScan rest))
  | .asking => machine.acquire p .lk .comparing
  | .comparing =>
    .next (machine.goto p (.answering (machine.locked && decide (machine.pid = pids p))))
  | .answering _ => .next ((machine.release .lk).goto p .outside)

/-- The scheduler takes the lock of the process and switches to it.  A process in
`sleep` goes on with its lock, and one that has yielded releases it. -/
def schedule (machine : Machine n) (p : Fin n) : Outcome Panic (Machine n) :=
  if machine.owner (.proc p) = none ∧ (machine.procs p).state = .RUNNABLE then
    let running := machine.setProc p { machine.procs p with state := .RUNNING }
    match machine.pc p with
    | .asleep chan => .next ((running.take p (.proc p)).goto p (.sleepBack chan))
    | _ => .next running
  else .blocked

/-- Is the process between the beginning and the end of a call of `sched`? -/
def Pc.switching : Pc n → Bool
  | .sched _ => true
  | _ => false

def step (pids : Fin n ↪ BitVec 32) (machine : Machine n) : Action n → Outcome Panic (Machine n)
  | .call p call =>
    if machine.pc p = .outside ∧ (machine.procs p).state = .RUNNING then enter machine p call
    else .blocked
  | .sleep p address =>
    if machine.pc p = .outside ∧ (machine.procs p).state = .RUNNING then
      .next (machine.goto p (.sleepLock (.other address)))
    else .blocked
  | .advance p =>
    if (machine.procs p).state = .RUNNING ∨ (machine.pc p).switching then advance pids machine p
    else .blocked
  | .yield p =>
    if machine.owner (.proc p) = none ∧ (machine.procs p).state = .RUNNING ∧
        held p (machine.pc p) = [] then
      .next (machine.setProc p { machine.procs p with state := .RUNNABLE })
    else .blocked
  | .schedule p => schedule machine p
  | .kill p =>
    if machine.owner (.proc p) = none ∧ (machine.procs p).state = .SLEEPING then
      .next (machine.setProc p { machine.procs p with state := .RUNNABLE })
    else .blocked

/-- `initsleeplock`, while the processes are elsewhere. -/
def initsleeplock (state : Fin n → ProcState) : Machine n where
  owner := fun _ => none
  locked := false
  pid := 0
  procs := fun p => { state := state p, chan := none }
  pc := fun _ => .outside
  between := fun _ => false

/-! ## The invariant -/

/-- The positions at which a process has the sleep-lock, or still has it, outside
of the time between its calls. -/
@[simp] def ownsAt : Pc n → Bool
  | .settingPid | .acquired | .releasing | .clearing => true
  | _ => false

/-- The positions at which a process has seen the lock taken and will sleep. -/
@[simp] def commitsAt : Pc n → Bool
  | .sleepLock .lk | .sleepRelease .lk | .sleepChan .lk | .sleepState .lk => true
  | _ => false

/-- The processes that a `wakeup` has still to visit. -/
@[simp] def unscanned : Pc n → List (Fin n)
  | .clearingPid => List.finRange n
  | .wakeScan rest | .wakeRelease _ rest => rest
  | .wakeTest q rest => q :: rest
  | _ => []

/-- The process sleeps on the lock. -/
def Proc.SleepsOn (proc : Proc) (chan : Chan) : Prop :=
  proc.state = .SLEEPING ∧ proc.chan = some chan

def Owns (machine : Machine n) (p : Fin n) : Prop :=
  machine.between p = true ∨ ownsAt (machine.pc p) = true

/-- The process sleeps on the lock, or will. -/
def Commits (machine : Machine n) (p : Fin n) : Prop :=
  commitsAt (machine.pc p) = true ∨ (machine.procs p).SleepsOn .lk

/-- The spinlocks have the owners that the positions of the processes say. -/
def Locked (machine : Machine n) : Prop :=
  LockTable machine.owner fun p => held p (machine.pc p)

/-- The sleep-lock has one owner, if it is locked, and has its pid. -/
structure Owned (pids : Fin n ↪ BitVec 32) (machine : Machine n) : Prop where
  free : ∀ p, machine.pc p = .locking ∨ machine.pc p = .clearingPid → machine.locked = false
  apart : ∀ p, ownsAt (machine.pc p) = true → machine.between p = false
  locked : machine.locked = true ↔ ∃ p, Owns machine p
  unique : ∀ p q, Owns machine p → Owns machine q → p = q
  pid : ∀ p, Owns machine p → machine.pc p ≠ .settingPid → machine.pid = pids p
  answers : ∀ p r, machine.pc p = .answering r → r = machine.between p

/-- Who is committed to sleep will be woken, because the lock is taken or because
a `wakeup` has not been there. -/
structure Awaited (machine : Machine n) : Prop where
  chan : ∀ p chan, machine.pc p = .sleepState chan → (machine.procs p).chan = some chan
  commits : ∀ p, Commits machine p → machine.locked = true ∨ ∃ q, p ∈ unscanned (machine.pc q)

structure Sound (pids : Fin n ↪ BitVec 32) (machine : Machine n) : Prop where
  table : Locked machine
  owned : Owned pids machine
  awaited : Awaited machine

variable {proc : Proc} {chan : Chan}

section

variable {pids : Fin n ↪ BitVec 32} {machine after : Machine n} {p : Fin n} {pc here : Pc n} {lock : Spin n}

/-! ## Spinlocks -/

theorem held_goto (machine : Machine n) (p : Fin n) (pc : Pc n) :
    (fun q => held q ((machine.goto p pc).pc q)) =
      update (fun q => held q (machine.pc q)) p (held p pc) := by
  funext q
  simp only [Machine.goto, update_apply]
  split <;> simp [*]

section

variable (table : Locked machine)
include table

theorem Locked.goto (same : held p pc = held p (machine.pc p)) : Locked (machine.goto p pc) := by
  rw [Locked, held_goto]
  exact LockTable.reorder table (List.Perm.of_eq same)

theorem Locked.take (free : machine.owner lock = none)
    (more : held p pc = lock :: held p (machine.pc p)) :
    Locked ((machine.take p lock).goto p pc) := by
  rw [Locked, held_goto]
  exact LockTable.acquire table free (List.Perm.of_eq more)

theorem Locked.release (fewer : (held p (machine.pc p)).Perm (lock :: held p pc)) :
    Locked ((machine.release lock).goto p pc) := by
  rw [Locked, held_goto]
  exact LockTable.release table fewer

end

theorem acquire_eq_next (stepped : machine.acquire p lock pc = .next after) :
    machine.owner lock = none ∧ after = (machine.take p lock).goto p pc := by
  unfold Machine.acquire at stepped
  split at stepped
  · cases stepped
    exact ⟨‹_›, rfl⟩
  · rcases guard_eq_next.mp stepped with ⟨_, stepped⟩
    cases stepped

/-- Two processes are not both in code that has `lk->lk`. -/
theorem Locked.alone (table : Locked machine) {q : Fin n} (first : .lk ∈ held p (machine.pc p))
    (second : .lk ∈ held q (machine.pc q)) : p = q :=
  LockTable.unique table first second

/-! ## The owner of the sleep-lock -/

/-- The move of a process that neither takes nor gives back the sleep-lock. -/
theorem Owned.move (owned : Owned pids machine) (sameLocked : after.locked = machine.locked)
    (samePid : after.pid = machine.pid) (sameBetween : after.between = machine.between)
    (moved : after.pc = update machine.pc p pc)
    (owns : ownsAt pc = ownsAt (machine.pc p))
    (free : pc = .locking ∨ pc = .clearingPid → machine.locked = false)
    (before : machine.pc p ≠ .settingPid)
    (answering : ∀ r, pc = .answering r → r = machine.between p) : Owned pids after := by
  have same : ∀ q, Owns after q ↔ Owns machine q := by
    intro q
    simp only [Owns, sameBetween, moved, update_apply]
    grind
  rcases owned with ⟨isFree, apart, locked, unique, pid, answers⟩
  constructor <;>
    simp only [sameLocked, samePid, sameBetween, moved, same, update_apply] <;> grind

/-! ## Those who wait -/

section

variable (awaited : Awaited machine) (moved : after.pc = update machine.pc p pc)
include awaited moved

/-- The move of a process that makes nobody sleep who has not seen the lock taken,
and that leaves nobody behind in a `wakeup`. -/
theorem Awaited.move (sameLocked : after.locked = machine.locked)
    (commits : ∀ q, Commits after q → Commits machine q ∨ machine.locked = true)
    (scanned : ∀ q ∈ unscanned (machine.pc p), Commits after q → q ∈ unscanned pc)
    (chans : ∀ q chan, after.pc q = .sleepState chan → (after.procs q).chan = some chan) :
    Awaited after := by
  refine ⟨chans, ?_⟩
  intro q isCommitted
  rw [sameLocked]
  rcases commits q isCommitted with already | taken
  · rcases awaited.commits q already with taken | ⟨waker, isLeft⟩
    · exact Or.inl taken
    · refine Or.inr ⟨waker, ?_⟩
      rw [moved, update_apply]
      grind
  · exact Or.inl taken

/-- A process moves and assigns to its own fields. -/
theorem Awaited.assign (sameLocked : after.locked = machine.locked)
    (assigned : after.procs = update machine.procs p proc)
    (commits : commitsAt pc = true → commitsAt (machine.pc p) = true ∨ machine.locked = true)
    (sleeps : proc.SleepsOn .lk → Commits machine p)
    (scanned : ∀ q ∈ unscanned (machine.pc p), q ∈ unscanned pc)
    (chan : ∀ chan, pc = .sleepState chan → proc.chan = some chan) : Awaited after := by
  apply awaited.move moved sameLocked
  · simp only [Commits, assigned, moved, update_apply] at sleeps ⊢
    grind
  · exact fun q isLeft _ => scanned q isLeft
  · have chans := awaited.chan
    simp only [assigned, moved, update_apply]
    grind

theorem Awaited.chan_of_move (sameProcs : after.procs = machine.procs)
    (notSet : ∀ chan, pc ≠ .sleepState chan) (q : Fin n) (chan : Chan) (isSet : after.pc q = .sleepState chan) :
    (after.procs q).chan = some chan := by
  rw [moved, update_apply] at isSet
  rw [sameProcs]
  grind [awaited.chan q chan]

theorem Awaited.goto (sameLocked : after.locked = machine.locked)
    (sameProcs : after.procs = machine.procs)
    (commits : commitsAt pc = true → commitsAt (machine.pc p) = true ∨ machine.locked = true)
    (scanned : ∀ q ∈ unscanned (machine.pc p), q ∈ unscanned pc)
    (notSet : ∀ chan, pc ≠ .sleepState chan) : Awaited after := by
  apply awaited.assign moved sameLocked _ commits Or.inr scanned
  · intro chan isSet
    exact absurd isSet (notSet chan)
  · rw [sameProcs, update_eq_self]

end

/-! ## Steps that only move a process -/

/-- Between the positions nothing happens to the sleep-lock and nobody falls
asleep. -/
structure Plain (here pc : Pc n) : Prop where
  owns : ownsAt pc = ownsAt here
  commits : commitsAt pc = true → commitsAt here = true
  scanned : ∀ q ∈ unscanned here, q ∈ unscanned pc
  before : here ≠ .settingPid
  free : pc ≠ .locking ∧ pc ≠ .clearingPid
  answering : ∀ r, pc ≠ .answering r
  set : ∀ chan, pc ≠ .sleepState chan

theorem Plain.owned (plain : Plain (machine.pc p) pc) (owned : Owned pids machine)
    (sameLocked : after.locked = machine.locked) (samePid : after.pid = machine.pid)
    (sameBetween : after.between = machine.between)
    (moved : after.pc = update machine.pc p pc) : Owned pids after := by
  apply owned.move sameLocked samePid sameBetween moved plain.owns
  · rintro (isFree | isFree)
    · exact absurd isFree plain.free.1
    · exact absurd isFree plain.free.2
  · exact plain.before
  · intro r isAnswer
    exact absurd isAnswer (plain.answering r)

section

variable (sound : Sound pids machine)
include sound

theorem Sound.plain (table : Locked after)
    (plain : Plain (machine.pc p) pc) (sameLocked : after.locked = machine.locked)
    (samePid : after.pid = machine.pid) (sameBetween : after.between = machine.between)
    (sameProcs : after.procs = machine.procs) (moved : after.pc = update machine.pc p pc) :
    Sound pids after where
  table := table
  owned := plain.owned sound.owned sameLocked samePid sameBetween moved
  awaited := sound.awaited.goto moved sameLocked sameProcs
    (fun commits => Or.inl (plain.commits commits)) plain.scanned plain.set

section

variable (isHere : machine.pc p = here)
include isHere

theorem Sound.goto (same : held p pc = held p here) (plain : Plain here pc) : Sound pids (machine.goto p pc) := by
  rw [← isHere] at same plain
  exact sound.plain (sound.table.goto same) plain rfl rfl rfl rfl rfl

theorem Sound.release (fewer : (held p here).Perm (lock :: held p pc)) (plain : Plain here pc) :
    Sound pids ((machine.release lock).goto p pc) := by
  rw [← isHere] at fewer plain
  exact sound.plain (sound.table.release fewer) plain rfl rfl rfl rfl rfl

theorem Sound.take (free : machine.owner lock = none) (more : held p pc = lock :: held p here)
    (plain : Plain here pc) : Sound pids ((machine.take p lock).goto p pc) := by
  rw [← isHere] at more plain
  exact sound.plain (sound.table.take free more) plain rfl rfl rfl rfl rfl

theorem Sound.acquire (more : held p pc = lock :: held p here) (plain : Plain here pc)
    (stepped : machine.acquire p lock pc = .next after) : Sound pids after := by
  rcases acquire_eq_next stepped with ⟨free, rfl⟩
  exact sound.take isHere free more plain

end

/-! ## Steps of the scheduler, and the assignments in `sleep` -/

theorem Sound.setState {state : ProcState} (awake : state ≠ .SLEEPING) :
    Sound pids (machine.setProc p { machine.procs p with state := state }) := by
  refine ⟨sound.table, ⟨sound.owned.free, sound.owned.apart, sound.owned.locked, sound.owned.unique,
    sound.owned.pid, sound.owned.answers⟩, ?_⟩
  refine sound.awaited.assign (update_eq_self p _).symm rfl rfl Or.inl ?_ ?_ ?_
  · intro sleeps
    exact absurd sleeps.1 awake
  · intro q isLeft
    exact isLeft
  · intro chan isSet
    exact sound.awaited.chan p chan isSet

/-- A process assigns to its own fields, and goes on with the locks it has. -/
theorem Sound.assign (same : held p pc = held p (machine.pc p)) (plain : Plain (machine.pc p) pc)
    (sleeps : proc.SleepsOn .lk → Commits machine p) :
    Sound pids ((machine.setProc p proc).goto p pc) where
  table := sound.table.goto same
  owned := plain.owned sound.owned rfl rfl rfl rfl
  awaited := sound.awaited.assign rfl rfl rfl (fun commits => Or.inl (plain.commits commits)) sleeps
    plain.scanned (fun chan isSet => absurd isSet (plain.set chan))

theorem Sound.sleepChan (here : machine.pc p = .sleepChan chan) (running : (machine.procs p).state = .RUNNING) :
    Sound pids ((machine.setProc p { machine.procs p with chan := some chan }).goto p
      (.sleepState chan)) := by
  refine ⟨sound.table.goto (by rw [here]; rfl), ?_, ?_⟩
  · exact sound.owned.move rfl rfl rfl rfl (by simp [here]) (by simp) (by simp [here]) (by simp)
  · refine sound.awaited.assign rfl rfl rfl ?_ ?_ ?_ ?_
    · rw [here]
      cases chan <;> simp
    · simp [Proc.SleepsOn, running]
    · simp [here]
    · rintro chan' ⟨⟩
      rfl

theorem Sound.sleepState (here : machine.pc p = .sleepState chan) :
    Sound pids ((machine.setProc p { machine.procs p with state := .SLEEPING }).goto p
      (.sched chan)) := by
  apply sound.assign
  · rw [here]
    rfl
  · rw [here]
    constructor <;> simp
  · rintro ⟨_, onLock⟩
    left
    have isSet : some chan = some Chan.lk := (sound.awaited.chan p chan here).symm.trans onLock
    cases isSet
    rw [here]
    rfl

theorem Sound.sleepBack (here : machine.pc p = .sleepBack chan) :
    Sound pids ((machine.setProc p { machine.procs p with chan := none }).goto p
      (.sleepUnlock chan)) := by
  apply sound.assign
  · rw [here]
    rfl
  · rw [here]
    constructor <;> simp
  · rintro ⟨_, onLock⟩
    cases onLock

end

/-! ## Taking and giving back the sleep-lock -/

section

variable (owned : Owned pids machine)
include owned

theorem Owned.nobody (unlocked : machine.locked = false) (q : Fin n) : ¬ Owns machine q := by
  intro isOwner
  have taken := owned.locked.mpr ⟨q, isOwner⟩
  rw [unlocked] at taken
  cases taken

variable (moved : after.pc = update machine.pc p pc)
include moved

/-- A process gives the sleep-lock back, or has done so. -/
theorem Owned.drop (unlocked : after.locked = false)
    (sameBetween : after.between = machine.between) (notOurs : machine.between p = false)
    (gone : ownsAt pc = false) (only : ∀ q, q ≠ p → ¬ Owns machine q)
    (notAnswer : ∀ r, pc ≠ .answering r) : Owned pids after := by
  have nobody : ∀ q, ¬ Owns after q := by
    simp only [Owns, sameBetween, moved, update_apply] at only ⊢
    grind
  have answers := owned.answers
  refine ⟨fun _ _ => unlocked, ?_, ?_, ?_, ?_, ?_⟩
  · exact fun q isOwner => absurd (Or.inr isOwner) (nobody q)
  · simp [unlocked, nobody]
  · exact fun q _ isOwner => absurd isOwner (nobody q)
  · exact fun q isOwner => absurd isOwner (nobody q)
  · simp only [moved, sameBetween, update_apply]
    grind

/-- After the move the process is the only one that has the sleep-lock. -/
theorem Owned.claim (locked : after.locked = true)
    (others : ∀ q, q ≠ p → after.between q = machine.between q) (owner : Owns after p)
    (only : ∀ q, q ≠ p → ¬ Owns machine q)
    (notFree : ∀ q, q ≠ p → machine.pc q ≠ .locking ∧ machine.pc q ≠ .clearingPid)
    (further : pc ≠ .locking ∧ pc ≠ .clearingPid)
    (apart : ownsAt pc = true → after.between p = false)
    (pid : pc ≠ .settingPid → after.pid = pids p)
    (notAnswer : ∀ r, pc ≠ .answering r) : Owned pids after := by
  have isHere : after.pc p = pc := by
    rw [moved, update_self]
  have elsewhere : ∀ q, q ≠ p → after.pc q = machine.pc q := by
    intro q isOther
    rw [moved, update_of_ne isOther]
  have isP : ∀ q, Owns after q → q = p := by
    intro q isOwner
    by_contra isOther
    rw [Owns, others q isOther, elsewhere q isOther] at isOwner
    exact only q isOther isOwner
  have answers := owned.answers
  constructor
  · grind
  · exact fun q isOwner => by grind [isP q (Or.inr isOwner)]
  · exact ⟨fun _ => ⟨p, owner⟩, fun _ => locked⟩
  · exact fun q q' first second => (isP q first).trans (isP q' second).symm
  · grind
  · grind

/-- The owner of the sleep-lock moves, and still has it. -/
theorem Owned.keep (isOwner : Owns machine p) (sameLocked : after.locked = machine.locked)
    (others : ∀ q, q ≠ p → after.between q = machine.between q) (owner : Owns after p)
    (further : pc ≠ .locking ∧ pc ≠ .clearingPid)
    (apart : ownsAt pc = true → after.between p = false)
    (pid : pc ≠ .settingPid → after.pid = pids p)
    (notAnswer : ∀ r, pc ≠ .answering r) : Owned pids after := by
  have taken := owned.locked.mpr ⟨p, isOwner⟩
  refine owned.claim moved (sameLocked.trans taken) others owner ?_ ?_ further apart pid notAnswer
  · intro q isOther isOwner'
    exact isOther (owned.unique q p isOwner' isOwner)
  · intro q _
    have notFree : ¬ (machine.pc q = .locking ∨ machine.pc q = .clearingPid) := by
      intro isFree
      rw [owned.free q isFree] at taken
      cases taken
    exact not_or.mp notFree

end

section

variable (sound : Sound pids machine)
include sound

/-- `lk->locked = 1`. -/
theorem Sound.locking (here : machine.pc p = .locking) :
    Sound pids ({ machine with locked := true }.goto p .settingPid) := by
  have nobody := sound.owned.nobody (sound.owned.free p (Or.inl here))
  have mine : .lk ∈ held p (machine.pc p) := by
    simp [here, held]
  refine ⟨sound.table.goto (by rw [here]; rfl), ?_, ?_, fun _ _ => Or.inl rfl⟩
  · refine sound.owned.claim rfl rfl (fun _ _ => rfl) ?_ (fun q _ => nobody q) ?_ (by simp) ?_
      (by simp) (by simp)
    · simp [Owns, Machine.goto]
    · intro q isOther
      have notTheirs : .lk ∉ held q (machine.pc q) := fun theirs =>
        isOther (sound.table.alone theirs mine)
      constructor <;> rintro isThere <;> simp [isThere, held] at notTheirs
    · exact fun _ => Bool.eq_false_iff.mpr fun isBetween => nobody p (Or.inl isBetween)
  · exact sound.awaited.chan_of_move rfl rfl (by simp)

theorem Sound.settingPid (here : machine.pc p = .settingPid) :
    Sound pids ({ machine with pid := pids p }.goto p .acquired) := by
  have owns : ownsAt (machine.pc p) = true := by
    simp [here]
  refine ⟨sound.table.goto (by rw [here]; rfl), ?_, ?_⟩
  · refine sound.owned.keep rfl (Or.inr owns) rfl (fun _ _ => rfl) ?_ (by simp) ?_ (fun _ => rfl)
      (by simp)
    · simp [Owns, Machine.goto]
    · exact fun _ => sound.owned.apart p owns
  · exact sound.awaited.goto rfl rfl rfl (by simp) (by simp [here]) (by simp)

/-- The end of `acquiresleep`. -/
theorem Sound.acquired (here : machine.pc p = .acquired) :
    Sound pids (((machine.release .lk).setBetween p true).goto p .outside) := by
  have owns : ownsAt (machine.pc p) = true := by
    simp [here]
  refine ⟨sound.table.release (by rw [here]; exact .refl _), ?_, ?_⟩
  · refine sound.owned.keep rfl (Or.inr owns) rfl ?_ ?_ (by simp) (by simp) ?_ (by simp)
    · exact fun q isOther => update_of_ne isOther ..
    · exact Or.inl (update_self ..)
    · exact fun _ => sound.owned.pid p (Or.inr owns) (by simp [here])
  · exact sound.awaited.goto rfl rfl rfl (by simp) (by simp [here]) (by simp)

theorem Sound.releasesleep (here : machine.pc p = .outside) (isBetween : machine.between p = true) :
    Sound pids ((machine.setBetween p false).goto p .releasing) := by
  refine ⟨sound.table.goto (by rw [here]; rfl), ?_, ?_⟩
  · refine sound.owned.keep rfl (Or.inl isBetween) rfl ?_ ?_ (by simp) ?_ ?_ (by simp)
    · exact fun q isOther => update_of_ne isOther ..
    · simp [Owns, Machine.goto]
    · exact fun _ => update_self ..
    · exact fun _ => sound.owned.pid p (Or.inl isBetween) (by simp [here])
  · exact sound.awaited.goto rfl rfl rfl (by simp) (by simp [here]) (by simp)

/-- `lk->locked = 0`. -/
theorem Sound.clearing (here : machine.pc p = .clearing) :
    Sound pids ({ machine with locked := false }.goto p .clearingPid) := by
  have owns : ownsAt (machine.pc p) = true := by
    simp [here]
  refine ⟨sound.table.goto (by rw [here]; rfl), ?_, ?_, ?_⟩
  · refine sound.owned.drop rfl rfl rfl (sound.owned.apart p owns) rfl ?_ (by simp)
    intro q isOther isOwner
    exact isOther (sound.owned.unique q p isOwner (Or.inr owns))
  · exact sound.awaited.chan_of_move rfl rfl (by simp)
  · exact fun q _ => Or.inr ⟨p, by simp [Machine.goto]⟩

theorem Sound.clearingPid (here : machine.pc p = .clearingPid) :
    Sound pids ({ machine with pid := 0 }.goto p (.wakeScan (List.finRange n))) := by
  have unlocked := sound.owned.free p (Or.inr here)
  have nobody := sound.owned.nobody unlocked
  refine ⟨sound.table.goto (by rw [here]; rfl), ?_, ?_⟩
  · refine sound.owned.drop rfl unlocked rfl ?_ rfl (fun q _ => nobody q) (by simp)
    exact Bool.eq_false_iff.mpr fun isBetween => nobody p (Or.inl isBetween)
  · exact sound.awaited.goto rfl rfl rfl (by simp) (by simp [here]) (by simp)

end

/-! ## `wakeup` -/

theorem sleepsOn_wakeup : ¬ (proc.wakeup chan).SleepsOn chan := by
  rintro ⟨asleep, onChan⟩
  unfold Proc.wakeup at asleep onChan
  split at asleep
  · cases asleep
  · rename_i notAsleep
    rw [if_neg notAsleep] at onChan
    exact notAsleep ⟨asleep, onChan⟩

theorem chan_wakeup (proc : Proc) (chan : Chan) : (proc.wakeup chan).chan = proc.chan := by
  unfold Proc.wakeup
  split
  · rfl
  · rfl

/-- A process whose lock is taken by a `wakeup`, which also has `lk->lk`, is not on
its way to sleep. -/
theorem Locked.not_commitsAt (table : Locked machine) {q : Fin n} {rest : List (Fin n)}
    (here : machine.pc p = .wakeTest q rest) : commitsAt (machine.pc q) = false := by
  have takes : Spin.proc q ∈ held p (machine.pc p) ∧ Spin.lk ∈ held p (machine.pc p) := by
    simp [here, held]
  by_contra commits
  have isP : q = p := by
    unfold commitsAt at commits
    split at commits
    · apply table.alone _ takes.2
      simp [*, held]
    · exact LockTable.unique table (by simp [*, held]) takes.1
    · exact LockTable.unique table (by simp [*, held]) takes.1
    · exact LockTable.unique table (by simp [*, held]) takes.1
    · exact absurd rfl commits
  rw [isP, here] at commits
  exact commits rfl

theorem lk_of_unscanned {q : Fin n} (isLeft : q ∈ unscanned pc) : .lk ∈ held p pc := by
  unfold unscanned at isLeft
  split at isLeft
  · exact List.mem_singleton_self _
  · exact List.mem_singleton_self _
  · exact List.mem_cons_of_mem _ (List.mem_singleton_self _)
  · exact List.mem_cons_of_mem _ (List.mem_singleton_self _)
  · cases isLeft

section

variable (sound : Sound pids machine)
include sound

theorem Sound.wakeTest {q : Fin n} {rest : List (Fin n)} (here : machine.pc p = .wakeTest q rest) :
    Sound pids ((machine.setProc q ((machine.procs q).wakeup .lk)).goto p (.wakeRelease q rest)) := by
  refine ⟨sound.table.goto (by rw [here]; rfl), ?_, ?_⟩
  · exact sound.owned.move rfl rfl rfl rfl (by simp [here]) (by simp) (by simp [here]) (by simp)
  have still : ∀ r, Commits ((machine.setProc q ((machine.procs q).wakeup .lk)).goto p
      (.wakeRelease q rest)) r → Commits machine r ∧ r ≠ q := by
    have visited := sound.table.not_commitsAt here
    have woken : ¬ ((machine.procs q).wakeup .lk).SleepsOn .lk := sleepsOn_wakeup
    simp only [Commits, Machine.goto, Machine.setProc, update_apply]
    grind [commitsAt]
  refine sound.awaited.move rfl rfl ?_ ?_ ?_
  · exact fun r isCommitted => Or.inl (still r isCommitted).1
  · intro r isLeft isCommitted
    rw [here] at isLeft
    rcases List.mem_cons.mp isLeft with isQ | isRest
    · exact absurd isQ (still r isCommitted).2
    · exact isRest
  · have chans := sound.awaited.chan
    simp only [Machine.goto, Machine.setProc, update_apply]
    grind [chan_wakeup]

/-! ## `holdingsleep` -/

theorem Sound.comparing (here : machine.pc p = .comparing) :
    (machine.locked && decide (machine.pid = pids p)) = machine.between p := by
  have mine : .lk ∈ held p (machine.pc p) := by
    simp [here, held]
  cases isBetween : machine.between p with
  | true =>
    have isPid := sound.owned.pid p (Or.inl isBetween) (by simp [here])
    have taken := sound.owned.locked.mpr ⟨p, Or.inl isBetween⟩
    rw [isPid, taken, decide_eq_true rfl]
    rfl
  | false =>
    apply Bool.eq_false_iff.mpr
    intro answer
    rw [Bool.and_eq_true, decide_eq_true_iff] at answer
    rcases sound.owned.locked.mp answer.1 with ⟨q, isOwner⟩
    have stored : machine.pc q ≠ .settingPid := by
      intro isSetting
      have isP : q = p := sound.table.alone (by simp [isSetting, held]) mine
      rw [isP, here] at isSetting
      cases isSetting
    have isP : q = p := pids.injective ((sound.owned.pid q isOwner stored).symm.trans answer.2)
    rw [isP, Owns, isBetween, here] at isOwner
    rcases isOwner with impossible | impossible <;> cases impossible

/-! ## Every step -/

theorem Sound.testing (here : machine.pc p = .testing) :
    (machine.locked = true → Sound pids (machine.goto p (.sleepLock .lk))) ∧
      (machine.locked = false → Sound pids (machine.goto p .locking)) := by
  constructor
  · intro taken
    have same : held p (.sleepLock .lk) = held p (machine.pc p) := by
      rw [here]
      rfl
    refine ⟨sound.table.goto same, ?_, ?_⟩
    · exact sound.owned.move rfl rfl rfl rfl (by simp [here]) (by simp) (by simp [here]) (by simp)
    · exact sound.awaited.goto rfl rfl rfl (fun _ => Or.inr taken) (by simp [here]) (by simp)
  · intro unlocked
    have same : held p .locking = held p (machine.pc p) := by
      rw [here]
      rfl
    refine ⟨sound.table.goto same, ?_, ?_⟩
    · exact sound.owned.move rfl rfl rfl rfl (by simp [here]) (fun _ => unlocked) (by simp [here])
        (by simp)
    · exact sound.awaited.goto rfl rfl rfl (by simp) (by simp [here]) (by simp)

theorem Sound.advance (running : (machine.procs p).state = .RUNNING ∨ (machine.pc p).switching = true)
    (stepped : advance pids machine p = .next after) : Sound pids after := by
  unfold Sleeplock.advance at stepped
  generalize here : machine.pc p = pc at stepped
  cases pc with
  | outside | asleep chan => cases stepped
  | acquiring | releasing | asking =>
    exact sound.acquire here rfl (by constructor <;> simp) stepped
  | testing =>
    dsimp only at stepped
    split at stepped
    · rename_i taken
      cases stepped
      exact (sound.testing here).1 taken
    · rename_i free
      cases stepped
      exact (sound.testing here).2 (Bool.eq_false_iff.mpr free)
  | sleepLock chan =>
    cases chan with
    | lk | other address => exact sound.acquire here rfl (by constructor <;> simp) stepped
  | sleepRelease chan =>
    cases chan with
    | lk =>
      cases stepped
      exact sound.release here (.swap _ _ _) (by constructor <;> simp)
    | other address =>
      cases stepped
      exact sound.goto here rfl (by constructor <;> simp)
  | sleepChan chan =>
    rw [here] at running
    cases stepped
    exact sound.sleepChan here (running.resolve_right Bool.false_ne_true)
  | sleepState chan =>
    cases stepped
    exact sound.sleepState here
  | sched chan | wakeRelease q rest | answering r =>
    cases stepped
    exact sound.release here (.refl _) (by constructor <;> simp)
  | sleepBack chan =>
    cases stepped
    exact sound.sleepBack here
  | sleepUnlock chan =>
    cases stepped
    cases chan with
    | lk | other address => exact sound.release here (.refl _) (by constructor <;> simp)
  | locking =>
    cases stepped
    exact sound.locking here
  | settingPid =>
    cases stepped
    exact sound.settingPid here
  | acquired =>
    cases stepped
    exact sound.acquired here
  | clearing =>
    cases stepped
    exact sound.clearing here
  | clearingPid =>
    cases stepped
    exact sound.clearingPid here
  | wakeScan rest =>
    cases rest with
    | nil =>
      cases stepped
      exact sound.release here (.refl _) (by constructor <;> simp)
    | cons q rest => exact sound.acquire here rfl (by constructor <;> simp) stepped
  | wakeTest q rest =>
    cases stepped
    exact sound.wakeTest here
  | comparing =>
    cases stepped
    have same : held p (.answering (machine.locked && decide (machine.pid = pids p))) =
        held p (machine.pc p) := by
      rw [here]
      rfl
    refine ⟨sound.table.goto same, ?_, ?_⟩
    · refine sound.owned.move rfl rfl rfl rfl (by simp [here]) (by simp) (by simp [here]) ?_
      rintro r ⟨⟩
      exact sound.comparing here
    · exact sound.awaited.goto rfl rfl rfl (by simp) (by simp [here]) (by simp)

theorem Sound.schedule (stepped : schedule machine p = .next after) : Sound pids after := by
  unfold Sleeplock.schedule at stepped
  rcases guard_eq_next.mp stepped with ⟨may, stepped⟩
  have running : Sound pids (machine.setProc p { machine.procs p with state := .RUNNING }) :=
    sound.setState (by simp)
  split at stepped
  · rename_i chan here
    cases stepped
    exact running.take here may.1 rfl (by constructor <;> simp)
  · cases stepped
    exact running

end

theorem Sound.next {action : Action n} (sound : Sound pids machine)
    (stepped : step pids machine action = .next after) : Sound pids after := by
  cases action with
  | call p call =>
    rcases guard_eq_next.mp stepped with ⟨may, stepped⟩
    cases call with
    | acquiresleep | holdingsleep =>
      cases stepped
      exact sound.goto may.1 rfl (by constructor <;> simp)
    | releasesleep =>
      rcases guard_eq_next.mp stepped with ⟨isBetween, stepped⟩
      cases stepped
      exact sound.releasesleep may.1 isBetween
  | sleep p address =>
    rcases guard_eq_next.mp stepped with ⟨may, stepped⟩
    cases stepped
    exact sound.goto may.1 rfl (by constructor <;> simp)
  | advance p =>
    rcases guard_eq_next.mp stepped with ⟨running, stepped⟩
    exact sound.advance running stepped
  | yield p | kill p =>
    rcases guard_eq_next.mp stepped with ⟨_, stepped⟩
    cases stepped
    exact sound.setState (by simp)
  | schedule p => exact sound.schedule stepped

theorem sound_initsleeplock (state : Fin n → ProcState) : Sound pids (initsleeplock state) := by
  have nobody : ∀ q, ¬ Owns (initsleeplock state) q := by
    rintro q (impossible | impossible) <;> cases impossible
  refine ⟨⟨?_, ?_⟩, ⟨?_, ?_, ?_, ?_, ?_, ?_⟩, ⟨?_, ?_⟩⟩
  · simp [initsleeplock, held]
  · simp [initsleeplock, held]
  · exact fun _ _ => rfl
  · exact fun _ impossible => nomatch impossible
  · simp only [initsleeplock, Bool.false_eq_true, false_iff]
    rintro ⟨q, isOwner⟩
    exact nobody q isOwner
  · exact fun q _ isOwner => absurd isOwner (nobody q)
  · exact fun q isOwner => absurd isOwner (nobody q)
  · exact fun _ _ impossible => nomatch impossible
  · exact fun _ _ impossible => nomatch impossible
  · rintro q (impossible | ⟨_, impossible⟩) <;> cases impossible

/-- Sleep-locks exclude, and strand nobody.  At most one process is between its
`acquiresleep` and its `releasesleep`, and `lk->pid` is its pid.  `holdingsleep`
answers with yes to this process only.  While `lk->lk` is free and the sleep-lock
is not taken, nobody sleeps on it. -/
theorem sleeplock_excludes {state : Fin n → ProcState} {schedule : List (Action n)}
    {final : Machine n} (reached : exec (step pids) (initsleeplock state) schedule = .next final) :
    (∀ p q, final.between p = true → final.between q = true → p = q) ∧
      (∀ p, final.between p = true → final.locked = true ∧ final.pid = pids p) ∧
      (∀ p r, final.pc p = .answering r → (r = true ↔ final.between p = true)) ∧
      (final.owner .lk = none → final.locked = false → ∀ p, ¬ (final.procs p).SleepsOn .lk) := by
  have sound : Sound pids final := exec_invariant' (Sound pids) (fun _ _ _ => Sound.next)
    (sound_initsleeplock state) reached
  refine ⟨?_, ?_, ?_, ?_⟩
  · intro p q first second
    exact sound.owned.unique p q (Or.inl first) (Or.inl second)
  · intro p isBetween
    refine ⟨sound.owned.locked.mpr ⟨p, Or.inl isBetween⟩, ?_⟩
    apply sound.owned.pid p (Or.inl isBetween)
    intro isSetting
    have apart := sound.owned.apart p (by rw [isSetting]; rfl)
    rw [isBetween] at apart
    cases apart
  · intro p r isAnswer
    rw [sound.owned.answers p r isAnswer]
  · intro free unlocked p sleeps
    rcases sound.awaited.commits p (Or.inr sleeps) with taken | ⟨q, isLeft⟩
    · rw [unlocked] at taken
      cases taken
    · exact LockTable.not_mem sound.table free q (lk_of_unscanned isLeft)

end

/-- Two processes with the pids 1 and 2. -/
def Sample.pids : Fin 2 ↪ BitVec 32 :=
  ⟨fun p => BitVec.ofNat 32 (p.val + 1), by
    intro p q
    revert p q
    decide⟩

/-- The second process sleeps because the first one has the lock, and takes it
when the first one has released it. -/
def handOver : List (Action 2) :=
  [.call 0 .acquiresleep] ++ List.replicate 5 (.advance 0) ++
  [.call 1 .acquiresleep] ++ List.replicate 7 (.advance 1) ++
  [.call 0 .releasesleep] ++ List.replicate 10 (.advance 0) ++
  [.schedule 1] ++ List.replicate 7 (.advance 1)

theorem sleeplock_excludes_handOver : ∃ final,
    exec (step Sample.pids) (initsleeplock fun _ => .RUNNING) handOver = .next final ∧
      final.between 1 = true ∧ final.pid = Sample.pids 1 := by
  have ran : ∃ final,
      exec (step Sample.pids) (initsleeplock fun _ => .RUNNING) handOver = .next final ∧
        final.between 1 = true := by
    decide +kernel
  rcases ran with ⟨final, reached, isBetween⟩
  exact ⟨final, reached, isBetween, ((sleeplock_excludes reached).2.1 1 isBetween).2⟩

end Sleeplock
end Process
end Xv6
