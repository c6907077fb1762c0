import Xv6.Process.Table

namespace Xv6
namespace Process
namespace Sched

open Foundation Function

/-!
# Processes on several CPUs

The scheduler of `kernel/proc.c` and the calls that take `p->lock`, cut at
every `acquire` and `release`.  Every CPU runs `scheduler`; when it finds a
`RUNNABLE` process it switches to it and, until the process calls `sched`,
the steps of that CPU are the steps of the process.  `swtch` only transfers
control: the lock of the process is taken by one side and released by the
other.  A spinlock is owned by a CPU, as `lk->cpu` says.

A process may be interrupted by the timer wherever its CPU holds no lock, and
then yields.  `wakeup` is called by processes and by interrupt handlers
alike, always under some other spinlock, so it runs on its CPU without being
preempted; a CPU that is looking for work can be interrupted by it too.

A caller of `sleep` holds the lock `lk` that it passes, and no other; it is
counted until `sleep` releases it, and before and after the call it belongs to
the code that is not modelled.

The histories at the end of the machine record what the source does not:
which incarnation of a slot was forked, called `exit`, became a zombie and was
returned by `wait`, and on what the CPUs were running when `freeproc` was
called.
-/

/-- A sleep channel is the address of a process, as in `wait`, or of anything
else. -/
inductive Chan where
  | proc (slot : Slot)
  | other (address : Nat)
deriving DecidableEq, Repr

/-- The fields of `struct proc` that `p->lock` protects. -/
structure Proc extends Process.Proc where
  chan : Option Chan
deriving DecidableEq, Repr

namespace Proc

def free : Proc :=
  { Process.Proc.free with chan := none }

/-- What `wakeup` and `wakeup1` do to a process whose lock they hold. -/
def wakeup (proc : Proc) (chan : Chan) : Proc :=
  if proc.state = .SLEEPING ∧ proc.chan = some chan then { proc with state := .RUNNABLE } else proc

/-- What `kill` does to a process with the right pid. -/
def kill (proc : Proc) : Proc :=
  { proc with
    killed := true
    state := if proc.state = .SLEEPING then .RUNNABLE else proc.state }

end Proc

/-- Where the code of a process is.  A list argument holds the slots that a
loop over the table has still to visit, `op` is the local variable
`original_parent` of `exit`, and a position named `Back` is right after the
call of `sched`. -/
inductive Pc where
  | user
  | forkret
  | sleepLock (address : Nat)
  | sleepSet (address : Nat)
  | sleepBack
  | killScan (pid : BitVec 32) (rest : List Slot)
  | killTest (pid : BitVec 32) (slot : Slot) (rest : List Slot)
  | forkScan (rest : List Slot)
  | forkTest (slot : Slot) (rest : List Slot)
  | forkFill (np : Slot)
  | waitEnter
  | waitScan (rest : List Slot) (havekids : Bool)
  | waitChild (np : Slot) (rest : List Slot)
  | waitLook (np : Slot) (rest : List Slot)
  | waitBack
  | exitInit (status : Int)
  | exitWakeInit (status : Int)
  | exitEnter (status : Int)
  | exitRead (status : Int)
  | exitParent (status : Int) (op : Slot)
  | exitSelf (status : Int) (op : Slot)
  | reparentScan (status : Int) (op : Slot) (rest : List Slot)
  | reparentChild (status : Int) (op pp : Slot) (rest : List Slot)
  | reparentGive (status : Int) (op pp : Slot) (rest : List Slot)
  | exitZombie (status : Int) (op : Slot)
  | exitSched
  | dead
deriving DecidableEq, Repr

/-- How many locks other than those of processes are held: `sleep` has `lk`
until it has the lock of the process. -/
def Pc.lk : Pc → Nat
  | .sleepLock _ => 1
  | _ => 0

/-- Where a process is in a `yield` forced by the timer. -/
inductive Trap where
  | none
  | lock
  | set
  | back
deriving DecidableEq, Repr

/-- Where a CPU is in `scheduler`.  While it runs a process, the steps are
those of the process; `back` is right after `swtch` has returned. -/
inductive Position where
  | scan (rest : List Slot)
  | test (slot : Slot) (rest : List Slot)
  | run (slot : Slot) (rest : List Slot)
  | back (slot : Slot) (rest : List Slot)
deriving DecidableEq, Repr

/-- Where a CPU is in a call of `wakeup`, if it is in one. -/
inductive Waker where
  | off
  | scan (address : Nat) (rest : List Slot)
  | test (address : Nat) (slot : Slot) (rest : List Slot)
deriving DecidableEq, Repr

/-- A successful `fork`: the number of the new process and its pid. -/
structure Birth where
  serial : Nat
  pid : BitVec 32
deriving DecidableEq, Repr

/-- A call of `exit`, with its argument. -/
structure Exit where
  serial : Nat
  status : Int
deriving DecidableEq, Repr

/-- An `exit` that has made its caller a zombie. -/
structure Death where
  serial : Nat
  pid : BitVec 32
  status : Int
deriving DecidableEq, Repr

/-- A `wait` that has returned: who called it, the parent of the process it
found, and what it found. -/
structure Reaping where
  waiter : Slot
  parent : Option Slot
  serial : Nat
  pid : BitVec 32
  status : Int
deriving DecidableEq, Repr

/-- The process table with the owners of its locks, the position of every
process and of every CPU, and the histories.  `proc` is `c->proc`. -/
structure Machine (Cpu : Type) where
  procs : Slot → Proc
  nextpid : BitVec 32
  initproc : Slot
  owner : Slot → Option Cpu
  pc : Slot → Pc
  trap : Slot → Trap
  proc : Cpu → Option Slot
  position : Cpu → Position
  waker : Cpu → Waker
  serial : Slot → Nat
  births : List Birth
  exits : List Exit
  deaths : List Death
  reapings : List Reaping
  frees : List (Slot × (Cpu → Option Slot))

variable {Cpu : Type}

/-- The order in which the loops visit `proc[NPROC]`. -/
def slots : List Slot :=
  List.finRange NPROC

namespace Machine

variable [DecidableEq Cpu]

section

variable (machine : Machine Cpu)

def setProc (slot : Slot) (proc : Proc) : Machine Cpu :=
  { machine with procs := update machine.procs slot proc }

def setState (slot : Slot) (state : ProcState) : Machine Cpu :=
  machine.setProc slot { machine.procs slot with state := state }

/-- The assignments of `sleep` before it calls `sched`. -/
def doze (slot : Slot) (chan : Chan) : Machine Cpu :=
  machine.setProc slot { machine.procs slot with chan := some chan, state := .SLEEPING }

/-- The assignment of `sleep` after `sched` has returned. -/
def tidyUp (slot : Slot) : Machine Cpu :=
  machine.setProc slot { machine.procs slot with chan := none }

/-- Move a process to its next position. -/
def goto (thread : Slot) (pc : Pc) : Machine Cpu :=
  { machine with pc := update machine.pc thread pc }

/-- The same in a `yield` forced by the timer. -/
def trapTo (thread : Slot) (trap : Trap) : Machine Cpu :=
  { machine with trap := update machine.trap thread trap }

/-- Move a CPU to its next position in `scheduler`. -/
def place (cpu : Cpu) (position : Position) : Machine Cpu :=
  { machine with position := update machine.position cpu position }

def setWaker (cpu : Cpu) (waker : Waker) : Machine Cpu :=
  { machine with waker := update machine.waker cpu waker }

end

/-- `acquire(&p->lock)`: the CPU spins while another one holds the lock. -/
def acquire (machine : Machine Cpu) (cpu : Cpu) (lock : Slot) : Outcome Panic (Machine Cpu) :=
  match machine.owner lock with
  | none => .next { machine with owner := update machine.owner lock (some cpu) }
  | some other => if other = cpu then .halted .acquire else .blocked

def release (machine : Machine Cpu) (lock : Slot) : Machine Cpu :=
  { machine with owner := update machine.owner lock none }

/-- How many of the modelled locks the CPU holds; interrupts are enabled only
while it holds none. -/
def noff (machine : Machine Cpu) (cpu : Cpu) : Nat :=
  (slots.countP fun slot => machine.owner slot = some cpu) +
    match machine.position cpu with
    | .run thread _ => (machine.pc thread).lk
    | _ => 0

/-- `wakeup1`. -/
def wakeup1 (machine : Machine Cpu) (cpu : Cpu) (slot : Slot) : Outcome Panic (Machine Cpu) :=
  if machine.owner slot ≠ some cpu then .halted .wakeup1
  else .next (machine.setProc slot ((machine.procs slot).wakeup (.proc slot)))

section

variable (machine : Machine Cpu)

/-- `freeproc`. -/
def freeproc (slot : Slot) : Machine Cpu :=
  { machine.setProc slot Proc.free with frees := (slot, machine.proc) :: machine.frees }

/-- `sched`, called by the process that the CPU runs: control goes back to
`scheduler`. -/
def sched (cpu : Cpu) (thread : Slot) (rest : List Slot) : Outcome Panic (Machine Cpu) :=
  if machine.owner thread ≠ some cpu then .halted .schedLock
  else if machine.noff cpu ≠ 1 then .halted .schedLocks
  else if (machine.procs thread).state = .RUNNING then .halted .schedRunning
  else .next (machine.place cpu (.back thread rest))

/-- The last part of `fork`: the child gets its parent and becomes
`RUNNABLE`; its context starts in `forkret`. -/
def born (thread np : Slot) : Machine Cpu :=
  let child := { machine.procs np with parent := some thread, state := .RUNNABLE }
  { machine.setProc np child with
    pc := update machine.pc np .forkret
    trap := update machine.trap np .none
    serial := update machine.serial np machine.births.length
    births := ⟨machine.births.length, child.pid⟩ :: machine.births }

/-- The last assignments of `exit`. -/
def die (thread : Slot) (status : Int) : Machine Cpu :=
  let zombie := { machine.procs thread with xstate := status, state := .ZOMBIE }
  { machine.setProc thread zombie with
    deaths := ⟨machine.serial thread, zombie.pid, status⟩ :: machine.deaths }

/-- The end of a successful `wait`. -/
def reap (thread np : Slot) : Machine Cpu :=
  { machine.freeproc np with
    reapings := ⟨thread, (machine.procs np).parent, machine.serial np, (machine.procs np).pid,
      (machine.procs np).xstate⟩ :: machine.reapings }

end

attribute [simp] setProc setState doze tidyUp goto trapTo place setWaker release freeproc born die
  reap

end Machine

/-- What the rest of the kernel decides: how far the memory suffices in
`fork`, and whether `copyout` succeeds in `wait`. -/
structure Luck where
  memory : Table.Memory
  copyout : Bool
deriving DecidableEq, Repr

/-- The calls of a process. -/
inductive Call where
  | sleep (address : Nat)
  | kill (pid : BitVec 32)
  | fork
  | wait
  | exit (status : Int)
deriving DecidableEq, Repr

/-- The steps of a CPU: one of its own in `scheduler`, one of the process it
runs, or one of `wakeup`. -/
inductive Action (Cpu : Type) where
  | schedule (cpu : Cpu)
  | call (cpu : Cpu) (call : Call)
  | advance (cpu : Cpu) (luck : Luck)
  | timer (cpu : Cpu)
  | wakeup (cpu : Cpu) (address : Nat)
  | wake (cpu : Cpu)

section

variable [DecidableEq Cpu] (machine : Machine Cpu)

/-- One step of `scheduler`. -/
def schedule (cpu : Cpu) : Outcome Panic (Machine Cpu) :=
  match machine.position cpu with
  | .scan [] => .next (machine.place cpu (.scan slots))
  | .scan (slot :: rest) =>
    (machine.acquire cpu slot).andThen fun machine => .next (machine.place cpu (.test slot rest))
  | .test slot rest =>
    if (machine.procs slot).state = .RUNNABLE then
      .next ({ machine.setState slot .RUNNING with
        proc := update machine.proc cpu (some slot) }.place cpu (.run slot rest))
    else .next ((machine.release slot).place cpu (.scan rest))
  | .run _ _ => .blocked
  | .back slot rest =>
    .next (({ machine with proc := update machine.proc cpu none }.release slot).place cpu
      (.scan rest))

/-- A process starts a system call.  The argument of `exit` is recorded. -/
def enter (thread : Slot) : Call → Outcome Panic (Machine Cpu)
  | .sleep address => .next (machine.goto thread (.sleepLock address))
  | .kill pid => .next (machine.goto thread (.killScan pid slots))
  | .fork => .next (machine.goto thread (.forkScan slots))
  | .wait => .next (machine.goto thread .waitEnter)
  | .exit status =>
    if thread = machine.initproc then .halted .initExiting
    else .next ({ machine with exits := ⟨machine.serial thread, status⟩ :: machine.exits }.goto
      thread (.exitInit status))

section

variable (cpu : Cpu) (thread : Slot) (rest : List Slot) (luck : Luck)

/-- One step of a process outside of interrupts, up to its next position. -/
def advance : Outcome Panic (Machine Cpu) :=
  match machine.pc thread with
  | .user => .blocked
  | .dead => .halted .zombieExit
  | .forkret => .next ((machine.release thread).goto thread .user)
  | .sleepLock address =>
    (machine.acquire cpu thread).andThen fun machine =>
      .next (machine.goto thread (.sleepSet address))
  | .sleepSet address =>
    ((machine.doze thread (.other address)).goto thread .sleepBack).sched cpu thread rest
  | .sleepBack => .next (((machine.tidyUp thread).release thread).goto thread .user)
  | .killScan _ [] => .next (machine.goto thread .user)
  | .killScan pid (slot :: todo) =>
    (machine.acquire cpu slot).andThen fun machine =>
      .next (machine.goto thread (.killTest pid slot todo))
  | .killTest pid slot todo =>
    if (machine.procs slot).pid = pid then
      .next (((machine.setProc slot (machine.procs slot).kill).release slot).goto thread .user)
    else .next ((machine.release slot).goto thread (.killScan pid todo))
  | .forkScan [] => .next (machine.goto thread .user)
  | .forkScan (slot :: todo) =>
    (machine.acquire cpu slot).andThen fun machine =>
      .next (machine.goto thread (.forkTest slot todo))
  | .forkTest slot todo =>
    if (machine.procs slot).state = .UNUSED then
      .next ({ machine.setProc slot { machine.procs slot with pid := machine.nextpid } with
        nextpid := machine.nextpid + 1 }.goto thread (.forkFill slot))
    else .next ((machine.release slot).goto thread (.forkScan todo))
  | .forkFill np =>
    match luck.memory with
    | .noTrapframe => .next ((machine.release np).goto thread .user)
    | .noPagetable | .noCopy => .next (((machine.freeproc np).release np).goto thread .user)
    | .enough => .next (((machine.born thread np).release np).goto thread .user)
  | .waitEnter =>
    (machine.acquire cpu thread).andThen fun machine =>
      .next (machine.goto thread (.waitScan slots false))
  | .waitScan [] havekids =>
    if !havekids || (machine.procs thread).killed then
      .next ((machine.release thread).goto thread .user)
    else
      ((machine.doze thread (.proc thread)).goto thread .waitBack).sched cpu thread rest
  | .waitScan (np :: todo) havekids =>
    if (machine.procs np).parent = some thread then
      .next (machine.goto thread (.waitChild np todo))
    else .next (machine.goto thread (.waitScan todo havekids))
  | .waitChild np todo =>
    (machine.acquire cpu np).andThen fun machine => .next (machine.goto thread (.waitLook np todo))
  | .waitLook np todo =>
    if (machine.procs np).state = .ZOMBIE then
      .next ((((if luck.copyout then machine.reap thread np else machine).release np).release
        thread).goto thread .user)
    else .next ((machine.release np).goto thread (.waitScan todo true))
  | .waitBack => .next ((machine.tidyUp thread).goto thread (.waitScan slots false))
  | .exitInit status =>
    (machine.acquire cpu machine.initproc).andThen fun machine =>
      .next (machine.goto thread (.exitWakeInit status))
  | .exitWakeInit status =>
    (machine.wakeup1 cpu machine.initproc).andThen fun machine =>
      .next ((machine.release machine.initproc).goto thread (.exitEnter status))
  | .exitEnter status =>
    (machine.acquire cpu thread).andThen fun machine =>
      .next (machine.goto thread (.exitRead status))
  | .exitRead status =>
    match (machine.procs thread).parent with
    | none => .halted .kerneltrap
    | some op => .next ((machine.release thread).goto thread (.exitParent status op))
  | .exitParent status op =>
    (machine.acquire cpu op).andThen fun machine =>
      .next (machine.goto thread (.exitSelf status op))
  | .exitSelf status op =>
    (machine.acquire cpu thread).andThen fun machine =>
      .next (machine.goto thread (.reparentScan status op slots))
  | .reparentScan status op [] => .next (machine.goto thread (.exitZombie status op))
  | .reparentScan status op (pp :: todo) =>
    if (machine.procs pp).parent = some thread then
      .next (machine.goto thread (.reparentChild status op pp todo))
    else .next (machine.goto thread (.reparentScan status op todo))
  | .reparentChild status op pp todo =>
    (machine.acquire cpu pp).andThen fun machine =>
      .next (machine.goto thread (.reparentGive status op pp todo))
  | .reparentGive status op pp todo =>
    .next (((machine.setProc pp { machine.procs pp with parent := some machine.initproc }).release
      pp).goto thread (.reparentScan status op todo))
  | .exitZombie status op =>
    (machine.wakeup1 cpu op).andThen fun machine =>
      .next (((machine.die thread status).release op).goto thread .exitSched)
  | .exitSched => (machine.goto thread .dead).sched cpu thread rest

/-- One step of `yield`, if the process is in it, and otherwise one of its own. -/
def run : Outcome Panic (Machine Cpu) :=
  match machine.trap thread with
  | .none => advance machine cpu thread rest luck
  | .lock =>
    (machine.acquire cpu thread).andThen fun machine => .next (machine.trapTo thread .set)
  | .set => ((machine.setState thread .RUNNABLE).trapTo thread .back).sched cpu thread rest
  | .back => .next ((machine.release thread).trapTo thread .none)

end

/-- One step of a call of `wakeup`. -/
def wake (cpu : Cpu) : Outcome Panic (Machine Cpu) :=
  match machine.waker cpu with
  | .off => .blocked
  | .scan _ [] => .next (machine.setWaker cpu .off)
  | .scan address (slot :: todo) =>
    (machine.acquire cpu slot).andThen fun machine =>
      .next (machine.setWaker cpu (.test address slot todo))
  | .test address slot todo =>
    .next (((machine.setProc slot ((machine.procs slot).wakeup (.other address))).release
      slot).setWaker cpu (.scan address todo))

/-- One step of one CPU.  The timer interrupts a process only while its CPU
holds no lock; in the kernel it is ignored unless the process is `RUNNING`. -/
def step : Action Cpu → Outcome Panic (Machine Cpu)
  | .schedule cpu => if machine.waker cpu = .off then schedule machine cpu else .blocked
  | .call cpu call =>
    match machine.position cpu with
    | .run thread _ =>
      if machine.waker cpu = .off ∧ machine.trap thread = .none ∧ machine.pc thread = .user then
        enter machine thread call
      else .blocked
    | _ => .blocked
  | .advance cpu luck =>
    match machine.position cpu with
    | .run thread rest =>
      if machine.waker cpu = .off then run machine cpu thread rest luck else .blocked
    | _ => .blocked
  | .timer cpu =>
    match machine.position cpu with
    | .run thread _ =>
      if machine.waker cpu = .off ∧ machine.noff cpu = 0 ∧ machine.trap thread = .none ∧
          (machine.pc thread = .user ∨ (machine.procs thread).state = .RUNNING) then
        .next (machine.trapTo thread .lock)
      else .blocked
    | _ => .blocked
  | .wakeup cpu address =>
    if machine.waker cpu = .off ∧ machine.noff cpu = 0 then
      .next (machine.setWaker cpu (.scan address slots))
    else .blocked
  | .wake cpu => wake machine cpu

end

/-- After `userinit`: init is `RUNNABLE` in slot `0` and every CPU enters
`scheduler`. -/
def boot : Machine Cpu where
  procs := update (fun _ => Proc.free) 0 { Proc.free with state := .RUNNABLE, pid := 1 }
  nextpid := 2
  initproc := 0
  owner := fun _ => none
  pc := update (fun _ => .dead) 0 .forkret
  trap := fun _ => .none
  proc := fun _ => none
  position := fun _ => .scan slots
  waker := fun _ => .off
  serial := fun _ => 0
  births := [⟨0, 1⟩]
  exits := []
  deaths := []
  reapings := []
  frees := []

/-! ## What a step of a process can do -/

/-- The lock that a process at this position is about to acquire, and the
position it has then. -/
def wanted (initproc thread : Slot) : Pc → Option (Slot × Pc)
  | .sleepLock address => some (thread, .sleepSet address)
  | .killScan pid (slot :: todo) => some (slot, .killTest pid slot todo)
  | .forkScan (slot :: todo) => some (slot, .forkTest slot todo)
  | .waitEnter => some (thread, .waitScan slots false)
  | .waitChild np todo => some (np, .waitLook np todo)
  | .exitInit status => some (initproc, .exitWakeInit status)
  | .exitEnter status => some (thread, .exitRead status)
  | .exitParent status op => some (op, .exitSelf status op)
  | .exitSelf status op => some (thread, .reparentScan status op slots)
  | .reparentChild status op pp todo => some (pp, .reparentGive status op pp todo)
  | _ => none

/-- Steps that only read the table. -/
inductive Looks (procs : Slot → Proc) (thread : Slot) : Pc → Pc → Prop where
  | killEnd (pid : BitVec 32) : Looks procs thread (.killScan pid []) .user
  | forkEnd : Looks procs thread (.forkScan []) .user
  | child (np : Slot) (todo : List Slot) (havekids : Bool)
      (mine : (procs np).parent = some thread) :
      Looks procs thread (.waitScan (np :: todo) havekids) (.waitChild np todo)
  | stranger (np : Slot) (todo : List Slot) (havekids : Bool)
      (notMine : (procs np).parent ≠ some thread) :
      Looks procs thread (.waitScan (np :: todo) havekids) (.waitScan todo havekids)
  | allGiven (status : Int) (op : Slot) :
      Looks procs thread (.reparentScan status op []) (.exitZombie status op)
  | orphan (status : Int) (op pp : Slot) (todo : List Slot)
      (mine : (procs pp).parent = some thread) :
      Looks procs thread (.reparentScan status op (pp :: todo)) (.reparentChild status op pp todo)
  | notOrphan (status : Int) (op pp : Slot) (todo : List Slot)
      (notMine : (procs pp).parent ≠ some thread) :
      Looks procs thread (.reparentScan status op (pp :: todo)) (.reparentScan status op todo)

/-- Steps that release one lock and do nothing else. -/
inductive Unlocks (procs : Slot → Proc) (thread : Slot) : Pc → Slot → Pc → Prop where
  | forkret : Unlocks procs thread .forkret thread .user
  | notVictim (pid : BitVec 32) (slot : Slot) (todo : List Slot) :
      Unlocks procs thread (.killTest pid slot todo) slot (.killScan pid todo)
  | taken (slot : Slot) (todo : List Slot) :
      Unlocks procs thread (.forkTest slot todo) slot (.forkScan todo)
  | noTrapframe (np : Slot) : Unlocks procs thread (.forkFill np) np .user
  | childless (havekids : Bool) : Unlocks procs thread (.waitScan [] havekids) thread .user
  | living (np : Slot) (todo : List Slot) (alive : (procs np).state ≠ .ZOMBIE) :
      Unlocks procs thread (.waitLook np todo) np (.waitScan todo true)
  | parent (status : Int) (op : Slot) (above : (procs thread).parent = some op) :
      Unlocks procs thread (.exitRead status) thread (.exitParent status op)

section

variable [DecidableEq Cpu] {machine next : Machine Cpu} {cpu : Cpu} {thread : Slot}
  {rest : List Slot} {luck : Luck}

/-- What a process leaves behind when it calls `sched`. -/
inductive Parks (machine : Machine Cpu) (thread : Slot) : Machine Cpu → Prop where
  | sleep (address : Nat) (here : machine.pc thread = .sleepSet address) :
      Parks machine thread ((machine.doze thread (.other address)).goto thread .sleepBack)
  | wait (here : machine.pc thread = .waitScan [] true) :
      Parks machine thread ((machine.doze thread (.proc thread)).goto thread .waitBack)
  | exit (here : machine.pc thread = .exitSched) : Parks machine thread (machine.goto thread .dead)

/-- Everything a process can do in one step outside of interrupts. -/
inductive Advanced (machine : Machine Cpu) (cpu : Cpu) (thread : Slot) (rest : List Slot) :
    Machine Cpu → Prop where
  | lock (lock : Slot) (pc : Pc)
      (wants : wanted machine.initproc thread (machine.pc thread) = some (lock, pc))
      (free : machine.owner lock = none) :
      Advanced machine cpu thread rest
        ({ machine with owner := update machine.owner lock (some cpu) }.goto thread pc)
  | look (pc : Pc) (looks : Looks machine.procs thread (machine.pc thread) pc) :
      Advanced machine cpu thread rest (machine.goto thread pc)
  | unlock (lock : Slot) (pc : Pc)
      (unlocks : Unlocks machine.procs thread (machine.pc thread) lock pc) :
      Advanced machine cpu thread rest ((machine.release lock).goto thread pc)
  | park (parked : Machine Cpu) (parks : Parks machine thread parked)
      (stopped : (parked.procs thread).state ≠ .RUNNING) :
      Advanced machine cpu thread rest (parked.place cpu (.back thread rest))
  | sleepBack (here : machine.pc thread = .sleepBack) :
      Advanced machine cpu thread rest (((machine.tidyUp thread).release thread).goto thread .user)
  | waitBack (here : machine.pc thread = .waitBack) :
      Advanced machine cpu thread rest ((machine.tidyUp thread).goto thread (.waitScan slots false))
  | kill (pid : BitVec 32) (slot : Slot) (todo : List Slot)
      (here : machine.pc thread = .killTest pid slot todo) :
      Advanced machine cpu thread rest
        (((machine.setProc slot (machine.procs slot).kill).release slot).goto thread .user)
  | allocpid (slot : Slot) (todo : List Slot) (here : machine.pc thread = .forkTest slot todo)
      (unused : (machine.procs slot).state = .UNUSED) :
      Advanced machine cpu thread rest
        ({ machine.setProc slot { machine.procs slot with pid := machine.nextpid } with
          nextpid := machine.nextpid + 1 }.goto thread (.forkFill slot))
  | undo (np : Slot) (here : machine.pc thread = .forkFill np) :
      Advanced machine cpu thread rest (((machine.freeproc np).release np).goto thread .user)
  | born (np : Slot) (here : machine.pc thread = .forkFill np) :
      Advanced machine cpu thread rest (((machine.born thread np).release np).goto thread .user)
  | reap (np : Slot) (todo : List Slot) (here : machine.pc thread = .waitLook np todo)
      (zombie : (machine.procs np).state = .ZOMBIE) :
      Advanced machine cpu thread rest
        ((((machine.reap thread np).release np).release thread).goto thread .user)
  | giveUp (np : Slot) (todo : List Slot) (here : machine.pc thread = .waitLook np todo) :
      Advanced machine cpu thread rest (((machine.release np).release thread).goto thread .user)
  | wakeInit (status : Int) (here : machine.pc thread = .exitWakeInit status) :
      Advanced machine cpu thread rest
        (((machine.setProc machine.initproc
          ((machine.procs machine.initproc).wakeup (.proc machine.initproc))).release
            machine.initproc).goto thread (.exitEnter status))
  | give (status : Int) (op pp : Slot) (todo : List Slot)
      (here : machine.pc thread = .reparentGive status op pp todo) :
      Advanced machine cpu thread rest
        (((machine.setProc pp { machine.procs pp with parent := some machine.initproc }).release
          pp).goto thread (.reparentScan status op todo))
  | die (status : Int) (op : Slot) (here : machine.pc thread = .exitZombie status op) :
      Advanced machine cpu thread rest
        ((((machine.setProc op ((machine.procs op).wakeup (.proc op))).die thread status).release
          op).goto thread .exitSched)

theorem acquire_andThen_eq_next {lock : Slot} {rest : Machine Cpu → Outcome Panic (Machine Cpu)} :
    (machine.acquire cpu lock).andThen rest = .next next ↔ machine.owner lock = none ∧
      rest { machine with owner := update machine.owner lock (some cpu) } = .next next := by
  unfold Machine.acquire
  split
  · rename_i free
    simp [free, Outcome.andThen]
  · rename_i other taken
    simp only [taken, reduceCtorEq, false_and, iff_false]
    split <;> simp [Outcome.andThen]

theorem sched_eq_next :
    machine.sched cpu thread rest = .next next →
      (machine.procs thread).state ≠ .RUNNING ∧ next = machine.place cpu (.back thread rest) := by
  unfold Machine.sched
  intro stepped
  rcases check_eq_next.mp stepped with ⟨_, stepped⟩
  rcases check_eq_next.mp stepped with ⟨_, stepped⟩
  rcases check_eq_next.mp stepped with ⟨guard, stepped⟩
  cases stepped
  exact ⟨guard, rfl⟩

theorem wakeup1_eq_next {slot : Slot} (wakes : machine.wakeup1 cpu slot = .next next) :
    next = machine.setProc slot ((machine.procs slot).wakeup (.proc slot)) := by
  unfold Machine.wakeup1 at wakes
  rcases check_eq_next.mp wakes with ⟨_, wakes⟩
  cases wakes
  rfl

theorem advanced_of_acquire {lock : Slot} {pc : Pc}
    (wants : wanted machine.initproc thread (machine.pc thread) = some (lock, pc))
    (stepped : ((machine.acquire cpu lock).andThen fun machine =>
      .next (machine.goto thread pc)) = .next next) : Advanced machine cpu thread rest next := by
  rcases acquire_andThen_eq_next.mp stepped with ⟨free, moved⟩
  cases moved
  exact .lock lock pc wants free

theorem advanced_of_sched {parked : Machine Cpu} (parks : Parks machine thread parked)
    (stepped : parked.sched cpu thread rest = .next next) : Advanced machine cpu thread rest next := by
  rcases sched_eq_next stepped with ⟨stopped, rfl⟩
  exact .park parked parks stopped

theorem advanced_of_advance (stepped : advance machine cpu thread rest luck = .next next) :
    Advanced machine cpu thread rest next := by
  unfold advance at stepped
  generalize here : machine.pc thread = pc at stepped
  cases pc with
  | user | dead => cases stepped
  | forkret =>
    cases stepped
    exact .unlock thread .user (here ▸ .forkret)
  | sleepLock _ | waitEnter | waitChild _ _ | exitInit _ | exitEnter _ | exitParent _ _
  | exitSelf _ _ | reparentChild _ _ _ _ =>
    exact advanced_of_acquire (by rw [here]; rfl) stepped
  | sleepSet address =>
    exact advanced_of_sched (.sleep address here) stepped
  | sleepBack =>
    cases stepped
    exact .sleepBack here
  | waitBack =>
    cases stepped
    exact .waitBack here
  | killScan pid todo =>
    cases todo with
    | nil =>
      cases stepped
      exact .look .user (here ▸ .killEnd pid)
    | cons slot todo =>
      exact advanced_of_acquire (by rw [here]; rfl) stepped
  | killTest pid slot todo =>
    dsimp only at stepped
    split at stepped
    · cases stepped
      exact .kill pid slot todo here
    · cases stepped
      exact .unlock slot _ (here ▸ .notVictim pid slot todo)
  | forkScan todo =>
    cases todo with
    | nil =>
      cases stepped
      exact .look .user (here ▸ .forkEnd)
    | cons slot todo =>
      exact advanced_of_acquire (by rw [here]; rfl) stepped
  | forkTest slot todo =>
    dsimp only at stepped
    split at stepped
    · cases stepped
      exact .allocpid slot todo here ‹_›
    · cases stepped
      exact .unlock slot _ (here ▸ .taken slot todo)
  | forkFill np =>
    cases memory : luck.memory with
    | noTrapframe =>
      simp only [memory] at stepped
      cases stepped
      exact .unlock np .user (here ▸ .noTrapframe np)
    | noPagetable | noCopy =>
      simp only [memory] at stepped
      cases stepped
      exact .undo np here
    | enough =>
      simp only [memory] at stepped
      cases stepped
      exact .born np here
  | waitScan todo havekids =>
    cases todo with
    | nil =>
      dsimp only at stepped
      split at stepped
      · cases stepped
        exact .unlock thread .user (here ▸ .childless havekids)
      · rename_i waits
        have found : havekids = true := by
          cases havekids with
          | true => rfl
          | false => simp at waits
        exact advanced_of_sched (.wait (found ▸ here)) stepped
    | cons np todo =>
      dsimp only at stepped
      split at stepped
      · cases stepped
        exact .look _ (here ▸ .child np todo havekids ‹_›)
      · cases stepped
        exact .look _ (here ▸ .stranger np todo havekids ‹_›)
  | waitLook np todo =>
    dsimp only at stepped
    split at stepped
    · rename_i zombie
      cases copied : luck.copyout with
      | true =>
        simp only [copied, if_true] at stepped
        cases stepped
        exact .reap np todo here zombie
      | false =>
        simp only [copied, Bool.false_eq_true, if_false] at stepped
        cases stepped
        exact .giveUp np todo here
    · cases stepped
      exact .unlock np _ (here ▸ .living np todo ‹_›)
  | exitWakeInit status =>
    rcases Outcome.andThen_eq_next.mp stepped with ⟨woken, wakes, moved⟩
    cases moved
    rw [wakeup1_eq_next wakes]
    exact .wakeInit status here
  | exitRead status =>
    dsimp only at stepped
    split at stepped
    · cases stepped
    · rename_i op above
      cases stepped
      exact .unlock thread _ (here ▸ .parent status op above)
  | reparentScan status op todo =>
    cases todo with
    | nil =>
      cases stepped
      exact .look _ (here ▸ .allGiven status op)
    | cons pp todo =>
      dsimp only at stepped
      split at stepped
      · cases stepped
        exact .look _ (here ▸ .orphan status op pp todo ‹_›)
      · cases stepped
        exact .look _ (here ▸ .notOrphan status op pp todo ‹_›)
  | reparentGive status op pp todo =>
    cases stepped
    exact .give status op pp todo here
  | exitZombie status op =>
    rcases Outcome.andThen_eq_next.mp stepped with ⟨woken, wakes, moved⟩
    cases moved
    rw [wakeup1_eq_next wakes]
    exact .die status op here
  | exitSched =>
    exact advanced_of_sched (.exit here) stepped

end

end Sched
end Process
end Xv6
