import Mathlib.Data.Fintype.Basic
import Xv6.Foundation.Circular
import Xv6.Foundation.Run
import Xv6.Panic

namespace Xv6
namespace Pipe

open Foundation Function

/-!
# Pipes

One pipe and the processes that share it.  Everything that `pipewrite`,
`piperead` and `pipeclose` do happens while the lock of the pipe is held, and
`sleep` gives up the lock only when nobody can miss a wakeup any more, because
it holds `p->lock` by then.  So the steps of the model are the stretches from an
acquisition of the lock to the next release: a call runs until it returns or
sleeps, and a process that was woken runs on from the test of its `while`.

`p->killed` is read at most once in such a stretch.  A process that is killed
between the acquisition and this test behaves like a process that was killed
before the stretch, and one that is killed after the test like a process that is
killed after the stretch, except that `kill` does not wake it if it is still on its
way into `sleep`.

The bytes that a writer copies in are a function that fails where the address
is not mapped; for a reader only the places where copying fails matter.
-/

def PIPESIZE : Nat := 512

/-- `struct pipe`, with `data`, `nread` and `nwrite` of the circular buffer. -/
structure PipeState extends Circular UInt8 32 where
  readopen : Bool
  writeopen : Bool

namespace PipeState

/-- `pi->nwrite == pi->nread + PIPESIZE`. -/
def Full (pi : PipeState) : Prop :=
  pi.nwrite = pi.nread + BitVec.ofNat 32 PIPESIZE

/-- `pi->nread == pi->nwrite`. -/
def Empty (pi : PipeState) : Prop :=
  pi.nread = pi.nwrite

instance (pi : PipeState) : Decidable pi.Full :=
  inferInstanceAs (Decidable (_ = _))

instance (pi : PipeState) : Decidable pi.Empty :=
  inferInstanceAs (Decidable (_ = _))

end PipeState

/-- The two addresses on which processes sleep. -/
inductive Channel where
  | nread
  | nwrite
deriving DecidableEq, Repr

/-- The local variables of a call that is in progress: what is left of a write
after `i` bytes, or a read. -/
inductive Activity where
  | outside
  | writing (source : Nat → Option UInt8) (n : Int) (i : Nat)
  | reading (target : Nat → Bool) (n : Int)

namespace Activity

/-- Where a process sleeps in the call. -/
def channel : Activity → Option Channel
  | .outside => none
  | .writing .. => some .nwrite
  | .reading .. => some .nread

/-- A process in a call has a descriptor for this end of the pipe. -/
def uses (activity : Activity) (writable : Bool) : Bool :=
  match activity with
  | .outside => false
  | .writing .. => writable
  | .reading .. => !writable

def isOutside (activity : Activity) : Bool :=
  activity.channel.isNone

end Activity

structure Process where
  activity : Activity
  asleep : Bool
  killed : Bool

/-- `SLEEPING` on the channel. -/
def Process.SleepsOn (process : Process) (channel : Channel) : Prop :=
  process.asleep = true ∧ process.activity.channel = some channel

instance (process : Process) (channel : Channel) : Decidable (process.SleepsOn channel) :=
  inferInstanceAs (Decidable (_ ∧ _))

/-- A call that has returned: of `pipewrite` or of `piperead`, for so many
bytes, with this value. -/
structure Return (Pid : Type) where
  pid : Pid
  writable : Bool
  n : Int
  value : Int
deriving DecidableEq

/-- The pipe and its processes.  The bytes stored so far, the bytes handed to
readers so far, and the calls that have returned are kept as history. -/
structure System (Pid : Type) where
  pi : PipeState
  procs : Pid → Process
  stored : List UInt8
  received : List UInt8
  returns : List (Return Pid)

section

variable {Pid : Type} [DecidableEq Pid]

namespace System

variable (system : System Pid)

/-- `wakeup`. -/
def wakeup (channel : Channel) : System Pid :=
  { system with
    procs := fun pid =>
      if (system.procs pid).SleepsOn channel then { system.procs pid with asleep := false }
      else system.procs pid }

/-- `sleep` in the middle of a call. -/
def sleep (pid : Pid) (activity : Activity) : System Pid :=
  { system with
    procs := update system.procs pid
      { system.procs pid with activity := activity, asleep := true } }

/-- The call returns. -/
def leave (pid : Pid) (writable : Bool) (n value : Int) : System Pid :=
  { system with
    procs := update system.procs pid { system.procs pid with activity := .outside, asleep := false }
    returns := system.returns ++ [⟨pid, writable, n, value⟩] }

/-- `pi->data[pi->nwrite++ % PIPESIZE] = ch`. -/
def store (ch : UInt8) : System Pid :=
  { system with
    pi := { system.pi with toCircular := system.pi.toCircular.push PIPESIZE ch }
    stored := system.stored ++ [ch] }

/-- `ch = pi->data[pi->nread++ % PIPESIZE]`, and whether `ch` reaches the
reader. -/
def take (copied : Bool) : System Pid :=
  { system with
    pi := { system.pi with toCircular := system.pi.toCircular.pop }
    received := if copied then system.received ++ [system.pi.toCircular.head PIPESIZE]
      else system.received }

end System

/-- The loop of `pipewrite` from byte `i` on, with `left` bytes to go, and what
follows it. -/
def pipewriteFrom (pid : Pid) (source : Nat → Option UInt8) (n : Int) :
    (i left : Nat) → System Pid → System Pid
  | i, 0, system => (system.wakeup .nread).leave pid true n i
  | i, left + 1, system =>
    if system.pi.Full then
      if system.pi.readopen = false ∨ (system.procs pid).killed = true then
        system.leave pid true n (-1)
      else (system.wakeup .nread).sleep pid (.writing source n i)
    else
      match source i with
      | none => (system.wakeup .nread).leave pid true n i
      | some ch => pipewriteFrom pid source n (i + 1) left (system.store ch)

/-- `pipewrite`, from byte `i` on. -/
def pipewrite (pid : Pid) (source : Nat → Option UInt8) (n : Int) (i : Nat)
    (system : System Pid) : System Pid :=
  pipewriteFrom pid source n i (n.toNat - i) system

/-- The second loop of `piperead`, with the value of `i` at its end. -/
def pipereadFrom (target : Nat → Bool) : (i left : Nat) → System Pid → System Pid × Nat
  | i, 0, system => (system, i)
  | i, left + 1, system =>
    if system.pi.Empty then (system, i)
    else if target i = true then pipereadFrom target (i + 1) left (system.take true)
    else (system.take false, i)

/-- `piperead`. -/
def piperead (pid : Pid) (target : Nat → Bool) (n : Int) (system : System Pid) : System Pid :=
  if system.pi.Empty ∧ system.pi.writeopen = true then
    if (system.procs pid).killed = true then system.leave pid false n (-1)
    else system.sleep pid (.reading target n)
  else
    let copied := pipereadFrom target 0 n.toNat system
    (copied.1.wakeup .nwrite).leave pid false n copied.2

/-- `pipeclose`, up to `kfree`. -/
def pipeclose (writable : Bool) (system : System Pid) : System Pid :=
  if writable = true then
    { system with pi := { system.pi with writeopen := false } }.wakeup .nread
  else { system with pi := { system.pi with readopen := false } }.wakeup .nwrite

/-- `kill`, which wakes the process if it finds it `SLEEPING`. -/
def kill (pid : Pid) (wakes : Bool) (system : System Pid) : System Pid :=
  { system with
    procs := update system.procs pid
      { system.procs pid with killed := true, asleep := (system.procs pid).asleep && !wakes } }

/-- A process calls `pipewrite` or `piperead`, a process that is not asleep goes
on with its call, the last descriptor of an end is closed, or a process is
killed. -/
inductive Action (Pid : Type) where
  | write (pid : Pid) (source : Nat → Option UInt8) (n : Int)
  | read (pid : Pid) (target : Nat → Bool) (n : Int)
  | run (pid : Pid)
  | close (writable : Bool)
  | kill (pid : Pid) (wakes : Bool)

/-- Is the end open? -/
def PipeState.isOpen (pi : PipeState) (writable : Bool) : Bool :=
  if writable then pi.writeopen else pi.readopen

variable [Fintype Pid]

def step (system : System Pid) : Action Pid → Outcome Panic (System Pid)
  | .write pid source n =>
    if (system.procs pid).activity.isOutside ∧ system.pi.writeopen = true then
      .next (pipewrite pid source n 0 system)
    else .blocked
  | .read pid target n =>
    if (system.procs pid).activity.isOutside ∧ system.pi.readopen = true then
      .next (piperead pid target n system)
    else .blocked
  | .run pid =>
    if (system.procs pid).asleep = true then .blocked
    else
      match (system.procs pid).activity with
      | .outside => .blocked
      | .writing source n i => .next (pipewrite pid source n i system)
      | .reading target n => .next (piperead pid target n system)
  | .close writable =>
    if system.pi.isOpen writable = true ∧
        ∀ pid, (system.procs pid).activity.uses writable = false then
      .next (pipeclose writable system)
    else .blocked
  | .kill pid wakes => .next (kill pid wakes system)

/-- What a step does, with what it has tested. -/
inductive Stepped (system : System Pid) : Action Pid → System Pid → Prop where
  | write (pid : Pid) (source : Nat → Option UInt8) (n : Int)
      (ready : (system.procs pid).activity.isOutside ∧ system.pi.writeopen = true) :
      Stepped system (.write pid source n) (pipewrite pid source n 0 system)
  | read (pid : Pid) (target : Nat → Bool) (n : Int)
      (ready : (system.procs pid).activity.isOutside ∧ system.pi.readopen = true) :
      Stepped system (.read pid target n) (piperead pid target n system)
  | writeOn (pid : Pid) (source : Nat → Option UInt8) (n : Int) (i : Nat)
      (awake : ¬ (system.procs pid).asleep = true)
      (isWriting : (system.procs pid).activity = .writing source n i) :
      Stepped system (.run pid) (pipewrite pid source n i system)
  | readOn (pid : Pid) (target : Nat → Bool) (n : Int) (awake : ¬ (system.procs pid).asleep = true)
      (isReading : (system.procs pid).activity = .reading target n) :
      Stepped system (.run pid) (piperead pid target n system)
  | close (writable : Bool) (closing : system.pi.isOpen writable = true ∧
        ∀ pid, (system.procs pid).activity.uses writable = false) :
      Stepped system (.close writable) (pipeclose writable system)
  | kill (pid : Pid) (wakes : Bool) :
      Stepped system (.kill pid wakes) (kill pid wakes system)

theorem stepped_of_step {system after : System Pid} {action : Action Pid}
    (ran : step system action = .next after) : Stepped system action after := by
  cases action with
  | write pid source n =>
    rcases guard_eq_next.mp ran with ⟨guard, ran⟩
    cases ran
    exact .write pid source n guard
  | read pid target n =>
    rcases guard_eq_next.mp ran with ⟨guard, ran⟩
    cases ran
    exact .read pid target n guard
  | run pid =>
    simp only [step] at ran
    split at ran
    · cases ran
    · split at ran
      · cases ran
      · cases ran
        exact .writeOn pid _ _ _ ‹_› ‹_›
      · cases ran
        exact .readOn pid _ _ ‹_› ‹_›
  | close writable =>
    rcases guard_eq_next.mp ran with ⟨guard, ran⟩
    cases ran
    exact .close writable guard
  | kill pid wakes =>
    cases ran
    exact .kill pid wakes

/-- The pipe that `pipealloc` has made, in memory with any contents. -/
def pipealloc (data : Nat → UInt8) : System Pid where
  pi := { data := data, nread := 0, nwrite := 0, readopen := true, writeopen := true }
  procs := fun _ => ⟨.outside, false, false⟩
  stored := []
  received := []
  returns := []

end

end Pipe
end Xv6
