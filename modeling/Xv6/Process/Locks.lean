import Xv6.Foundation.LockOrder
import Xv6.Process.Table

namespace Xv6
namespace Process
namespace Locks

open Foundation Function

/-!
# The process locks of `fork`, `wait` and `exit`

The calls of `kernel/proc.c` that take `p->lock`, cut at every `acquire` and
`release`.  Each process in the table runs one thread of kernel code, and
`Pc` says where that thread is; between two positions the code reads or
writes fields of `struct proc`.  An `acquire` is a step that is enabled only
while the lock is free.  `sched` hands `p->lock` to the scheduler, which
releases it, and a sleeping process starts again by taking its own lock back.

`wait` locks a process and then its children.  `exit` reads its parent,
releases its own lock, and then locks that slot, itself and its children in
turn.  Whoever occupies the slot by then is locked first, be it the parent or
not.
-/

/-- Where a thread is in `fork`, `wait` or `exit`.  A list argument holds the
slots that a loop over the table has still to visit, and `op` is the local
variable `original_parent` of `exit`. -/
inductive Pc where
  | idle
  | user
  | forkScan (rest : List Slot)
  | forkTest (slot : Slot) (rest : List Slot)
  | forkFill (np : Slot)
  | waitEnter
  | waitScan (rest : List Slot) (havekids : Bool)
  | waitChild (np : Slot) (rest : List Slot)
  | waitLook (np : Slot) (rest : List Slot)
  | waitAsleep
  | exitInit
  | exitWakeInit
  | exitEnter
  | exitRead
  | exitParent (op : Slot)
  | exitSelf (op : Slot)
  | reparentScan (op : Slot) (rest : List Slot)
  | reparentChild (op pp : Slot) (rest : List Slot)
  | reparentGive (op pp : Slot) (rest : List Slot)
  | exitZombie (op : Slot)
  | exitSched
deriving DecidableEq, Repr

/-- The fields of the table that matter for locking, with the owner of each
`p->lock` and the position of each thread. -/
structure Machine where
  state : Slot → ProcState
  parent : Slot → Option Slot
  owner : Slot → Option Slot
  pc : Slot → Pc
  initproc : Slot

namespace Machine

variable (machine : Machine)

def setState (slot : Slot) (state : ProcState) : Machine :=
  { machine with state := update machine.state slot state }

def setParent (slot : Slot) (parent : Option Slot) : Machine :=
  { machine with parent := update machine.parent slot parent }

/-- Move a thread to its next position. -/
def goto (thread : Slot) (pc : Pc) : Machine :=
  { machine with pc := update machine.pc thread pc }

def release (lock : Slot) : Machine :=
  { machine with owner := update machine.owner lock none }

/-- `acquire(&x->lock)`: enabled only while the lock is free. -/
def acquire (thread lock : Slot) (pc : Pc) : Outcome Panic Machine :=
  if machine.owner lock = none then
    .next ({ machine with owner := update machine.owner lock (some thread) }.goto thread pc)
  else .blocked

/-- `wakeup1`. -/
def wakeup1 (slot : Slot) : Machine :=
  if machine.state slot = .SLEEPING then machine.setState slot .RUNNABLE else machine

/-- `freeproc`, as far as this model keeps the fields. -/
def freeproc (slot : Slot) : Machine :=
  (machine.setParent slot none).setState slot .UNUSED

end Machine

/-- The order in which the loops visit `proc[NPROC]`. -/
def slots : List Slot :=
  List.finRange NPROC

/-- The calls of a process in user mode. -/
inductive Call where
  | fork
  | wait
  | exit
deriving DecidableEq, Repr

/-- A thread starts a call, or runs to its next position.  The flag decides
what this model leaves open: whether memory suffices in `fork`, whether
`copyout` succeeds in `wait`, and whether the waiting process was killed. -/
inductive Action where
  | call (thread : Slot) (call : Call)
  | advance (thread : Slot) (flag : Bool)
deriving DecidableEq, Repr

/-- Enter a system call. -/
def enter (machine : Machine) (thread : Slot) : Call → Outcome Panic Machine
  | .fork => .next (machine.goto thread (.forkScan slots))
  | .wait => .next (machine.goto thread .waitEnter)
  | .exit =>
    if thread = machine.initproc then .halted .initExiting
    else .next (machine.goto thread .exitInit)

/-- Run a thread from its position to the next one.  A process without a
parent faults in `exit` when it locks the null pointer. -/
def advance (machine : Machine) (thread : Slot) (flag : Bool) : Outcome Panic Machine :=
  match machine.pc thread with
  | .idle | .user => .blocked
  | .forkScan [] => .next (machine.goto thread .user)
  | .forkScan (slot :: rest) => machine.acquire thread slot (.forkTest slot rest)
  | .forkTest slot rest =>
    if machine.state slot = .UNUSED then .next (machine.goto thread (.forkFill slot))
    else .next ((machine.release slot).goto thread (.forkScan rest))
  | .forkFill np =>
    if flag then
      .next (((((machine.setParent np (some thread)).setState np .RUNNABLE).goto np .user).release
        np).goto thread .user)
    else .next (((machine.freeproc np).release np).goto thread .user)
  | .waitEnter => machine.acquire thread thread (.waitScan slots false)
  | .waitScan [] havekids =>
    if !havekids || flag then .next ((machine.release thread).goto thread .user)
    else .next (((machine.setState thread .SLEEPING).release thread).goto thread .waitAsleep)
  | .waitScan (np :: rest) havekids =>
    if machine.parent np = some thread then .next (machine.goto thread (.waitChild np rest))
    else .next (machine.goto thread (.waitScan rest havekids))
  | .waitChild np rest => machine.acquire thread np (.waitLook np rest)
  | .waitLook np rest =>
    if machine.state np = .ZOMBIE then
      let reaped := if flag then machine.freeproc np else machine
      .next (((reaped.release np).release thread).goto thread .user)
    else .next ((machine.release np).goto thread (.waitScan rest true))
  | .waitAsleep =>
    (machine.setState thread .RUNNING).acquire thread thread (.waitScan slots false)
  | .exitInit => machine.acquire thread machine.initproc .exitWakeInit
  | .exitWakeInit =>
    .next (((machine.wakeup1 machine.initproc).release machine.initproc).goto thread .exitEnter)
  | .exitEnter => machine.acquire thread thread .exitRead
  | .exitRead =>
    match machine.parent thread with
    | none => .halted .kerneltrap
    | some op => .next ((machine.release thread).goto thread (.exitParent op))
  | .exitParent op => machine.acquire thread op (.exitSelf op)
  | .exitSelf op => machine.acquire thread thread (.reparentScan op slots)
  | .reparentScan op [] => .next (machine.goto thread (.exitZombie op))
  | .reparentScan op (pp :: rest) =>
    if machine.parent pp = some thread then .next (machine.goto thread (.reparentChild op pp rest))
    else .next (machine.goto thread (.reparentScan op rest))
  | .reparentChild op pp rest => machine.acquire thread pp (.reparentGive op pp rest)
  | .reparentGive op pp rest =>
    .next (((machine.setParent pp (some machine.initproc)).release pp).goto thread
      (.reparentScan op rest))
  | .exitZombie op =>
    .next ((((machine.wakeup1 op).setState thread .ZOMBIE).release op).goto thread .exitSched)
  | .exitSched => .next ((machine.release thread).goto thread .idle)

def step (machine : Machine) : Action → Outcome Panic Machine
  | .call thread call => if machine.pc thread = .user then enter machine thread call else .blocked
  | .advance thread flag => advance machine thread flag

/-- After `userinit` only init exists. -/
def boot : Machine where
  state := update (fun _ => .UNUSED) 0 .RUNNABLE
  parent := fun _ => none
  owner := fun _ => none
  pc := update (fun _ => .idle) 0 .user
  initproc := 0

/-! ## Deadlock -/

/-- The lock that a thread at this position is about to acquire. -/
def wanted (initproc thread : Slot) : Pc → Option Slot
  | .forkScan (slot :: _) => some slot
  | .waitChild np _ => some np
  | .waitEnter | .waitAsleep | .exitEnter | .exitSelf _ => some thread
  | .exitInit => some initproc
  | .exitParent op => some op
  | .reparentChild _ pp _ => some pp
  | _ => none

section

variable (machine : Machine) (thread : Slot) (lock : Slot)

def Holds : Prop :=
  machine.owner lock = some thread

def Waits : Prop :=
  wanted machine.initproc thread (machine.pc thread) = some lock

end

/-- Processes wait in a cycle, each for a lock that the next one holds. -/
def Deadlocked (machine : Machine) : Prop :=
  Deadlock (Holds machine) (Waits machine)

/-! ## The lock order -/

/-- The `original_parent` that a thread in `exit` has read and will lock or
has locked before itself. -/
@[simp] def remembered : Pc → Option Slot
  | .exitParent op | .exitSelf op | .reparentScan op _ | .reparentChild op _ _
  | .reparentGive op _ _ | .exitZombie op => some op
  | _ => none

/-- The locks held by a thread at this position. -/
@[simp] def heldAt (initproc thread : Slot) : Pc → List Slot
  | .forkTest slot _ => [slot]
  | .forkFill np => [np]
  | .waitScan _ _ | .waitChild _ _ | .exitRead | .exitSched => [thread]
  | .waitLook np _ => [np, thread]
  | .exitWakeInit => [initproc]
  | .exitSelf op => [op]
  | .reparentScan op _ | .reparentChild op _ _ | .exitZombie op => [thread, op]
  | .reparentGive op pp _ => [pp, thread, op]
  | _ => []

/-- The child that a thread has seen to be its own. -/
@[simp] def childAt : Pc → Option Slot
  | .waitChild np _ | .waitLook np _ => some np
  | .reparentChild _ pp _ | .reparentGive _ pp _ => some pp
  | _ => none

/-- A slot comes directly before another in the lock order if it is the
parent, or if it is what an exiting process remembers as its parent. -/
def Precedes (machine : Machine) (above below : Slot) : Prop :=
  machine.parent below = some above ∨ remembered (machine.pc below) = some above

/-- When `fork` puts a process into a slot, the slot does not come before the
caller: no exiting ancestor of the caller still remembers the slot as its
parent. -/
def ReusesNoAncestor (machine : Machine) : Action → Prop
  | .advance thread true =>
    ∀ np, machine.pc thread = .forkFill np → ¬ Relation.ReflTransGen (Precedes machine) np thread
  | _ => True

/-! ## The invariant -/

/-- What holds in every state of a run that meets the condition: positions
and owners of locks agree, a thread's child is its own, the fields of unused
and dead slots are as `freeproc` and `exit` leave them, nothing comes before
init, and the lock order has no cycle. -/
structure Sound (machine : Machine) : Prop where
  held : ∀ thread lock, machine.owner lock = some thread ↔
    lock ∈ heldAt machine.initproc thread (machine.pc thread)
  child : ∀ thread slot, childAt (machine.pc thread) = some slot → machine.parent slot = some thread
  fill : ∀ thread np, machine.pc thread = .forkFill np → machine.state np = .UNUSED
  unused : ∀ slot, machine.state slot = .UNUSED →
    machine.parent slot = none ∧ machine.pc slot = .idle
  zombie : ∀ slot, machine.state slot = .ZOMBIE →
    machine.pc slot = .exitSched ∨ machine.pc slot = .idle
  initLive : machine.state machine.initproc ≠ .UNUSED
  initFirst : ∀ above, ¬ Precedes machine above machine.initproc
  acyclic : Acyclic (Precedes machine)

theorem boot_sound : Sound boot := by
  have noEdge : ∀ above below, ¬ Precedes boot above below := by
    intro above below
    by_cases first : below = 0 <;> simp [Precedes, boot, first]
  refine ⟨?_, ?_, ?_, ?_, ?_, by decide, fun above => noEdge above _, ?_⟩
  · intro thread lock
    by_cases first : thread = 0 <;> simp [boot, first]
  · intro thread slot
    by_cases first : thread = 0 <;> simp [boot, first]
  · intro thread np
    by_cases first : thread = 0 <;> simp [boot, first]
  · intro slot
    by_cases first : slot = 0 <;> simp [boot, first]
  · intro slot
    by_cases first : slot = 0 <;> simp [boot, first]
  · intro lock cycle
    rcases Relation.TransGen.tail'_iff.mp cycle with ⟨middle, _, edge⟩
    exact noEdge middle lock edge

variable {above below slot lock np op : Slot} {next : Pc} {state : ProcState} {after : Machine}
  {rest : List Slot} {action : Action}

namespace Sound

variable {machine : Machine} {thread : Slot}

section

variable (sound : Sound machine)
include sound

theorem precedes_ne (edge : Precedes machine above below) : above ≠ below := by
  rintro rfl
  exact sound.acyclic above (.single edge)

theorem precedes_ne_second {middle : Slot}
    (first : Precedes machine above middle) (second : Precedes machine middle below) :
    above ≠ below := by
  rintro rfl
  exact sound.acyclic above (.tail (.single first) second)

/-- A thread between its first step and the end of `exit` runs in a live slot. -/
theorem live (running : machine.pc thread ≠ .idle) (unfinished : machine.pc thread ≠ .exitSched) :
    machine.state thread ≠ .UNUSED ∧ machine.state thread ≠ .ZOMBIE := by
  refine ⟨fun isUnused => running (sound.unused thread isUnused).2, fun isZombie => ?_⟩
  rcases sound.zombie thread isZombie with exiting | isIdle
  · exact unfinished exiting
  · exact running isIdle

/-! ### The effects of a step, one field at a time -/

/-- A thread moves to another position and takes or releases locks, while
states and parents stay. -/
theorem move {owner : Slot → Option Slot} (used : machine.state thread ≠ .UNUSED)
    (finished : machine.state thread = .ZOMBIE → next = .exitSched ∨ next = .idle)
    (mine : ∀ lock, owner lock = some thread ↔ lock ∈ heldAt machine.initproc thread next)
    (others : ∀ lock other, other ≠ thread →
      (owner lock = some other ↔ machine.owner lock = some other))
    (child : ∀ slot, childAt next = some slot → machine.parent slot = some thread)
    (fill : ∀ np, next = .forkFill np → machine.state np = .UNUSED)
    (memory : ∀ op, remembered next = some op → Precedes machine op thread) :
    Sound ({ machine with owner := owner }.goto thread next) := by
  have edges : ∀ above below,
      Precedes ({ machine with owner := owner }.goto thread next) above below →
        Precedes machine above below := by
    simp only [Precedes, Machine.goto, update_apply] at memory ⊢
    grind
  rcases sound with ⟨held, isChild, isFill, unused, zombie, initLive, initFirst, acyclic⟩
  refine ⟨?_, ?_, ?_, ?_, ?_, initLive, fun above edge => initFirst above (edges _ _ edge),
    acyclic.mono edges⟩ <;> simp only [Machine.goto, update_apply] <;> grind

theorem setState (freed : state = .UNUSED →
      machine.parent slot = none ∧ machine.pc slot = .idle ∧ slot ≠ machine.initproc)
    (dead : state = .ZOMBIE → machine.pc slot = .exitSched ∨ machine.pc slot = .idle)
    (filled : ∀ thread, machine.pc thread = .forkFill slot → state = .UNUSED) :
    Sound (machine.setState slot state) := by
  rcases sound with ⟨held, child, fill, unused, zombie, initLive, initFirst, acyclic⟩
  refine ⟨held, child, ?_, ?_, ?_, ?_, initFirst, acyclic⟩ <;>
    simp only [Machine.setState, update_apply] <;> grind

theorem setParent (slot : Slot) (parent : Option Slot) (notInit : slot ≠ machine.initproc)
    (unwatched : ∀ thread, childAt (machine.pc thread) ≠ some slot)
    (used : machine.state slot = .UNUSED → parent = none)
    (allowed : ∀ above, parent = some above →
      ¬ Relation.ReflTransGen (Precedes machine) slot above) :
    Sound (machine.setParent slot parent) := by
  have edges : ∀ above below, Precedes (machine.setParent slot parent) above below →
      Precedes machine above below ∨ (parent = some above ∧ below = slot) := by
    simp only [Precedes, Machine.setParent, update_apply]
    grind
  refine ⟨sound.held, ?_, sound.fill, ?_, sound.zombie, sound.initLive, ?_, ?_⟩
  · have child := sound.child
    simp only [Machine.setParent, update_apply]
    grind
  · have unused := sound.unused
    simp only [Machine.setParent, update_apply]
    grind
  · intro above edge
    rcases edges _ _ edge with old | ⟨_, same⟩
    · exact sound.initFirst above old
    · exact notInit same.symm
  · cases parent with
    | none =>
      refine sound.acyclic.mono fun above below edge => ?_
      rcases edges _ _ edge with old | ⟨impossible, _⟩
      · exact old
      · cases impossible
    | some new =>
      refine sound.acyclic.extra_edge (allowed new rfl) fun above below edge => ?_
      rcases edges _ _ edge with old | ⟨same, isSlot⟩
      · exact Or.inl old
      · exact Or.inr ⟨(Option.some.inj same).symm, isSlot⟩

end

/-! ### Moves that take or release one lock

The side conditions compare two positions, and `simp` checks them from the
tables above. -/

section

variable (sound : Sound machine) {here : Pc} (position : machine.pc thread = here)
include sound position

theorem goto (memory : ∀ op, remembered next = some op → Precedes machine op thread)
    (child : ∀ slot, childAt next = some slot → machine.parent slot = some thread)
    (fill : ∀ np, next = .forkFill np → machine.state np = .UNUSED)
    (locks : heldAt machine.initproc thread next = heldAt machine.initproc thread here := by simp)
    (running : here ≠ .idle := by simp) (unfinished : here ≠ .exitSched := by simp) :
    Sound (machine.goto thread next) := by
  have live := sound.live (position ▸ running) (position ▸ unfinished)
  refine sound.move live.1 (fun isZombie => absurd isZombie live.2) (fun lock => ?_)
    (fun _ _ _ => Iff.rfl) child fill memory
  rw [locks, ← position]
  exact sound.held thread lock

/-- A thread acquires a free lock. -/
theorem acquire (acquired : machine.acquire thread lock next = .next after)
    (locks : ∀ slot, slot ∈ heldAt machine.initproc thread next ↔
      slot = lock ∨ slot ∈ heldAt machine.initproc thread here := by simp)
    (memory : ∀ op, remembered next = some op → remembered here = some op := by simp)
    (child : ∀ slot, childAt next = some slot → childAt here = some slot := by simp)
    (fill : ∀ np, next ≠ .forkFill np := by simp)
    (running : here ≠ .idle := by simp) (unfinished : here ≠ .exitSched := by simp) :
    Sound after := by
  unfold Machine.acquire at acquired
  rcases guard_eq_next.mp acquired with ⟨isFree, acquired⟩
  cases acquired
  have live := sound.live (position ▸ running) (position ▸ unfinished)
  subst position
  refine sound.move live.1 (fun isZombie => absurd isZombie live.2) (fun slot => ?_)
    (fun slot other different => ?_) (fun slot watched => sound.child _ _ (child slot watched))
    (fun np filling => absurd filling (fill np)) (fun op remembers => Or.inr (memory op remembers))
  · rw [locks slot, ← sound.held thread slot]
    by_cases same : slot = lock <;> simp [same]
  · by_cases same : slot = lock
    · subst slot
      simp [isFree, Ne.symm different]
    · rw [update_of_ne same]

/-- A thread releases a lock it holds. -/
theorem release (locks : ∀ slot, slot ∈ heldAt machine.initproc thread next ↔
      slot ≠ lock ∧ slot ∈ heldAt machine.initproc thread here)
    (memory : ∀ op, remembered next = some op → Precedes machine op thread)
    (holds : lock ∈ heldAt machine.initproc thread here := by simp)
    (child : ∀ slot, childAt next ≠ some slot := by simp)
    (fill : ∀ np, next ≠ .forkFill np := by simp)
    (running : here ≠ .idle := by simp) (unfinished : here ≠ .exitSched := by simp) :
    Sound ((machine.release lock).goto thread next) := by
  have live := sound.live (position ▸ running) (position ▸ unfinished)
  subst position
  have owned := (sound.held thread lock).mpr holds
  refine sound.move live.1 (fun isZombie => absurd isZombie live.2) (fun slot => ?_)
    (fun slot other different => ?_) (fun slot watched => absurd watched (child slot))
    (fun np filling => absurd filling (fill np)) memory
  · rw [locks slot, ← sound.held thread slot]
    by_cases same : slot = lock <;> simp [same]
  · by_cases same : slot = lock
    · subst slot
      simp [owned, Ne.symm different]
    · rw [update_of_ne same]

end

/-! ### The steps that change states or parents -/

section

variable (sound : Sound machine)
include sound

theorem unwatched (parentless : machine.parent slot = none)
    (thread : Slot) : childAt (machine.pc thread) ≠ some slot := by
  intro watched
  have parent := sound.child thread slot watched
  rw [parentless] at parent
  cases parent

theorem unwatched_after
    (parent : machine.parent slot = some thread) (childless : childAt next = none) (other : Slot) :
    childAt (update machine.pc thread next other) ≠ some slot := by
  have child := sound.child other slot
  rw [update_apply]
  grind

/-- An unused slot that is not locked becomes runnable. -/
theorem start (isUnused : machine.state np = .UNUSED)
    (isFree : machine.owner np = none) : Sound ((machine.setState np .RUNNABLE).goto np .user) := by
  have isIdle := (sound.unused np isUnused).2
  have runnable : Sound (machine.setState np .RUNNABLE) := by
    refine sound.setState (by simp) (by simp) fun other filling => ?_
    have owned := (sound.held other np).mpr (by simp [filling])
    rw [isFree] at owned
    cases owned
  refine runnable.move (by simp [Machine.setState]) (by simp [Machine.setState]) (fun lock => ?_)
    (fun _ _ _ => Iff.rfl) (by simp) (by simp) (by simp)
  have before := sound.held np lock
  rw [isIdle] at before
  simpa using before

/-- `fork` fills an unused slot that does not come before its caller. -/
theorem forked (filling : machine.pc thread = .forkFill np)
    (allowed : ¬ Relation.ReflTransGen (Precedes machine) np thread) :
    Sound (((((machine.setParent np (some thread)).setState np .RUNNABLE).goto np .user).release
      np).goto thread .user) := by
  have isUnused := sound.fill thread np filling
  rcases sound.unused np isUnused with ⟨orphan, isIdle⟩
  have notSelf : thread ≠ np := by
    rintro rfl
    rw [isIdle] at filling
    cases filling
  have released : Sound ((machine.release np).goto thread .user) :=
    sound.release filling (by simp) (by simp)
  have started := released.start isUnused (by simp [Machine.goto, Machine.release])
  have edges : ∀ above below, Precedes ((((machine.release np).goto thread .user).setState np
      .RUNNABLE).goto np .user) above below → Precedes machine above below := by
    simp only [Precedes, Machine.goto, Machine.setState, Machine.release, update_apply]
    grind [remembered]
  have adopted := started.setParent np (some thread)
    (fun same => sound.initLive (same ▸ isUnused)) (started.unwatched orphan)
    (by simp [Machine.goto, Machine.setState])
    (fun above same path => by
      cases same
      exact allowed (Relation.ReflTransGen.mono edges np _ path))
  have reordered : (((((machine.setParent np (some thread)).setState np .RUNNABLE).goto np
      .user).release np).goto thread .user) = ((((machine.release np).goto thread .user).setState np
        .RUNNABLE).goto np .user).setParent np (some thread) := by
    simp [Machine.goto, Machine.setState, Machine.setParent, Machine.release, update_comm notSelf]
  rw [reordered]
  exact adopted

theorem freeproc_unused (isUnused : machine.state np = .UNUSED) :
    machine.freeproc np = machine := by
  have orphan := (sound.unused np isUnused).1
  cases machine
  simp only [Machine.freeproc, Machine.setParent, Machine.setState, Machine.mk.injEq] at *
  simp [← orphan, ← isUnused]

theorem waited (looking : machine.pc thread = .waitLook np rest) :
    Sound ((machine.release np).goto thread (.waitScan rest true)) ∧
      Sound (((machine.release np).release thread).goto thread .user) := by
  have parent := sound.child thread np (by simp [looking])
  have different : thread ≠ np := sound.precedes_ne (Or.inl parent)
  have scanning : Sound ((machine.release np).goto thread (.waitScan rest true)) := by
    refine sound.release looking (fun slot => ?_) (by simp)
    simp only [heldAt, List.mem_cons, List.not_mem_nil, or_false]
    grind
  have left : Sound ((((machine.release np).goto thread (.waitScan rest true)).release thread).goto
      thread .user) :=
    scanning.release (by simp [Machine.goto]; rfl) (by simp) (by simp)
  refine ⟨scanning, ?_⟩
  simpa [Machine.goto, Machine.release] using left

theorem reaped
    (looking : machine.pc thread = .waitLook np rest) (dead : machine.state np = .ZOMBIE) :
    Sound ((((machine.freeproc np).release np).release thread).goto thread .user) := by
  have parent := sound.child thread np (by simp [looking])
  have different : thread ≠ np := sound.precedes_ne (Or.inl parent)
  have notInit : np ≠ machine.initproc := by
    rintro rfl
    exact sound.initFirst thread (Or.inl parent)
  have finished : machine.pc np = .idle := by
    rcases sound.zombie np dead with exiting | isIdle
    · have own := (sound.held np np).mpr (by simp [exiting])
      have waiter := (sound.held thread np).mpr (by simp [looking])
      rw [own, Option.some.injEq] at waiter
      exact absurd waiter.symm different
    · exact isIdle
  have left := (sound.waited looking).2
  have orphaned := left.setParent np none notInit (sound.unwatched_after parent rfl)
    (fun _ => rfl) (fun above impossible => by cases impossible)
  refine orphaned.setState (fun _ => ⟨?_, ?_, notInit⟩) (by simp) (fun _ _ => rfl)
  · simp [Machine.setParent]
  · simpa [Machine.setParent, Machine.goto, Machine.release, update_of_ne different.symm]
      using finished

theorem given {pp : Slot} (giving : machine.pc thread = .reparentGive op pp rest) :
    Sound (((machine.setParent pp (some machine.initproc)).release pp).goto thread
      (.reparentScan op rest)) := by
  have isChild := sound.child thread pp (by simp [giving])
  have parent : Precedes machine thread pp := Or.inl isChild
  have original : Precedes machine op thread := Or.inr (by simp [giving])
  have notSelf := sound.precedes_ne parent
  have notOriginal := sound.precedes_ne_second original parent
  have notInit : pp ≠ machine.initproc := by
    rintro rfl
    exact sound.initFirst thread parent
  have released : Sound ((machine.release pp).goto thread (.reparentScan op rest)) := by
    refine sound.release giving (fun slot => ?_) (by simp [original])
    simp only [heldAt, List.mem_cons, List.not_mem_nil, or_false]
    grind
  refine released.setParent pp (some machine.initproc) notInit
    (sound.unwatched_after isChild rfl) (fun isUnused => ?_) (fun above same => ?_)
  · have orphan := (sound.unused pp isUnused).1
    rw [isChild] at orphan
    cases orphan
  · cases same
    exact not_reflTransGen_of_source released.initFirst notInit

end

@[simp] theorem wakeup1_pc (slot : Slot) : (machine.wakeup1 slot).pc = machine.pc := by
  unfold Machine.wakeup1
  split <;> rfl

@[simp] theorem wakeup1_initproc (slot : Slot) :
    (machine.wakeup1 slot).initproc = machine.initproc := by
  unfold Machine.wakeup1
  split <;> rfl

variable (sound : Sound machine)
include sound

theorem wakeup1 (slot : Slot) : Sound (machine.wakeup1 slot) := by
  unfold Machine.wakeup1
  split
  · rename_i asleep
    refine sound.setState (by simp) (by simp) fun thread filling => ?_
    have isUnused := sound.fill thread slot filling
    rw [asleep] at isUnused
    cases isUnused
  · exact sound

theorem exited (ending : machine.pc thread = .exitZombie op) :
    Sound (((machine.setState thread .ZOMBIE).release op).goto thread .exitSched) := by
  have original : Precedes machine op thread := Or.inr (by simp [ending])
  have different := sound.precedes_ne original
  have released : Sound ((machine.release op).goto thread .exitSched) := by
    refine sound.release ending (fun slot => ?_) (by simp)
    simp only [heldAt, List.mem_cons, List.not_mem_nil, or_false]
    grind
  refine released.setState (by simp) (fun _ => Or.inl (by simp [Machine.goto])) fun other filling => ?_
  by_cases same : other = thread
  · subst other
    simp [Machine.goto] at filling
  · simp only [Machine.goto, Machine.release, update_of_ne same] at filling
    have isIdle := (sound.unused thread (sound.fill other thread filling)).2
    rw [ending] at isIdle
    cases isIdle

theorem gone (position : machine.pc thread = .exitSched) :
    Sound ((machine.release thread).goto thread .idle) := by
  have owned := (sound.held thread thread).mpr (by simp [position])
  have used : machine.state thread ≠ .UNUSED := by
    intro isUnused
    have isIdle := (sound.unused thread isUnused).2
    rw [position] at isIdle
    cases isIdle
  refine sound.move used (by simp) (fun lock => ?_) (fun lock other different => ?_) (by simp)
    (by simp) (by simp)
  · have before := sound.held thread lock
    by_cases same : lock = thread
    · simp [same]
    · simpa [update_of_ne same, position, same] using before
  · by_cases same : lock = thread
    · subst lock
      simp [owned, Ne.symm different]
    · rw [update_of_ne same]

theorem setLive {here : Pc} (position : machine.pc thread = here)
    (isLive : state ≠ .UNUSED ∧ state ≠ .ZOMBIE)
    (running : here ≠ .idle := by simp) (unfinished : here ≠ .exitSched := by simp) :
    Sound (machine.setState thread state) := by
  have live := sound.live (position ▸ running) (position ▸ unfinished)
  refine sound.setState (fun isUnused => absurd isUnused isLive.1)
    (fun isZombie => absurd isZombie isLive.2) fun other filling => ?_
  exact absurd (sound.fill other thread filling) live.1

/-- The lock order allows the parent read in `exit`, since it is the parent. -/
theorem original (position : machine.pc thread = .exitRead)
    (parent : machine.parent thread = some op) :
    Sound ((machine.release thread).goto thread (.exitParent op)) :=
  sound.release position (by simp) (by simp [Precedes, parent])

theorem afterAdvance {flag : Bool} (allowed : ReusesNoAncestor machine (.advance thread flag))
    (stepped : advance machine thread flag = .next after) : Sound after := by
  cases position : machine.pc thread <;> simp only [advance, position] at stepped
  case idle | user => cases stepped
  case waitEnter | waitChild | exitInit | exitEnter | exitParent | exitSelf | reparentChild =>
    exact sound.acquire position stepped
  case forkScan rest =>
    cases rest with
    | nil =>
      cases stepped
      exact sound.goto position (by simp) (by simp) (by simp)
    | cons slot rest => exact sound.acquire position stepped
  case forkTest slot rest =>
    split at stepped <;> cases stepped
    · rename_i isUnused
      exact sound.goto position (by simp) (by simp) (by simp [isUnused])
    · exact sound.release position (by simp) (by simp)
  case forkFill np =>
    cases flag <;> cases stepped
    · rw [sound.freeproc_unused (sound.fill thread np position)]
      exact sound.release position (by simp) (by simp)
    · exact sound.forked position (allowed np position)
  case waitScan rest havekids =>
    cases rest with
    | nil =>
      simp only at stepped
      split at stepped <;> cases stepped
      · exact sound.release position (by simp) (by simp)
      · exact (sound.setLive position (by simp)).release position (by simp) (by simp)
    | cons np rest =>
      simp only at stepped
      split at stepped <;> cases stepped
      · rename_i isChild
        exact sound.goto position (by simp) (by simp [isChild]) (by simp)
      · exact sound.goto position (by simp) (by simp) (by simp)
  case waitLook np rest =>
    split at stepped
    · rename_i dead
      cases flag <;> cases stepped
      · exact (sound.waited position).2
      · exact sound.reaped position dead
    · cases stepped
      exact (sound.waited position).1
  case waitAsleep => exact (sound.setLive position (by simp)).acquire position stepped
  case exitWakeInit =>
    cases stepped
    exact (sound.wakeup1 machine.initproc).release (by simpa using position) (by simp) (by simp)
      (by simp)
  case exitRead =>
    split at stepped <;> cases stepped
    rename_i op parent
    exact sound.original position parent
  case reparentScan op rest =>
    have original : Precedes machine op thread := Or.inr (by simp [position])
    cases rest with
    | nil =>
      cases stepped
      exact sound.goto position (by simp [original]) (by simp) (by simp)
    | cons pp rest =>
      simp only at stepped
      split at stepped <;> cases stepped
      · rename_i isChild
        exact sound.goto position (by simp [original]) (by simp [isChild]) (by simp)
      · exact sound.goto position (by simp [original]) (by simp) (by simp)
  case reparentGive op pp rest =>
    cases stepped
    exact sound.given position
  case exitZombie op =>
    cases stepped
    exact (sound.wakeup1 op).exited (by simpa using position)
  case exitSched =>
    cases stepped
    exact sound.gone position

theorem afterStep
    (allowed : ReusesNoAncestor machine action) (stepped : step machine action = .next after) :
    Sound after := by
  cases action with
  | call thread call =>
    rcases guard_eq_next.mp stepped with ⟨position, stepped⟩
    cases call <;> simp only [enter] at stepped
    · cases stepped
      exact sound.goto position (by simp) (by simp) (by simp)
    · cases stepped
      exact sound.goto position (by simp) (by simp) (by simp)
    · split at stepped <;> cases stepped
      exact sound.goto position (by simp) (by simp) (by simp)
  | advance thread flag => exact sound.afterAdvance allowed stepped

theorem ordered (thread held next : Slot)
    (holds : Holds machine thread held) (waits : Waits machine thread next) :
    Relation.TransGen (Precedes machine) held next := by
  have listed := (sound.held thread held).mp holds
  unfold Waits at waits
  cases position : machine.pc thread <;> simp [position, wanted] at listed waits
  case waitChild np rest =>
    subst held next
    exact .single (Or.inl (sound.child thread np (by simp [position])))
  case exitSelf op =>
    subst held next
    exact .single (Or.inr (by simp [position]))
  case reparentChild op pp rest =>
    subst next
    have last : Precedes machine thread pp :=
      Or.inl (sound.child thread pp (by simp [position]))
    rcases listed with rfl | rfl
    · exact .single last
    · exact .tail (.single (Or.inr (by simp [position]))) last

end Sound

/-! ## Deadlock freedom and its limit -/

/-- Over every interleaving in which `fork` never reuses, for a descendant,
the slot that an exiting process still remembers as its parent, no state has a
cycle of processes waiting for each other's locks. -/
theorem no_deadlock_without_reuse (schedule : List Action) (machine : Machine)
    (allowed : Meets step ReusesNoAncestor boot schedule)
    (reached : exec step boot schedule = .next machine) : ¬ Deadlocked machine := by
  have sound : Sound machine :=
    exec_invariant Sound
      (fun before action after sound permitted stepped => sound.afterStep permitted stepped)
      boot_sound allowed reached
  exact no_deadlock_of_order sound.acyclic sound.ordered

/-- A check that implies the condition: the slot is not the caller's, and
nobody has it as a parent or remembers it as one. -/
def Forgotten (machine : Machine) : Action → Prop
  | .advance thread true =>
    ∀ np, machine.pc thread = .forkFill np → np ≠ thread ∧ ∀ slot,
      machine.parent slot ≠ some np ∧ remembered (machine.pc slot) ≠ some np
  | _ => True

instance (machine : Machine) : (action : Action) → Decidable (Forgotten machine action)
  | .advance thread true =>
    inferInstanceAs (Decidable (∀ np, machine.pc thread = .forkFill np → np ≠ thread ∧ ∀ slot,
      machine.parent slot ≠ some np ∧ remembered (machine.pc slot) ≠ some np))
  | .advance _ false | .call _ _ => inferInstanceAs (Decidable True)

theorem Forgotten.reuses {machine : Machine}
    (forgotten : Forgotten machine action) : ReusesNoAncestor machine action := by
  unfold ReusesNoAncestor
  split
  · rename_i thread
    intro np filling path
    have unknown := forgotten np filling
    rcases Relation.ReflTransGen.cases_head path with same | ⟨slot, parent | remembers, _⟩
    · exact unknown.1 same
    · exact (unknown.2 slot).1 parent
    · exact (unknown.2 slot).2 remembers
  · trivial

/-- A thread runs for a number of steps, with every choice in its favour. -/
def runs (thread : Slot) (count : Nat) : List Action :=
  List.replicate count (.advance thread true)

/-- Init forks, its child is about to lock it from `exit`, and init is about to
lock the child from `wait`. -/
def parentMeetsChild : List Action :=
  .call 0 .fork :: runs 0 5 ++ .call 1 .exit :: runs 1 4 ++ .call 0 .wait :: runs 0 3

theorem no_deadlock_parentMeetsChild : ∃ machine,
    Meets step ReusesNoAncestor boot parentMeetsChild ∧
      exec step boot parentMeetsChild = .next machine ∧ ¬ Deadlocked machine := by
  have allowed : Meets step ReusesNoAncestor boot parentMeetsChild :=
    Meets.mono (by decide : Meets step Forgotten boot parentMeetsChild)
      fun _ _ forgotten => forgotten.reuses
  exact ⟨_, allowed, rfl, no_deadlock_without_reuse parentMeetsChild _ allowed rfl⟩

/-- Process `2` reads its parent `1` in `exit`; the parent exits and is reaped
by init; process `3`, a child of `2`, forks into slot `1` and waits for its new
child; process `2` then locks slot `1` and itself, and goes on to lock `3`. -/
def staleParent : List Action :=
  .call 0 .fork :: runs 0 5 ++ .call 1 .fork :: runs 1 7 ++ .call 2 .fork :: runs 2 9 ++
    .call 2 .exit :: runs 2 4 ++ .call 1 .exit :: runs 1 75 ++ .call 0 .wait :: runs 0 5 ++
    .call 3 .fork :: runs 3 5 ++ .call 3 .wait :: runs 3 3 ++ runs 2 6

set_option maxRecDepth 4000 in
/-- The stale parent is now a descendant, and the two processes wait for each
other: `2` holds lock `1` and wants lock `3`, which `3` holds while it wants
lock `1`. -/
theorem staleParent_deadlocks : ∃ machine,
    exec step boot staleParent = .next machine ∧ Deadlocked machine :=
  ⟨_, rfl, 2, .tail (.single ⟨3, rfl, rfl⟩) ⟨1, rfl, rfl⟩⟩

end Locks
end Process
end Xv6
