import Xv6.Foundation.LockTable
import Xv6.Foundation.Tally
import Xv6.Process.Scheduler

namespace Xv6
namespace Process
namespace Sched

open Foundation Function

/-!
# A process runs on one CPU at a time

`scheduler` takes the lock of the process it switches to, and the process
releases it; on the way back the process takes the lock and `scheduler`
releases it.  Between the two nothing but the state `RUNNING` keeps other
CPUs from running the process.  The invariant says which locks every CPU
holds, and that a process is `RUNNING` exactly while some CPU runs it, up to
the moments just before and after `swtch`, in which its lock is held.
-/

variable {Cpu : Type}

/-! ## Which locks a CPU holds -/

/-- The locks held by the code of a process at this position. -/
def heldAt (initproc thread : Slot) : Pc → List Slot
  | .forkret | .sleepSet _ | .sleepBack | .waitScan _ _ | .waitChild _ _ | .waitBack
  | .exitRead _ | .exitSched => [thread]
  | .killTest _ slot _ | .forkTest slot _ | .forkFill slot => [slot]
  | .waitLook np _ => [np, thread]
  | .exitWakeInit _ => [initproc]
  | .exitSelf _ op => [op]
  | .reparentScan _ op _ | .reparentChild _ op _ _ | .exitZombie _ op => [thread, op]
  | .reparentGive _ op pp _ => [pp, thread, op]
  | _ => []

/-- The locks held for a process that a CPU runs. -/
def threadHeld (machine : Machine Cpu) (thread : Slot) : List Slot :=
  match machine.trap thread with
  | .none => heldAt machine.initproc thread (machine.pc thread)
  | .lock => []
  | .set | .back => [thread]

/-- The process has called `sched` or was just forked: it goes on where its
own lock, and no other, is held. -/
def Resumable (machine : Machine Cpu) (thread : Slot) : Prop :=
  machine.trap thread = .back ∨
    (machine.trap thread = .none ∧ (machine.pc thread = .forkret ∨ machine.pc thread = .sleepBack ∨
      machine.pc thread = .waitBack))

variable {machine next : Machine Cpu} {thread initproc lock np slot : Slot}

theorem Resumable.held
    (resumable : Resumable machine thread) : threadHeld machine thread = [thread] := by
  rcases resumable with trap | ⟨trap, pc | pc | pc⟩
  · simp [threadHeld, trap]
  all_goals simp [threadHeld, trap, pc, heldAt]

theorem Resumable.congr
    (resumable : Resumable machine thread) (pc : next.pc thread = machine.pc thread)
    (trap : next.trap thread = machine.trap thread) : Resumable next thread := by
  unfold Resumable
  rw [pc, trap]
  exact resumable

/-- The locks held by a CPU outside of `wakeup`. -/
def baseHeld (machine : Machine Cpu) (cpu : Cpu) : List Slot :=
  match machine.position cpu with
  | .scan _ => []
  | .test slot _ => [slot]
  | .run thread _ => threadHeld machine thread
  | .back thread _ => [thread]

def held (machine : Machine Cpu) (cpu : Cpu) : List Slot :=
  match machine.waker cpu with
  | .test _ slot _ => [slot]
  | _ => baseHeld machine cpu

/-- The process whose context the CPU has switched to and not yet left. -/
@[simp] def Position.process : Position → Option Slot
  | .run slot _ | .back slot _ => some slot
  | _ => none

variable {here pc : Pc}

theorem heldAt_wanted (wants : wanted initproc thread here = some (lock, pc)) :
    heldAt initproc thread pc = lock :: heldAt initproc thread here := by
  cases here with
  | killScan pid todo | forkScan todo =>
    cases todo with
    | nil => cases wants
    | cons slot todo =>
      cases wants
      rfl
  | _ =>
    cases wants
    all_goals rfl

theorem wanted_ne_forkFill : wanted initproc thread here ≠ some (lock, .forkFill np) := by
  intro wants
  cases here with
  | killScan pid todo | forkScan todo => cases todo <;> cases wants
  | _ => cases wants

variable {procs : Slot → Proc}

theorem heldAt_looks (looks : Looks procs thread here pc) :
    heldAt initproc thread pc = heldAt initproc thread here := by
  cases looks <;> rfl

theorem heldAt_unlocks (unlocks : Unlocks procs thread here lock pc) :
    heldAt initproc thread here = lock :: heldAt initproc thread pc := by
  cases unlocks <;> rfl

/-- At most, a sleeping process becomes `RUNNABLE`. -/
def Rouses (before after : Proc) : Prop :=
  after.state = before.state ∨ (before.state = .SLEEPING ∧ after.state = .RUNNABLE)

theorem rouses_wakeup (proc : Proc) (chan : Chan) : Rouses proc (proc.wakeup chan) := by
  unfold Rouses Proc.wakeup
  split
  · rename_i sleeping
    exact Or.inr ⟨sleeping.1, rfl⟩
  · exact Or.inl rfl

theorem rouses_kill (proc : Proc) : Rouses proc proc.kill := by
  unfold Rouses Proc.kill
  by_cases sleeping : proc.state = .SLEEPING
  · exact Or.inr ⟨sleeping, if_pos sleeping⟩
  · exact Or.inl (if_neg sleeping)

variable {after : Proc}

theorem rouses_update (rouses : Rouses (procs slot) after) (other : Slot) :
    Rouses (procs other) (update procs slot after other) := by
  by_cases same : other = slot
  · subst other
    rw [update_self]
    exact rouses
  · rw [update_of_ne same]
    exact Or.inl rfl

/-! ## The invariant -/

/-- Positions, owners of locks and states of processes fit together. -/
structure Placed (machine : Machine Cpu) : Prop where
  locks : LockTable machine.owner (held machine)
  proc : ∀ cpu, machine.proc cpu = (machine.position cpu).process
  single : ∀ cpu other thread, (machine.position cpu).process = some thread →
    (machine.position other).process = some thread → cpu = other
  /-- A process that is run is `RUNNING`, up to the last step of `exit`. -/
  running : ∀ cpu thread rest, machine.position cpu = .run thread rest →
    (machine.procs thread).state = .RUNNING ∨
      ((machine.procs thread).state = .ZOMBIE ∧ machine.trap thread = .none ∧
        machine.pc thread = .exitSched)
  /-- A `RUNNING` process is run. -/
  placed : ∀ thread, (machine.procs thread).state = .RUNNING →
    ∃ cpu rest, machine.position cpu = .run thread rest
  parked : ∀ thread, (∀ cpu rest, machine.position cpu ≠ .run thread rest) →
    (machine.procs thread).state = .RUNNABLE ∨ (machine.procs thread).state = .SLEEPING →
      Resumable machine thread
  /-- `wakeup` starts without locks, and so does the `yield` of the timer. -/
  quiet : ∀ cpu, machine.waker cpu ≠ .off → baseHeld machine cpu = []
  trapped : ∀ thread, machine.trap thread ≠ .none →
    heldAt machine.initproc thread (machine.pc thread) = []
  /-- The slot that `fork` is filling stays `UNUSED`. -/
  filling : ∀ cpu thread rest np, machine.position cpu = .run thread rest →
    machine.pc thread = .forkFill np → (machine.procs np).state = .UNUSED
  /-- A process at the last step of `exit` is still run. -/
  leaving : ∀ thread, machine.pc thread = .exitSched →
    ∃ cpu rest, machine.position cpu = .run thread rest

variable {action : Action Cpu}

namespace Placed

variable {cpu : Cpu} {rest : List Slot}

theorem back_held (placed : Placed machine) (back : machine.position cpu = .back thread rest) :
    thread ∈ held machine cpu := by
  have base : baseHeld machine cpu = [thread] := by simp [baseHeld, back]
  unfold held
  split
  · rename_i waker
    have empty := placed.quiet cpu (by simp [waker])
    rw [base] at empty
    cases empty
  · simp [base]

theorem held_eq (calm : machine.waker cpu = .off) : held machine cpu = baseHeld machine cpu := by
  simp [held, calm]

theorem held_run (calm : machine.waker cpu = .off)
    (runs : machine.position cpu = .run thread rest) :
    held machine cpu = threadHeld machine thread := by
  simp [held, calm, baseHeld, runs]

theorem threadHeld_none (plain : machine.trap thread = .none) :
    threadHeld machine thread = heldAt machine.initproc thread (machine.pc thread) := by
  simp [threadHeld, plain]

/-- A process whose lock is held by a CPU that is not running it, and that is
not in the course of exiting, is current nowhere. -/
theorem nowhere (placed : Placed machine) (cpu : Cpu)
    (notRun : ∀ other todo, machine.position other ≠ .run slot todo)
    (locked : slot ∈ held machine cpu) (here : (machine.position cpu).process ≠ some slot)
    (other : Cpu) : machine.proc other ≠ some slot := by
  rw [placed.proc other]
  intro isCurrent
  cases position : machine.position other with
  | scan todo | test one todo => simp [position] at isCurrent
  | run one todo =>
    simp only [position, Position.process, Option.some.injEq] at isCurrent
    exact notRun other todo (isCurrent ▸ position)
  | back one todo =>
    simp only [position, Position.process, Option.some.injEq] at isCurrent
    subst one
    rw [← placed.locks.unique (placed.back_held position) locked, position] at here
    exact here rfl

/-- How a step of one process can change another one. -/
inductive Turned (machine next : Machine Cpu) (cpu : Cpu) (slot : Slot) : Prop where
  | same (state : (next.procs slot).state = (machine.procs slot).state)
      (pc : next.pc slot = machine.pc slot) (trap : next.trap slot = machine.trap slot)
  | roused (before : (machine.procs slot).state = .SLEEPING)
      (after : (next.procs slot).state = .RUNNABLE)
      (pc : next.pc slot = machine.pc slot) (trap : next.trap slot = machine.trap slot)
  | freed (notRun : ∀ other rest, machine.position other ≠ .run slot rest)
      (after : (next.procs slot).state = .UNUSED)
      (pc : next.pc slot = machine.pc slot) (trap : next.trap slot = machine.trap slot)
  | filled (before : (machine.procs slot).state = .UNUSED) (locked : slot ∈ held machine cpu)
      (after : (next.procs slot).state = .RUNNABLE)
      (pc : next.pc slot = .forkret) (trap : next.trap slot = .none)

/-- Every CPU stays where it is. -/
structure Stays (machine next : Machine Cpu) : Prop where
  init : next.initproc = machine.initproc
  positions : next.position = machine.position
  wakers : next.waker = machine.waker
  procs : next.proc = machine.proc

section

variable (placed : Placed machine) (runs : machine.position cpu = .run thread rest)
include placed runs

theorem not_idle :
    (machine.procs thread).state ≠ .UNUSED ∧ (machine.procs thread).state ≠ .RUNNABLE ∧
      (machine.procs thread).state ≠ .SLEEPING := by
  rcases placed.running cpu thread rest runs with running | ⟨zombie, _⟩
  · simp [running]
  · simp [zombie]

theorem is_running (staying : machine.pc thread ≠ .exitSched) :
    (machine.procs thread).state = .RUNNING := by
  rcases placed.running cpu thread rest runs with running | ⟨_, _, exiting⟩
  · exact running
  · exact absurd exiting staying

theorem running_of_trap (isTrapped : machine.trap thread ≠ .none) :
    (machine.procs thread).state = .RUNNING := by
  rcases placed.running cpu thread rest runs with running | ⟨_, plain, _⟩
  · exact running
  · exact absurd plain isTrapped

theorem mem_held (here : slot ∈ heldAt machine.initproc thread (machine.pc thread)) :
    slot ∈ held machine cpu := by
  have plain : machine.trap thread = .none := by
    by_contra isTrapped
    simp [placed.trapped thread isTrapped] at here
  have own : slot ∈ baseHeld machine cpu := by
    simpa only [baseHeld, runs, threadHeld_none plain] using here
  have calm : machine.waker cpu = .off := by
    by_contra busy
    simp [placed.quiet cpu busy] at own
  rwa [held_eq calm]

/-- A step of a process that stays on its CPU. -/
theorem act [DecidableEq Cpu] (calm : machine.waker cpu = .off) (stays : Stays machine next)
    (others : ∀ slot, slot ≠ thread → Turned machine next cpu slot)
    (self : (next.procs thread).state = .RUNNING ∨
      ((next.procs thread).state = .ZOMBIE ∧ next.trap thread = .none ∧
        next.pc thread = .exitSched))
    (trapped : next.trap thread ≠ .none → heldAt next.initproc thread (next.pc thread) = [])
    (filling : ∀ np, next.pc thread = .forkFill np → (next.procs np).state = .UNUSED)
    (locks : LockTable next.owner
      (update (held machine) cpu (threadHeld next thread))) : Placed next := by
  rcases stays with ⟨init, positions, wakers, procs⟩
  have mine : ∀ slot, slot ≠ thread → ∀ other todo, machine.position other = .run slot todo →
      (next.procs slot).state = (machine.procs slot).state ∧
        next.pc slot = machine.pc slot ∧ next.trap slot = machine.trap slot := by
    intro slot different other todo position
    have busy := placed.not_idle position
    cases others slot different with
    | same state pc trap => exact ⟨state, pc, trap⟩
    | roused before _ _ _ => exact absurd before busy.2.2
    | freed notRun _ _ _ => exact absurd position (notRun other todo)
    | filled before _ _ _ _ => exact absurd before busy.1
  have elsewhere : ∀ other slot todo, other ≠ cpu → machine.position other = .run slot todo →
      slot ≠ thread := by
    rintro other slot todo different position rfl
    exact different (placed.single other cpu slot (by rw [position]; rfl) (by rw [runs]; rfl))
  have base : ∀ other, other ≠ cpu → baseHeld next other = baseHeld machine other := by
    intro other different
    simp only [baseHeld, positions]
    split <;> try rfl
    rename_i slot todo position
    rcases mine slot (elsewhere other slot todo different position) other todo position with
      ⟨_, pc, trap⟩
    rw [threadHeld, threadHeld, trap, pc, init]
  have agreed : held next = update (held machine) cpu (threadHeld next thread) := by
    refine eq_update_iff.mpr ⟨held_run (wakers ▸ calm) (positions ▸ runs), ?_⟩
    intro other different
    rw [held, held, wakers, base other different]
  constructor
  · rwa [agreed]
  · simpa only [procs, positions] using placed.proc
  · simpa only [positions] using placed.single
  · have running := placed.running
    simp only [positions]
    grind
  · intro slot isRunning
    rw [positions]
    by_cases same : slot = thread
    · exact ⟨cpu, rest, same ▸ runs⟩
    · cases others slot same with
      | same state _ _ => exact placed.placed slot (state ▸ isRunning)
      | roused _ after _ _ | freed _ after _ _ | filled _ _ after _ _ => simp [after] at isRunning
  · intro slot notRun waits
    rw [positions] at notRun
    cases others slot (by rintro rfl; exact notRun cpu rest runs) with
    | same state pc trap => exact (placed.parked slot notRun (state ▸ waits)).congr pc trap
    | roused before _ pc trap => exact (placed.parked slot notRun (Or.inr before)).congr pc trap
    | freed _ after _ _ => simp [after] at waits
    | filled _ _ _ pc trap => exact Or.inr ⟨trap, Or.inl pc⟩
  · have quiet := placed.quiet
    simp only [wakers]
    grind
  · intro slot isTrapped
    by_cases same : slot = thread
    · subst slot
      exact trapped isTrapped
    · have before := placed.trapped slot
      cases others slot same <;> simp_all
  · intro other slot todo np position fills
    rw [positions] at position
    by_cases same : slot = thread
    · subst slot
      exact filling np fills
    · rw [(mine slot same other todo position).2.1] at fills
      have unused := placed.filling other slot todo np position fills
      cases others np (by rintro rfl; exact (placed.not_idle runs).1 unused) with
      | same state _ _ => rw [state, unused]
      | roused before _ _ _ => simp [unused] at before
      | freed _ after _ _ => exact after
      | filled _ locked _ _ _ =>
        have sameCpu := placed.locks.unique locked (placed.mem_held position (by simp [fills, heldAt]))
        grind
  · intro slot leaves
    rw [positions]
    by_cases same : slot = thread
    · exact ⟨cpu, rest, same ▸ runs⟩
    · have before := placed.leaving slot
      cases others slot same <;> simp_all

/-- A step of a process that at most wakes somebody up. -/
theorem still [DecidableEq Cpu] (calm : machine.waker cpu = .off)
    (plain : machine.trap thread = .none) (staying : machine.pc thread ≠ .exitSched)
    (stays : Stays machine next) (traps : next.trap = machine.trap)
    (pcs : next.pc = update machine.pc thread pc)
    (states : ∀ slot, Rouses (machine.procs slot) (next.procs slot))
    (filling : ∀ np, pc = .forkFill np → (next.procs np).state = .UNUSED)
    (locks : LockTable next.owner
      (update (held machine) cpu (heldAt machine.initproc thread pc))) : Placed next := by
  have running := placed.is_running runs staying
  have here : next.pc thread = pc := by
    rw [pcs, update_self]
  have plain' : next.trap thread = .none := by
    rw [traps, plain]
  refine placed.act runs calm stays ?_ ?_ ?_ ?_ ?_
  · intro slot different
    have samePc : next.pc slot = machine.pc slot := by
      rw [pcs, update_of_ne different]
    rcases states slot with same | ⟨before, after⟩
    · exact .same same samePc (by rw [traps])
    · exact .roused before after samePc (by rw [traps])
  · rcases states thread with same | ⟨before, _⟩
    · exact Or.inl (same.trans running)
    · simp [running] at before
  · exact fun isTrapped => absurd plain' isTrapped
  · exact fun np fills => filling np (here.symm.trans fills)
  · rw [threadHeld_none plain', here, stays.init]
    exact locks

/-- A process gives up its CPU: control returns to `scheduler` with the lock
of the process held. -/
theorem park [DecidableEq Cpu] (alone : threadHeld machine thread = [thread])
    (init : next.initproc = machine.initproc) (owners : next.owner = machine.owner)
    (positions : next.position = update machine.position cpu (.back thread rest))
    (wakers : next.waker = machine.waker) (procs : next.proc = machine.proc)
    (others : ∀ slot, slot ≠ thread → (next.procs slot).state = (machine.procs slot).state ∧
      next.pc slot = machine.pc slot ∧ next.trap slot = machine.trap slot)
    (stopped : (next.procs thread).state ≠ .RUNNING)
    (resumes : (next.procs thread).state = .RUNNABLE ∨ (next.procs thread).state = .SLEEPING →
      Resumable next thread)
    (trapped : next.trap thread ≠ .none → heldAt next.initproc thread (next.pc thread) = [])
    (left : next.pc thread ≠ .exitSched) : Placed next := by
  have elsewhere : ∀ other slot todo, next.position other = .run slot todo ↔
      machine.position other = .run slot todo ∧ slot ≠ thread := by
    intro other slot todo
    rw [positions, update_apply]
    split
    · rename_i same
      simp only [same, runs, reduceCtorEq, Position.run.injEq, false_iff]
      rintro ⟨⟨rfl, _⟩, different⟩
      exact different rfl
    · rename_i different
      refine ⟨fun before => ⟨before, ?_⟩, And.left⟩
      rintro rfl
      exact different (placed.single other cpu slot (by rw [before]; rfl) (by rw [runs]; rfl))
  have process : ∀ other, (next.position other).process = (machine.position other).process := by
    intro other
    rw [positions, update_apply]
    split
    · rename_i same
      rw [same, runs]
      rfl
    · rfl
  have base : ∀ other, baseHeld next other = baseHeld machine other := by
    intro other
    by_cases same : other = cpu
    · simp [baseHeld, positions, runs, alone, same]
    · have kept : next.position other = machine.position other := by
        rw [positions, update_of_ne same]
      simp only [baseHeld, kept]
      split <;> try rfl
      rename_i slot todo position
      rcases others slot ((elsewhere other slot todo).mp (kept.trans position)).2 with ⟨_, pc, trap⟩
      rw [threadHeld, threadHeld, trap, pc, init]
  have agreed : held next = held machine := by
    funext other
    rw [held, held, wakers, base other]
  rcases placed with ⟨isLocked, isProc, single, running, isPlaced, parked, quiet, isTrapped, isFilling,
    leaving⟩
  constructor <;> grind [Resumable]

end

/-! ## Steps of a process -/

section

variable [DecidableEq Cpu]

omit [DecidableEq Cpu] in
theorem held_here (calm : machine.waker cpu = .off)
    (runs : machine.position cpu = .run thread rest) (plain : machine.trap thread = .none) :
    held machine cpu = heldAt machine.initproc thread (machine.pc thread) := by
  rw [held_run calm runs, threadHeld_none plain]

omit [DecidableEq Cpu] in
/-- A slot that the process is filling, or a zombie that it has locked, is
run by no CPU. -/
theorem not_run (placed : Placed machine) (runs : machine.position cpu = .run thread rest)
    (locked : slot ∈ held machine cpu) (busy : machine.pc thread ≠ .exitSched)
    (ended : (machine.procs slot).state = .UNUSED ∨ (machine.procs slot).state = .ZOMBIE)
    (other : Cpu) (todo : List Slot) : machine.position other ≠ .run slot todo := by
  intro position
  rcases placed.running other slot todo position with running | ⟨_, _, exiting⟩
  · simp [running] at ended
  · have own : slot ∈ held machine other :=
      placed.mem_held position (by simp [exiting, heldAt])
    have sameCpu := placed.locks.unique own locked
    subst sameCpu
    rw [runs] at position
    cases position
    exact busy exiting

theorem release_two (placed : Placed machine) {first second : Slot}
    (both : held machine cpu = [first, second]) :
    LockTable (update (update machine.owner first none) second none)
      (update (held machine) cpu []) := by
  have one : LockTable (update machine.owner first none) (update (held machine) cpu [second]) :=
    placed.locks.release (by rw [both])
  have two : LockTable (update (update machine.owner first none) second none)
      (update (update (held machine) cpu [second]) cpu []) :=
    one.release (by rw [update_self])
  rwa [update_idem] at two

section

variable (placed : Placed machine) (runs : machine.position cpu = .run thread rest)
  (calm : machine.waker cpu = .off)
include placed runs calm

/-- A step that ends in `freeproc` of a slot it has locked. -/
theorem freeing (plain : machine.trap thread = .none) (staying : machine.pc thread ≠ .exitSched)
    (locked : np ∈ held machine cpu)
    (ended : (machine.procs np).state = .UNUSED ∨ (machine.procs np).state = .ZOMBIE)
    (stays : Stays machine next) (traps : next.trap = machine.trap)
    (pcs : next.pc = update machine.pc thread .user)
    (table : next.procs = update machine.procs np Proc.free)
    (locks : LockTable next.owner (update (held machine) cpu [])) : Placed next := by
  have running := placed.is_running runs staying
  have different : thread ≠ np := by
    rintro rfl
    simp [running] at ended
  have here : next.pc thread = .user := by
    rw [pcs, update_self]
  have plain' : next.trap thread = .none := by
    rw [traps, plain]
  refine placed.act runs calm stays ?_ ?_ ?_ ?_ ?_
  · intro slot notThread
    have samePc : next.pc slot = machine.pc slot := by
      rw [pcs, update_of_ne notThread]
    by_cases isNp : slot = np
    · subst slot
      refine .freed (placed.not_run runs locked staying ended) ?_ samePc (by rw [traps])
      rw [table, update_self]
      rfl
    · refine .same ?_ samePc (by rw [traps])
      rw [table, update_of_ne isNp]
  · rw [table, update_of_ne different]
    exact Or.inl running
  · exact fun isTrapped => absurd plain' isTrapped
  · simp [here]
  · rw [threadHeld_none plain', here]
    exact locks

theorem advanced (plain : machine.trap thread = .none)
    (stepped : Advanced machine cpu thread rest next) : Placed next := by
  have hold := held_here calm runs plain
  have same : ∀ slot, Rouses (machine.procs slot) (machine.procs slot) := fun _ => Or.inl rfl
  cases stepped with
  | lock lock pc wants free =>
    refine placed.still runs calm plain ?_ ⟨rfl, rfl, rfl, rfl⟩ rfl rfl same ?_ ?_
    · intro exiting
      rw [exiting] at wants
      cases wants
    · rintro np rfl
      exact absurd wants wanted_ne_forkFill
    · refine placed.locks.acquire free ?_
      rw [hold, heldAt_wanted wants]
  | look pc looks =>
    refine placed.still runs calm plain ?_ ⟨rfl, rfl, rfl, rfl⟩ rfl rfl same ?_ ?_
    · intro exiting
      rw [exiting] at looks
      cases looks
    · rintro np rfl
      generalize machine.pc thread = here at looks
      cases looks
    · refine placed.locks.reorder ?_
      rw [hold, heldAt_looks looks]
  | unlock lock pc unlocks =>
    refine placed.still runs calm plain ?_ ⟨rfl, rfl, rfl, rfl⟩ rfl rfl same ?_ ?_
    · intro exiting
      rw [exiting] at unlocks
      cases unlocks
    · rintro np rfl
      generalize machine.pc thread = here at unlocks
      cases unlocks
    · refine placed.locks.release ?_
      rw [hold, heldAt_unlocks unlocks]
  | park parked parks stopped =>
    have alone : threadHeld machine thread = [thread] := by
      rw [threadHeld_none plain]
      cases parks with
      | sleep address here | wait here | exit here => rw [here]; rfl
    have others : ∀ slot, slot ≠ thread →
        (parked.procs slot).state = (machine.procs slot).state ∧
          parked.pc slot = machine.pc slot ∧ parked.trap slot = machine.trap slot := by
      intro slot different
      cases parks with
      | sleep address here | wait here | exit here =>
        simp [different]
    have resumes : (parked.procs thread).state = .RUNNABLE ∨
        (parked.procs thread).state = .SLEEPING → Resumable parked thread := by
      intro waits
      cases parks with
      | sleep address here | wait here =>
        refine Or.inr ⟨plain, ?_⟩
        simp
      | exit here =>
        have busy := placed.not_idle runs
        rcases waits with runnable | sleeping
        · exact absurd runnable busy.2.1
        · exact absurd sleeping busy.2.2
    cases parks with
    | sleep address here | wait here | exit here =>
      refine placed.park runs alone rfl rfl rfl rfl rfl others stopped resumes
        (fun isTrapped => absurd plain isTrapped) ?_
      simp
  | sleepBack here | give status op pp todo here =>
    refine placed.still runs calm plain (by simp [here]) ⟨rfl, rfl, rfl, rfl⟩ rfl rfl
      (rouses_update (Or.inl rfl)) (by simp) (placed.locks.release ?_)
    rw [hold, here]
    rfl
  | waitBack here =>
    refine placed.still runs calm plain (by simp [here]) ⟨rfl, rfl, rfl, rfl⟩ rfl rfl
      (rouses_update (Or.inl rfl)) (by simp) (placed.locks.reorder ?_)
    rw [hold, here]
    rfl
  | kill pid slot todo here =>
    refine placed.still runs calm plain (by simp [here]) ⟨rfl, rfl, rfl, rfl⟩ rfl rfl
      (rouses_update (rouses_kill _)) (by simp) (placed.locks.release ?_)
    rw [hold, here]
    rfl
  | allocpid slot todo here unused =>
    refine placed.still runs calm plain (by simp [here]) ⟨rfl, rfl, rfl, rfl⟩ rfl rfl
      (rouses_update (Or.inl rfl)) ?_ (placed.locks.reorder ?_)
    · intro np fills
      cases fills
      simp [unused]
    · rw [hold, here]
      rfl
  | undo np here =>
    refine placed.freeing runs calm plain (by simp [here]) ?_
      (Or.inl (placed.filling cpu thread rest np runs here)) ⟨rfl, rfl, rfl, rfl⟩ rfl rfl rfl
      (placed.locks.release ?_)
    · rw [hold, here]
      exact List.mem_singleton.mpr rfl
    · rw [hold, here]
      rfl
  | born np here =>
    have locked : np ∈ held machine cpu := by
      rw [hold, here]
      exact List.mem_singleton.mpr rfl
    have unused := placed.filling cpu thread rest np runs here
    have different : thread ≠ np := by
      rintro rfl
      exact (placed.not_idle runs).1 unused
    refine placed.act runs calm ⟨rfl, rfl, rfl, rfl⟩ ?_ ?_ ?_ ?_ ?_
    · intro slot notThread
      by_cases isNp : slot = np
      · subst slot
        refine .filled unused locked ?_ ?_ ?_ <;> simp [notThread]
      · refine .same ?_ ?_ ?_ <;> simp [notThread, isNp]
    · have kept : (((machine.born thread np).release np).goto thread .user).procs thread =
          machine.procs thread := by
        simp [different]
      rw [kept]
      exact Or.inl (placed.is_running runs (by simp [here]))
    · intro isTrapped
      simp [different, plain] at isTrapped
    · intro slot fills
      simp at fills
    · have released : LockTable (update machine.owner np none) (update (held machine) cpu []) := by
        refine placed.locks.release ?_
        rw [hold, here]
        rfl
      simpa [threadHeld, heldAt, plain, different] using released
  | reap np todo here zombie =>
    refine placed.freeing runs calm plain (by simp [here]) ?_ (Or.inr zombie) ⟨rfl, rfl, rfl, rfl⟩
      rfl rfl rfl (placed.release_two ?_)
    · rw [hold, here]
      exact List.mem_cons_self
    · rw [hold, here]
      rfl
  | giveUp np todo here =>
    refine placed.still runs calm plain (by simp [here]) ⟨rfl, rfl, rfl, rfl⟩ rfl rfl same (by simp)
      (placed.release_two ?_)
    rw [hold, here]
    rfl
  | wakeInit status here =>
    refine placed.still runs calm plain (by simp [here]) ⟨rfl, rfl, rfl, rfl⟩ rfl rfl
      (rouses_update (rouses_wakeup _ _)) (by simp) (placed.locks.release ?_)
    rw [hold, here]
    rfl
  | die status op here =>
    refine placed.act runs calm ⟨rfl, rfl, rfl, rfl⟩ ?_ ?_ ?_ ?_ ?_
    · intro slot notThread
      have states : Rouses (machine.procs slot)
          (update machine.procs op ((machine.procs op).wakeup (.proc op)) slot) :=
        rouses_update (rouses_wakeup _ _) slot
      rcases states with state | ⟨before, after⟩
      · refine .same ?_ ?_ rfl
        · simpa [notThread] using state
        · simp [notThread]
      · refine .roused before ?_ ?_ rfl
        · simpa [notThread] using after
        · simp [notThread]
    · refine Or.inr ⟨?_, ?_, ?_⟩ <;> simp [plain]
    · intro isTrapped
      exact absurd plain isTrapped
    · intro slot fills
      simp at fills
    · have released : LockTable (update machine.owner op none)
          (update (held machine) cpu [thread]) := by
        refine placed.locks.release ?_
        rw [hold, here]
        exact List.Perm.swap op thread []
      simpa [threadHeld, heldAt, plain] using released

theorem inTrap {trap : Trap} (isTrapped : machine.trap thread ≠ .none ∨ held machine cpu = [])
    (running : (machine.procs thread).state = .RUNNING)
    (stays : Stays machine next) (table : next.procs = machine.procs)
    (pcs : next.pc = machine.pc) (traps : next.trap = update machine.trap thread trap)
    (locks : LockTable next.owner
      (update (held machine) cpu (threadHeld next thread))) : Placed next := by
  have empty : heldAt machine.initproc thread (machine.pc thread) = [] := by
    rcases isTrapped with isTrapped | free
    · exact placed.trapped thread isTrapped
    · by_contra locked
      have plain : machine.trap thread = .none := by
        by_contra isTrapped
        exact locked (placed.trapped thread isTrapped)
      rw [held_here calm runs plain] at free
      exact locked free
  refine placed.act runs calm stays ?_ ?_ ?_ ?_ locks
  · intro slot different
    refine .same (by rw [table]) (by rw [pcs]) ?_
    rw [traps, update_of_ne different]
  · rw [table]
    exact Or.inl running
  · intro _
    rw [stays.init, pcs]
    exact empty
  · intro np fills
    rw [pcs] at fills
    rw [fills] at empty
    cases empty

theorem ran {luck : Luck} (stepped : run machine cpu thread rest luck = .next next) : Placed next := by
  have hold := held_run calm runs
  have running := placed.running_of_trap runs
  unfold run at stepped
  generalize trap : machine.trap thread = kind at stepped
  cases kind with
  | none => exact placed.advanced runs calm trap (advanced_of_advance stepped)
  | lock =>
    rcases acquire_andThen_eq_next.mp stepped with ⟨free, moved⟩
    cases moved
    refine placed.inTrap runs calm (Or.inl (by simp [trap])) (running (by simp [trap]))
      ⟨rfl, rfl, rfl, rfl⟩ rfl rfl rfl (placed.locks.acquire free ?_)
    rw [hold]
    simp [threadHeld, trap]
  | set =>
    rcases sched_eq_next stepped with ⟨stopped, rfl⟩
    refine placed.park runs (by simp [threadHeld, trap]) rfl rfl rfl rfl rfl ?_ stopped ?_ ?_ ?_
    · intro slot different
      simp [different]
    · intro _
      refine Or.inl ?_
      simp
    · intro _
      exact placed.trapped thread (by simp [trap])
    · intro leaves
      have empty := placed.trapped thread (by simp [trap])
      rw [show machine.pc thread = .exitSched from leaves] at empty
      cases empty
  | back =>
    cases stepped
    refine placed.inTrap runs calm (Or.inl (by simp [trap])) (running (by simp [trap]))
      ⟨rfl, rfl, rfl, rfl⟩ rfl rfl rfl (placed.locks.release ?_)
    have empty := placed.trapped thread (by simp [trap])
    rw [hold]
    simp [threadHeld, trap, empty]

end

/-! ## Steps of a CPU -/

section

variable (placed : Placed machine)
include placed

section

variable (init : next.initproc = machine.initproc) (pcs : next.pc = machine.pc)
  (traps : next.trap = machine.trap)
include init pcs traps

/-- A step of `scheduler` between processes. -/
theorem rove (position : Position) (calm : machine.waker cpu = .off)
    (between : ∀ thread rest, machine.position cpu ≠ .run thread rest)
    (free : position.process = none)
    (positions : next.position = update machine.position cpu position)
    (wakers : next.waker = machine.waker) (procs : next.proc = update machine.proc cpu none)
    (table : next.procs = machine.procs)
    (locks : LockTable next.owner (update (held machine) cpu (baseHeld next cpu))) :
    Placed next := by
  have runs : ∀ other slot todo, next.position other = .run slot todo ↔
      machine.position other = .run slot todo := by
    intro other slot todo
    rw [positions, update_apply]
    split
    · rename_i same
      refine iff_of_false ?_ (same ▸ between slot todo)
      rintro rfl
      cases free
    · rfl
  have process : ∀ other slot, (next.position other).process = some slot →
      (machine.position other).process = some slot := by
    intro other slot current
    rw [positions, update_apply] at current
    split at current
    · rw [free] at current
      cases current
    · exact current
  have base : ∀ other, other ≠ cpu → baseHeld next other = baseHeld machine other := by
    intro other different
    simp only [baseHeld, threadHeld, positions, update_of_ne different, traps, pcs, init]
  have agreed : held next = update (held machine) cpu (baseHeld next cpu) := by
    refine eq_update_iff.mpr ⟨held_eq (wakers ▸ calm), fun other different => ?_⟩
    rw [held, held, wakers, base other different]
  constructor
  · rwa [agreed]
  · have isProc := placed.proc
    simp only [procs, positions, update_apply]
    grind
  · exact fun one other slot first second =>
      placed.single one other slot (process one slot first) (process other slot second)
  · simpa only [table, pcs, traps, runs] using placed.running
  · simpa only [table, runs] using placed.placed
  · simpa only [Resumable, table, pcs, traps, Ne, runs] using placed.parked
  · have quiet := placed.quiet
    simp only [wakers]
    grind
  · simpa only [init, pcs, traps] using placed.trapped
  · simpa only [table, pcs, runs] using placed.filling
  · simpa only [pcs, runs] using placed.leaving

/-- `scheduler` switches to a `RUNNABLE` process that it has locked. -/
theorem start (calm : machine.waker cpu = .off) (position : machine.position cpu = .test slot rest)
    (runnable : (machine.procs slot).state = .RUNNABLE) (owners : next.owner = machine.owner)
    (positions : next.position = update machine.position cpu (.run slot rest))
    (table : next.procs = update machine.procs slot { machine.procs slot with state := .RUNNING })
    (procs : next.proc = update machine.proc cpu (some slot))
    (wakers : next.waker = machine.waker) : Placed next := by
  have notRun : ∀ other todo, machine.position other ≠ .run slot todo := fun other todo isRun =>
    (placed.not_idle isRun).2.1 runnable
  have resumes := placed.parked slot notRun (Or.inl runnable)
  have nowhere : ∀ other, (machine.position other).process ≠ some slot := by
    intro other
    rw [← placed.proc other]
    exact placed.nowhere cpu notRun (by simp [held, calm, baseHeld, position]) (by simp [position]) other
  have runs : ∀ other one todo, next.position other = .run one todo ↔
      (other = cpu ∧ one = slot ∧ todo = rest) ∨
        (one ≠ slot ∧ machine.position other = .run one todo) := by
    intro other one todo
    rw [positions, update_apply]
    split
    · rename_i same
      simp [same, position, eq_comm]
    · rename_i different
      simp only [different, false_and, false_or]
      refine ⟨fun before => ⟨?_, before⟩, And.right⟩
      rintro rfl
      exact notRun other todo before
  have states : ∀ other, other ≠ slot → (next.procs other).state = (machine.procs other).state := by
    intro other different
    rw [table, update_of_ne different]
  have base : ∀ other, baseHeld next other = baseHeld machine other := by
    intro other
    have threads : threadHeld next = threadHeld machine := by
      funext thread
      rw [threadHeld, threadHeld, traps, pcs, init]
    by_cases same : other = cpu
    · simp [baseHeld, same, positions, position, threads, resumes.held]
    · simp only [baseHeld, positions, update_of_ne same, threads]
  have process : ∀ other, (next.position other).process =
      if other = cpu then some slot else (machine.position other).process := by
    intro other
    rw [positions, update_apply]
    split <;> rfl
  rcases placed with ⟨isLocked, isProc, single, running, isPlaced, parked, quiet, isTrapped, isFilling,
    leaving⟩
  constructor
  · have agreed : held next = held machine := by
      funext other
      rw [held, held, wakers, base other]
    rwa [agreed, owners]
  · simp only [procs, process, update_apply]
    grind
  · grind
  · simp only [pcs, traps, table, update_apply]
    grind
  · grind
  · intro thread away waits
    have before := parked thread
    rw [Resumable, pcs, traps]
    grind [Resumable]
  · simpa only [base, wakers] using quiet
  · simpa only [init, pcs, traps] using isTrapped
  · simp only [pcs]
    grind [Resumable, heldAt]
  · simp only [pcs]
    grind

theorem waking {waker : Waker} (base : baseHeld machine cpu = [])
    (positions : next.position = machine.position)
    (wakers : next.waker = update machine.waker cpu waker) (procs : next.proc = machine.proc)
    (states : ∀ slot, Rouses (machine.procs slot) (next.procs slot))
    (locks : LockTable next.owner (update (held machine) cpu (held next cpu))) :
    Placed next := by
  have bases : baseHeld next = baseHeld machine := by
    funext other
    simp only [baseHeld, threadHeld, positions, traps, pcs, init]
  have agreed : held next = update (held machine) cpu (held next cpu) := by
    refine eq_update_iff.mpr ⟨rfl, fun other different => ?_⟩
    rw [held, held, wakers, update_of_ne different, bases]
  have kept : ∀ slot state, state ≠ .SLEEPING → (machine.procs slot).state = state →
      (next.procs slot).state = state := by
    intro slot state awake before
    rcases states slot with same | ⟨sleeping, _⟩
    · exact same.trans before
    · exact absurd (before.symm.trans sleeping) awake
  constructor
  · rwa [agreed]
  · simpa only [procs, positions] using placed.proc
  · simpa only [positions] using placed.single
  · have running := placed.running
    simp only [positions, pcs, traps]
    grind
  · have isPlaced := placed.placed
    simp only [positions]
    grind [Rouses]
  · have parked := placed.parked
    simp only [Resumable, positions, pcs, traps]
    grind [Rouses, Resumable]
  · have quiet := placed.quiet
    simp only [wakers, bases, update_apply]
    grind
  · simpa only [init, pcs, traps] using placed.trapped
  · have filling := placed.filling
    simp only [positions, pcs]
    grind
  · simpa only [pcs, positions] using placed.leaving

end

theorem scheduled (calm : machine.waker cpu = .off)
    (stepped : schedule machine cpu = .next next) : Placed next := by
  have hold := held_eq calm
  have nobody : (machine.position cpu).process = none →
      machine.proc = update machine.proc cpu none := by
    intro free
    rw [eq_comm, update_eq_self_iff, placed.proc cpu, free]
  unfold schedule at stepped
  generalize position : machine.position cpu = place at stepped
  cases place with
  | scan todo =>
    have empty : held machine cpu = [] := by
      rw [hold]
      simp [baseHeld, position]
    cases todo with
    | nil =>
      cases stepped
      refine placed.rove rfl rfl rfl (.scan slots) calm (by simp [position]) rfl rfl rfl
        (nobody (by rw [position]; rfl)) rfl (placed.locks.reorder ?_)
      rw [empty]
      simp [baseHeld]
    | cons slot todo =>
      rcases acquire_andThen_eq_next.mp stepped with ⟨free, moved⟩
      cases moved
      refine placed.rove rfl rfl rfl (.test slot todo) calm (by simp [position]) rfl rfl rfl
        (nobody (by rw [position]; rfl)) rfl (placed.locks.acquire free ?_)
      rw [empty]
      simp [baseHeld]
  | test slot todo =>
    dsimp only at stepped
    split at stepped
    · cases stepped
      exact placed.start rfl rfl rfl calm position ‹_› rfl rfl rfl rfl rfl
    · cases stepped
      refine placed.rove rfl rfl rfl (.scan todo) calm (by simp [position]) rfl rfl rfl
        (nobody (by rw [position]; rfl)) rfl (placed.locks.release ?_)
      rw [hold]
      simp [baseHeld, position]
  | run slot todo => cases stepped
  | back slot todo =>
    cases stepped
    refine placed.rove rfl rfl rfl (.scan todo) calm (by simp [position]) rfl rfl rfl rfl rfl
      (placed.locks.release ?_)
    rw [hold]
    simp [baseHeld, position]

theorem woken (stepped : wake machine cpu = .next next) : Placed next := by
  have same : ∀ slot, Rouses (machine.procs slot) (machine.procs slot) := fun _ => Or.inl rfl
  unfold wake at stepped
  generalize waker : machine.waker cpu = stage at stepped
  cases stage with
  | off => cases stepped
  | scan address todo =>
    have base := placed.quiet cpu (by simp [waker])
    have empty : held machine cpu = [] := by
      simp [held, waker, base]
    cases todo with
    | nil =>
      cases stepped
      refine placed.waking rfl rfl rfl base rfl rfl rfl same (placed.locks.reorder ?_)
      rw [empty]
      simpa [held, baseHeld, threadHeld] using base
    | cons slot todo =>
      rcases acquire_andThen_eq_next.mp stepped with ⟨free, moved⟩
      cases moved
      refine placed.waking rfl rfl rfl base rfl rfl rfl same (placed.locks.acquire free ?_)
      rw [empty]
      simp [held]
  | test address slot todo =>
    have base := placed.quiet cpu (by simp [waker])
    cases stepped
    refine placed.waking rfl rfl rfl base rfl rfl rfl (rouses_update (rouses_wakeup _ _))
      (placed.locks.release ?_)
    have after : held ((machine.setProc slot ((machine.procs slot).wakeup (.other address))).release
        slot |>.setWaker cpu (.scan address todo)) cpu = [] := by
      simpa [held, baseHeld, threadHeld] using base
    rw [after]
    simp [held, waker]

end

omit [DecidableEq Cpu] in
theorem held_nil [DecidableEq Cpu] (placed : Placed machine) (free : machine.noff cpu = 0) :
    held machine cpu = [] := by
  apply List.eq_nil_iff_forall_not_mem.mpr
  intro slot locked
  have none := List.countP_eq_zero.mp (Nat.add_eq_zero_iff.mp free).1 slot (List.mem_finRange slot)
  simp [(placed.locks.owned slot cpu).mpr locked] at none

theorem stepped (placed : Placed machine)
    (stepped : step machine action = .next next) : Placed next := by
  cases action with
  | schedule cpu =>
    rcases guard_eq_next.mp stepped with ⟨guard, stepped⟩
    exact placed.scheduled guard stepped
  | call cpu call =>
    simp only [step] at stepped
    split at stepped
    · rename_i thread todo runs
      rcases guard_eq_next.mp stepped with ⟨⟨calm, plain, here⟩, stepped⟩
      have enters : ∀ pc exits, heldAt machine.initproc thread pc = [] →
          (∀ np, pc ≠ .forkFill np) → Placed ({ machine with exits := exits }.goto thread pc) := by
        intro pc exits empty notFill
        refine placed.still runs calm plain (by simp [here]) ⟨rfl, rfl, rfl, rfl⟩ rfl rfl
          (fun _ => Or.inl rfl) (fun np fills => absurd fills (notFill np))
          (placed.locks.reorder ?_)
        rw [held_here calm runs plain, here, empty]
        rfl
      cases call with
      | exit status =>
        rcases check_eq_next.mp stepped with ⟨_, stepped⟩
        cases stepped
        exact enters _ _ rfl (by simp)
      | sleep address | kill pid | fork | wait =>
        cases stepped
        exact enters _ _ rfl (by simp)
    · cases stepped
  | advance cpu luck =>
    simp only [step] at stepped
    split at stepped
    · rename_i thread todo runs
      rcases guard_eq_next.mp stepped with ⟨guard, stepped⟩
      exact placed.ran runs guard stepped
    · cases stepped
  | timer cpu =>
    simp only [step] at stepped
    split at stepped
    · rename_i thread todo runs
      rcases guard_eq_next.mp stepped with ⟨⟨calm, free, plain, kind⟩, stepped⟩
      cases stepped
      have empty := placed.held_nil free
      have running : (machine.procs thread).state = .RUNNING := by
        rcases placed.running cpu thread todo runs with running | ⟨_, _, exiting⟩
        · exact running
        · rw [held_here calm runs plain, exiting] at empty
          cases empty
      refine placed.inTrap runs calm (Or.inr empty) running ⟨rfl, rfl, rfl, rfl⟩ rfl rfl rfl
        (placed.locks.reorder ?_)
      rw [empty]
      simp [threadHeld]
    · cases stepped
  | wakeup cpu address =>
    rcases guard_eq_next.mp stepped with ⟨⟨calm, free⟩, stepped⟩
    cases stepped
    have empty := placed.held_nil free
    have base : baseHeld machine cpu = [] := by
      rw [← held_eq calm]
      exact empty
    refine placed.waking rfl rfl rfl base rfl rfl rfl (fun _ => Or.inl rfl)
      (placed.locks.reorder ?_)
    rw [empty]
    simpa [held, baseHeld, threadHeld] using base
  | wake cpu =>
    simp only [step] at stepped
    exact placed.woken stepped

end

end Placed

/-! ## Every interleaving -/

theorem boot_placed : Placed (boot : Machine Cpu) := by
  have unused : ∀ slot, slot ≠ 0 → ((boot : Machine Cpu).procs slot).state = .UNUSED := by
    intro slot different
    simp [boot, different, Proc.free, Process.Proc.free]
  refine ⟨⟨?_, ?_⟩, ?_, ?_, ?_, ?_, ?_, ?_, ?_, ?_, ?_⟩
  · intro lock cpu
    simp [boot, held, baseHeld]
  · intro cpu
    simp [boot, held, baseHeld]
  · intro cpu
    rfl
  · intro cpu other thread impossible
    cases impossible
  · intro cpu thread rest impossible
    cases impossible
  · intro thread isRunning
    by_cases first : thread = 0
    · subst thread
      cases isRunning
    · rw [unused thread first] at isRunning
      cases isRunning
  · intro thread _ waits
    by_cases first : thread = 0
    · subst thread
      exact Or.inr ⟨rfl, Or.inl rfl⟩
    · rw [unused thread first] at waits
      rcases waits with impossible | impossible <;> cases impossible
  · intro cpu impossible
    exact absurd rfl impossible
  · intro thread impossible
    exact absurd rfl impossible
  · intro cpu thread rest np impossible
    cases impossible
  · intro thread leaves
    by_cases first : thread = 0
    · subst thread
      cases leaves
    · simp [boot, first] at leaves

/-- No slot was current anywhere when it was freed. -/
def FreesIdle (machine : Machine Cpu) : Prop :=
  ∀ slot procs, (slot, procs) ∈ machine.frees → ∀ cpu, procs cpu ≠ some slot

section

variable [DecidableEq Cpu]

/-- `freeproc` is called by a process that holds the lock of an unused slot or
of a zombie. -/
theorem Advanced.frees {cpu : Cpu} {rest : List Slot}
    (stepped : Advanced machine cpu thread rest next) (placed : Placed machine)
    (runs : machine.position cpu = .run thread rest) (calm : machine.waker cpu = .off)
    (plain : machine.trap thread = .none) :
    next.frees = machine.frees ∨
      ∃ slot, next.frees = (slot, machine.proc) :: machine.frees ∧
        ∀ other, machine.proc other ≠ some slot := by
  have freeing : ∀ slot, slot ∈ held machine cpu → machine.pc thread ≠ .exitSched →
      (machine.procs slot).state = .UNUSED ∨ (machine.procs slot).state = .ZOMBIE →
        ∀ other, machine.proc other ≠ some slot := by
    intro slot locked staying ended
    have notRun := placed.not_run runs locked staying ended
    refine placed.nowhere cpu notRun locked ?_
    rw [runs]
    rintro current
    cases current
    exact notRun cpu rest runs
  have hold := Placed.held_here calm runs plain
  cases stepped with
  | undo np here =>
    refine Or.inr ⟨np, rfl, freeing np ?_ (by simp [here])
      (Or.inl (placed.filling cpu thread rest np runs here))⟩
    rw [hold, here]
    exact List.mem_singleton.mpr rfl
  | reap np todo here zombie =>
    refine Or.inr ⟨np, rfl, freeing np ?_ (by simp [here]) (Or.inr zombie)⟩
    rw [hold, here]
    exact List.mem_cons_self
  | park parked parks stopped =>
    cases parks <;> exact Or.inl rfl
  | _ => exact Or.inl rfl

end

/-! ## What a step can do to the table -/

section

variable [DecidableEq Cpu]

/-- Steps of `scheduler`, of `wakeup` and of `yield` move processes between
the states of a live process, and do nothing else to the table. -/
structure Background (machine next : Machine Cpu) : Prop where
  procs : ∀ slot, next.procs slot = machine.procs slot ∨
    ∃ state, (machine.procs slot).state ∈ [ProcState.SLEEPING, .RUNNABLE, .RUNNING] ∧
      state ∈ [ProcState.RUNNABLE, .RUNNING] ∧
      next.procs slot = { machine.procs slot with state := state }
  pc : next.pc = machine.pc
  initproc : next.initproc = machine.initproc
  serial : next.serial = machine.serial
  births : next.births = machine.births
  exits : next.exits = machine.exits
  deaths : next.deaths = machine.deaths
  reapings : next.reapings = machine.reapings
  frees : next.frees = machine.frees

/-- The positions at which a system call starts, and the calls of `exit` up to
then. -/
inductive Entry (machine : Machine Cpu) (thread : Slot) : Pc → List Exit → Prop where
  | sleep (address : Nat) : Entry machine thread (.sleepLock address) machine.exits
  | kill (pid : BitVec 32) : Entry machine thread (.killScan pid slots) machine.exits
  | fork : Entry machine thread (.forkScan slots) machine.exits
  | wait : Entry machine thread .waitEnter machine.exits
  | exit (status : Int) (other : thread ≠ machine.initproc) :
      Entry machine thread (.exitInit status) (⟨machine.serial thread, status⟩ :: machine.exits)

/-- A step of a CPU is one of the process it runs, outside of interrupts, or
the start of one of its calls, or a step in the background. -/
inductive Cases (machine next : Machine Cpu) : Prop where
  | advanced (cpu : Cpu) (thread : Slot) (rest : List Slot)
      (runs : machine.position cpu = .run thread rest) (calm : machine.waker cpu = .off)
      (plain : machine.trap thread = .none) (stepped : Advanced machine cpu thread rest next)
  | entered (cpu : Cpu) (thread : Slot) (rest : List Slot) (pc : Pc) (exits : List Exit)
      (runs : machine.position cpu = .run thread rest) (here : machine.pc thread = .user)
      (entry : Entry machine thread pc exits)
      (after : next = { machine with exits := exits }.goto thread pc)
  | background (background : Background machine next)

/-- At most, a live process gets another state of one. -/
def Livened (before after : Proc) : Prop :=
  after = before ∨ ∃ state, before.state ∈ [ProcState.SLEEPING, .RUNNABLE, .RUNNING] ∧
    state ∈ [ProcState.RUNNABLE, .RUNNING] ∧ after = { before with state := state }

omit [DecidableEq Cpu] in
theorem background_update {state : ProcState}
    (before : (machine.procs slot).state ∈ [ProcState.SLEEPING, .RUNNABLE, .RUNNING])
    (live : state ∈ [ProcState.RUNNABLE, .RUNNING])
    (set : after = { machine.procs slot with state := state }) (other : Slot) :
    Livened (machine.procs other) (update machine.procs slot after other) := by
  by_cases same : other = slot
  · subst other
    rw [update_self, set]
    exact Or.inr ⟨state, before, live, rfl⟩
  · rw [update_of_ne same]
    exact Or.inl rfl

theorem Placed.cases (placed : Placed machine)
    (stepped : step machine action = .next next) : Cases machine next := by
  have same : ∀ slot, Livened (machine.procs slot) (machine.procs slot) := fun _ => Or.inl rfl
  cases action with
  | schedule cpu =>
    rcases guard_eq_next.mp stepped with ⟨_, stepped⟩
    refine .background ?_
    unfold schedule at stepped
    split at stepped
    · cases stepped
      exact ⟨same, rfl, rfl, rfl, rfl, rfl, rfl, rfl, rfl⟩
    · rcases acquire_andThen_eq_next.mp stepped with ⟨_, moved⟩
      cases moved
      exact ⟨same, rfl, rfl, rfl, rfl, rfl, rfl, rfl, rfl⟩
    · split at stepped
      · rename_i runnable
        cases stepped
        exact ⟨background_update (by simp [runnable]) (by simp) rfl, rfl, rfl, rfl, rfl, rfl,
          rfl, rfl, rfl⟩
      · cases stepped
        exact ⟨same, rfl, rfl, rfl, rfl, rfl, rfl, rfl, rfl⟩
    · cases stepped
    · cases stepped
      exact ⟨same, rfl, rfl, rfl, rfl, rfl, rfl, rfl, rfl⟩
  | call cpu call =>
    simp only [step] at stepped
    split at stepped
    · rename_i thread todo runs
      rcases guard_eq_next.mp stepped with ⟨ready, stepped⟩
      cases call with
      | exit status =>
        rcases check_eq_next.mp stepped with ⟨guard, stepped⟩
        cases stepped
        exact .entered cpu thread todo _ _ runs ready.2.2 (.exit status guard) rfl
      | sleep address =>
        cases stepped
        exact .entered cpu thread todo _ _ runs ready.2.2 (.sleep address) rfl
      | kill pid =>
        cases stepped
        exact .entered cpu thread todo _ _ runs ready.2.2 (.kill pid) rfl
      | fork =>
        cases stepped
        exact .entered cpu thread todo _ _ runs ready.2.2 .fork rfl
      | wait =>
        cases stepped
        exact .entered cpu thread todo _ _ runs ready.2.2 .wait rfl
    · cases stepped
  | advance cpu luck =>
    simp only [step] at stepped
    split at stepped
    · rename_i thread todo runs
      rcases guard_eq_next.mp stepped with ⟨calm, stepped⟩
      unfold run at stepped
      generalize trap : machine.trap thread = kind at stepped
      cases kind with
      | none => exact .advanced cpu thread todo runs calm trap (advanced_of_advance stepped)
      | lock =>
        rcases acquire_andThen_eq_next.mp stepped with ⟨_, moved⟩
        cases moved
        exact .background ⟨same, rfl, rfl, rfl, rfl, rfl, rfl, rfl, rfl⟩
      | set =>
        rcases sched_eq_next stepped with ⟨_, rfl⟩
        have running := placed.running_of_trap runs (by simp [trap])
        exact .background ⟨background_update (by simp [running]) (by simp) rfl, rfl, rfl, rfl,
          rfl, rfl, rfl, rfl, rfl⟩
      | back =>
        cases stepped
        exact .background ⟨same, rfl, rfl, rfl, rfl, rfl, rfl, rfl, rfl⟩
    · cases stepped
  | timer cpu =>
    simp only [step] at stepped
    split at stepped
    · rcases guard_eq_next.mp stepped with ⟨_, stepped⟩
      cases stepped
      exact .background ⟨same, rfl, rfl, rfl, rfl, rfl, rfl, rfl, rfl⟩
    · cases stepped
  | wakeup cpu address =>
    rcases guard_eq_next.mp stepped with ⟨_, stepped⟩
    cases stepped
    exact .background ⟨same, rfl, rfl, rfl, rfl, rfl, rfl, rfl, rfl⟩
  | wake cpu =>
    simp only [step] at stepped
    refine .background ?_
    unfold wake at stepped
    split at stepped
    · cases stepped
    · cases stepped
      exact ⟨same, rfl, rfl, rfl, rfl, rfl, rfl, rfl, rfl⟩
    · rcases acquire_andThen_eq_next.mp stepped with ⟨_, moved⟩
      cases moved
      exact ⟨same, rfl, rfl, rfl, rfl, rfl, rfl, rfl, rfl⟩
    · rename_i address slot todo _
      cases stepped
      refine ⟨?_, rfl, rfl, rfl, rfl, rfl, rfl, rfl, rfl⟩
      by_cases sleeps : (machine.procs slot).state = .SLEEPING ∧
          (machine.procs slot).chan = some (.other address)
      · refine background_update (by simp [sleeps.1])
          (List.mem_cons_self : ProcState.RUNNABLE ∈ [ProcState.RUNNABLE, .RUNNING]) ?_
        exact if_pos sleeps
      · have woken : (machine.procs slot).wakeup (.other address) = machine.procs slot :=
          if_neg sleeps
        intro other
        refine Or.inl ?_
        simp [woken]

end

/-! ## The result -/

/-- What holds of the CPUs in every state. -/
structure Exclusive (machine : Machine Cpu) : Prop where
  /-- A process whose lock is free is `RUNNING` exactly if it is current on
  some CPU. -/
  running : ∀ slot, machine.owner slot = none →
    ((machine.procs slot).state = .RUNNING ↔ ∃ cpu, machine.proc cpu = some slot)
  /-- No process is current on two CPUs. -/
  single : ∀ cpu other slot, machine.proc cpu = some slot → machine.proc other = some slot →
    cpu = other
  /-- `freeproc` was only ever applied to slots that were current on no CPU. -/
  frees : FreesIdle machine

theorem Placed.exclusive (placed : Placed machine)
    (frees : FreesIdle machine) : Exclusive machine where
  running := by
    intro slot free
    constructor
    · intro isRunning
      rcases placed.placed slot isRunning with ⟨cpu, rest, runs⟩
      refine ⟨cpu, ?_⟩
      rw [placed.proc cpu, runs]
      rfl
    · rintro ⟨cpu, current⟩
      have unlocked := placed.locks.not_mem free cpu
      rw [placed.proc cpu] at current
      cases position : machine.position cpu with
      | scan todo | test one todo =>
        rw [position] at current
        cases current
      | back one todo =>
        rw [position] at current
        cases current
        exact absurd (placed.back_held position) unlocked
      | run one todo =>
        rw [position] at current
        cases current
        rcases placed.running cpu slot todo position with running | ⟨_, _, exiting⟩
        · exact running
        · exact absurd (placed.mem_held position (by simp [exiting, heldAt])) unlocked
  single := by
    intro cpu other slot first second
    rw [placed.proc] at first second
    exact placed.single cpu other slot first second
  frees := frees

variable [DecidableEq Cpu]

theorem FreesIdle.step (frees : FreesIdle machine) (placed : Placed machine)
    (stepped : Sched.step machine action = .next next) : FreesIdle next := by
  have known : next.frees = machine.frees ∨
      ∃ slot, next.frees = (slot, machine.proc) :: machine.frees ∧
        ∀ other, machine.proc other ≠ some slot := by
    cases placed.cases stepped with
    | advanced cpu thread rest runs calm plain stepped =>
      exact stepped.frees placed runs calm plain
    | entered cpu thread rest pc exits runs here entry after =>
      rw [after]
      exact Or.inl rfl
    | background background => exact Or.inl background.frees
  unfold FreesIdle
  rcases known with same | ⟨slot, more, idle⟩
  · rw [same]
    exact frees
  · rw [more]
    intro one procs listed
    rcases List.mem_cons.mp listed with equal | earlier
    · cases equal
      exact idle
    · exact frees one procs earlier

/-- Scheduling is exclusive, in every state that any number of CPUs reach by
any interleaving of the scheduler with the calls of the processes. -/
theorem scheduling_exclusive (schedule : List (Action Cpu)) (final : Machine Cpu)
    (reached : exec step boot schedule = .next final) : Exclusive final := by
  have sound : Placed final ∧ FreesIdle final := by
    refine exec_invariant' (fun machine => Placed machine ∧ FreesIdle machine) ?_
      ⟨boot_placed, ?_⟩ reached
    · intro machine action next holds stepped
      exact ⟨holds.1.stepped stepped, holds.2.step holds.1 stepped⟩
    · intro slot procs impossible
      cases impossible
  exact sound.1.exclusive sound.2

/-- One CPU runs init, which forks; the other one runs the child, which sleeps
until it is woken up from the first CPU. -/
def sleepAndWakeup : List (Action (Fin 2)) :=
  [.schedule 0, .schedule 0, .advance 0 ⟨.enough, true⟩, .call 0 .fork] ++
    .replicate 5 (.advance 0 ⟨.enough, true⟩) ++ .replicate 4 (.schedule 1) ++
    [.advance 1 ⟨.enough, true⟩, .call 1 (.sleep 5), .advance 1 ⟨.enough, true⟩,
      .advance 1 ⟨.enough, true⟩, .schedule 1, .wakeup 0 5] ++ .replicate 4 (.wake 0)

theorem scheduling_exclusive_init : ∃ final : Machine (Fin 2),
    exec step boot sleepAndWakeup = .next final ∧ (final.procs 1).state = .RUNNABLE ∧
      final.proc 0 = some 0 ∧ final.proc 1 = none ∧ Exclusive final := by
  refine Outcome.next_and ⟨_, rfl⟩ fun final reached => ?_
  have states : (final.procs 1).state = .RUNNABLE ∧ final.proc 0 = some 0 ∧ final.proc 1 = none := by
    cases reached
    decide
  exact ⟨states.1, states.2.1, states.2.2, scheduling_exclusive _ final reached⟩

end Sched
end Process
end Xv6
