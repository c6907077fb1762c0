import Mathlib.Logic.Function.Basic
import Xv6.Foundation.Run
import Xv6.Panic

namespace Xv6
namespace Console

open Foundation Function

/-!
# Output on the console

`consolewrite` and `uartputc`, cut at every `acquire` and `release`, with the
part of `sleep` up to `sched`.  A process in the kernel counts the spinlocks of
its CPU in `noff`, and `sched` insists on exactly one.  The interrupt handler
runs on another CPU, or while the process holds no lock, and takes
`uart_tx_lock` for the whole of `uartstart`.

`consolewrite` holds `cons.lock` while it calls `uartputc`.  When the buffer of
the driver is full, `uartputc` sleeps, and `sleep` gives up `uart_tx_lock` only.
So `sched` is entered with two locks.  If the buffer is never found full, `sched`
is entered only by the timer, with one.
-/

def UART_TX_BUF_SIZE : Nat := 32

/-- Where a process is.  The bytes are those that `consolewrite` has still to
copy in; a missing byte is one that cannot be copied.  In `yielding` and
`yielded` the timer has interrupted the process at the position. -/
inductive Pc where
  | user
  | enter (bytes : List (Option UInt8))
  | loop (bytes : List (Option UInt8))
  | putc (c : UInt8) (bytes : List (Option UInt8))
  | test (c : UInt8) (bytes : List (Option UInt8))
  | doze (c : UInt8) (bytes : List (Option UInt8))
  | sched (c : UInt8) (bytes : List (Option UInt8))
  | asleep (c : UInt8) (bytes : List (Option UInt8))
  | woken (c : UInt8) (bytes : List (Option UInt8))
  | yielding (position : Pc)
  | yielded (position : Pc)
deriving DecidableEq

/-- The two spinlocks of the console, the processes with the `noff` of their
CPUs, and the driver's buffer.  `plock` says which processes have their
`p->lock`. -/
structure Machine (Pid : Type) where
  cons : Option Pid
  tx : Option Pid
  plock : Pid → Bool
  noff : Pid → Nat
  pc : Pid → Pc
  uart_tx_buf : Nat → UInt8
  uart_tx_w : Nat
  uart_tx_r : Nat
  sent : List UInt8

section

variable {Pid : Type}

namespace Machine

/-- `((uart_tx_w + 1) % UART_TX_BUF_SIZE) == uart_tx_r`. -/
def Full (machine : Machine Pid) : Prop :=
  (machine.uart_tx_w + 1) % UART_TX_BUF_SIZE = machine.uart_tx_r

instance (machine : Machine Pid) : Decidable machine.Full :=
  inferInstanceAs (Decidable (_ = _))

/-- `wakeup(&uart_tx_r)`. -/
def wakeup (machine : Machine Pid) : Machine Pid :=
  { machine with
    pc := fun pid =>
      match machine.pc pid with
      | .asleep c bytes => .woken c bytes
      | other => other }

/-- The rest of the loop body of `uartstart`, once the UART is idle. -/
def send (machine : Machine Pid) : Machine Pid :=
  { machine.wakeup with
    uart_tx_r := (machine.uart_tx_r + 1) % UART_TX_BUF_SIZE
    sent := machine.sent ++ [machine.uart_tx_buf machine.uart_tx_r] }

/-- `uartstart`.  The list has what `LSR_TX_IDLE` says each time it is read;
behind its end the UART is busy. -/
def uartstart : List Bool → Machine Pid → Machine Pid
  | [], machine => machine
  | idle :: rest, machine =>
    if machine.uart_tx_w = machine.uart_tx_r then machine
    else if idle = false then machine
    else uartstart rest machine.send

/-- `uart_tx_buf[uart_tx_w] = c`, and the next index. -/
def queue (machine : Machine Pid) (c : UInt8) : Machine Pid :=
  { machine with
    uart_tx_buf := update machine.uart_tx_buf machine.uart_tx_w c
    uart_tx_w := (machine.uart_tx_w + 1) % UART_TX_BUF_SIZE }

variable [DecidableEq Pid] (machine : Machine Pid) (pid : Pid)

def goto (pc : Pc) : Machine Pid :=
  { machine with pc := update machine.pc pid pc }

def push_off : Machine Pid :=
  { machine with noff := update machine.noff pid (machine.noff pid + 1) }

def pop_off : Machine Pid :=
  { machine with noff := update machine.noff pid (machine.noff pid - 1) }

/-- `acquire(&cons.lock)`. -/
def acquireCons : Outcome Panic (Machine Pid) :=
  match machine.cons with
  | none => .next ({ machine with cons := some pid }.push_off pid)
  | some other => if other = pid then .halted .acquire else .blocked

/-- `acquire(&uart_tx_lock)`. -/
def acquireTx : Outcome Panic (Machine Pid) :=
  match machine.tx with
  | none => .next ({ machine with tx := some pid }.push_off pid)
  | some other => if other = pid then .halted .acquire else .blocked

def releaseCons : Machine Pid :=
  { machine with cons := none }.pop_off pid

def releaseTx : Machine Pid :=
  { machine with tx := none }.pop_off pid

/-- `acquire(&p->lock)` by the process itself. -/
def acquireProc : Machine Pid :=
  { machine with plock := update machine.plock pid true }.push_off pid

def releaseProc : Machine Pid :=
  { machine with plock := update machine.plock pid false }.pop_off pid

/-- `sched`, up to the switch.  When the process is back its CPU has the same
`noff`, because `scheduler` holds `p->lock` again. -/
def sched (pc : Pc) : Outcome Panic (Machine Pid) :=
  if machine.plock pid = false then .halted .schedLock
  else if machine.noff pid ≠ 1 then .halted .schedLocks
  else .next (machine.goto pid pc)

end Machine

/-- A process writes to the console, a process runs to its next position, the
timer interrupts a process, or the UART interrupts. -/
inductive Action (Pid : Type) where
  | write (pid : Pid) (bytes : List (Option UInt8))
  | run (pid : Pid) (idle : List Bool)
  | tick (pid : Pid)
  | interrupt (idle : List Bool)

variable [DecidableEq Pid]

/-- A process runs to its next position. -/
def run (machine : Machine Pid) (pid : Pid) (idle : List Bool) : Outcome Panic (Machine Pid) :=
  match machine.pc pid with
  | .user => .blocked
  | .enter bytes =>
    (machine.acquireCons pid).andThen fun next => .next (next.goto pid (.loop bytes))
  | .loop [] => .next ((machine.releaseCons pid).goto pid .user)
  | .loop (none :: _) => .next ((machine.releaseCons pid).goto pid .user)
  | .loop (some c :: bytes) => .next (machine.goto pid (.putc c bytes))
  | .putc c bytes =>
    (machine.acquireTx pid).andThen fun next => .next (next.goto pid (.test c bytes))
  | .test c bytes =>
    if machine.Full then .next (machine.goto pid (.doze c bytes))
    else
      .next ((((machine.queue c).uartstart idle).releaseTx pid).goto pid (.loop bytes))
  | .doze c bytes =>
    .next (((machine.acquireProc pid).releaseTx pid).goto pid (.sched c bytes))
  | .sched c bytes => machine.sched pid (.asleep c bytes)
  | .asleep _ _ => .blocked
  | .woken c bytes => .next ((machine.releaseProc pid).goto pid (.putc c bytes))
  | .yielding position => machine.sched pid (.yielded position)
  | .yielded position => .next ((machine.releaseProc pid).goto pid position)

def step (machine : Machine Pid) : Action Pid → Outcome Panic (Machine Pid)
  | .write pid bytes =>
    if machine.pc pid = .user then .next (machine.goto pid (.enter bytes)) else .blocked
  | .run pid idle => run machine pid idle
  | .tick pid =>
    if machine.noff pid = 0 then
      .next ((machine.acquireProc pid).goto pid (.yielding (machine.pc pid)))
    else .blocked
  | .interrupt idle => if machine.tx = none then .next (machine.uartstart idle) else .blocked

/-- No process is in the kernel; the buffer is in any state. -/
structure Quiet (machine : Machine Pid) : Prop where
  pc : ∀ pid, machine.pc pid = .user
  noff : ∀ pid, machine.noff pid = 0
  cons : machine.cons = none
  tx : machine.tx = none

/-! ## Counting locks -/

namespace Pc

/-- The position is at a call of `sched`. -/
def atSched : Pc → Bool
  | .sched _ _ | .yielding _ => true
  | _ => false

/-- The position is at the test for a full buffer. -/
def atTest : Pc → Bool
  | .test _ _ => true
  | _ => false

/-- The position is not in `sleep`. -/
def awake : Pc → Bool
  | .doze _ _ | .sched _ _ | .asleep _ _ | .woken _ _ => false
  | _ => true

/-- The spinlocks that are held at a position outside of `sleep`. -/
def locks : Pc → Nat
  | .loop _ | .putc _ _ | .yielding _ | .yielded _ => 1
  | .test _ _ => 2
  | _ => 0

/-- Where the timer finds a process, and where it goes on. -/
def Interrupted : Pc → Prop
  | .yielding position | .yielded position => position.awake = true ∧ position.locks = 0
  | _ => True

end Pc

/-- The processes count their locks, and none is in `sleep`. -/
structure Counted (machine : Machine Pid) : Prop where
  awake : ∀ pid, (machine.pc pid).awake = true
  noff : ∀ pid, machine.noff pid = (machine.pc pid).locks
  interrupted : ∀ pid, (machine.pc pid).Interrupted

/-- A process that tests the buffer does not find it full. -/
def Roomy (machine : Machine Pid) : Action Pid → Prop
  | .run pid _ => (machine.pc pid).atTest = true → ¬ machine.Full
  | .write .. | .tick _ | .interrupt _ => True

instance (machine : Machine Pid) : (action : Action Pid) → Decidable (Roomy machine action)
  | .run pid _ => inferInstanceAs (Decidable ((machine.pc pid).atTest = true → ¬ machine.Full))
  | .write .. | .tick _ | .interrupt _ => .isTrue trivial

section

variable {machine after : Machine Pid} {pid : Pid} {action : Action Pid}

omit [DecidableEq Pid] in
theorem Counted.uartstart (counted : Counted machine) (idle : List Bool) :
    (machine.uartstart idle).pc = machine.pc ∧ (machine.uartstart idle).noff = machine.noff := by
  induction idle generalizing machine with
  | nil => exact ⟨rfl, rfl⟩
  | cons ready rest ih =>
    rw [Machine.uartstart]
    split
    · exact ⟨rfl, rfl⟩
    · split
      · exact ⟨rfl, rfl⟩
      · have samePc : machine.send.pc = machine.pc := by
          funext other
          have awake := counted.awake other
          simp only [Machine.send, Machine.wakeup]
          split
          · rename_i isAsleep
            rw [isAsleep] at awake
            cases awake
          · rfl
        have sent : Counted machine.send := by
          refine ⟨?_, ?_, ?_⟩
          · rw [samePc]
            exact counted.awake
          · rw [samePc]
            exact counted.noff
          · rw [samePc]
            exact counted.interrupted
        rcases ih sent with ⟨pcs, noffs⟩
        exact ⟨pcs.trans samePc, noffs⟩

section

variable (counted : Counted machine)
include counted

/-- One process takes or gives back a lock and moves on. -/
theorem Counted.move (pid : Pid) (pc : Pc) (noff : Nat) (pcs : after.pc = update machine.pc pid pc)
    (noffs : after.noff = update machine.noff pid noff)
    (awake : pc.awake = true) (isNoff : noff = pc.locks) (interrupted : pc.Interrupted) :
    Counted after := by
  refine ⟨?_, ?_, ?_⟩
  · intro other
    rw [pcs]
    by_cases same : other = pid
    · rw [same, update_self]
      exact awake
    · rw [update_of_ne same]
      exact counted.awake other
  · intro other
    rw [pcs, noffs]
    by_cases same : other = pid
    · rw [same, update_self, update_self, isNoff]
    · rw [update_of_ne same, update_of_ne same]
      exact counted.noff other
  · intro other
    rw [pcs]
    by_cases same : other = pid
    · rw [same, update_self]
      exact interrupted
    · rw [update_of_ne same]
      exact counted.interrupted other

theorem Counted.goto (pid : Pid) (pc : Pc) (awake : pc.awake = true)
    (sameLocks : pc.locks = (machine.pc pid).locks) (interrupted : pc.Interrupted) :
    Counted (machine.goto pid pc) := by
  refine counted.move pid pc (machine.noff pid) rfl ?_ awake ?_ interrupted
  · rw [update_eq_self]
    rfl
  · rw [counted.noff, sameLocks]

/-- A position outside of `sleep`, in a step that keeps the count. -/
theorem Counted.run {idle : List Bool}
    (roomy : Roomy machine (.run pid idle)) (ran : run machine pid idle = .next after) :
    Counted after := by
  have noff := counted.noff pid
  have awake := counted.awake pid
  have interrupted := counted.interrupted pid
  unfold Console.run at ran
  generalize isPc : machine.pc pid = pc at ran noff awake interrupted
  cases pc with
  | user => cases ran
  | enter bytes =>
    rcases Outcome.andThen_eq_next.mp ran with ⟨middle, acquired, isAfter⟩
    cases isAfter
    rw [Machine.acquireCons] at acquired
    split at acquired
    · cases acquired
      refine counted.move pid (.loop bytes) _ rfl rfl rfl ?_ trivial
      rw [noff]
      rfl
    · rcases guard_eq_next.mp acquired with ⟨_, acquired⟩
      cases acquired
  | loop bytes =>
    have ends : Counted ((machine.releaseCons pid).goto pid .user) := by
      refine counted.move pid .user _ rfl rfl rfl ?_ trivial
      rw [noff]
      rfl
    cases bytes with
    | nil =>
      cases ran
      exact ends
    | cons byte bytes =>
      cases byte with
      | none =>
        cases ran
        exact ends
      | some c =>
        cases ran
        apply counted.goto pid (.putc c bytes) rfl _ trivial
        rw [isPc]
        rfl
  | putc c bytes =>
    rcases Outcome.andThen_eq_next.mp ran with ⟨middle, acquired, isAfter⟩
    cases isAfter
    rw [Machine.acquireTx] at acquired
    split at acquired
    · cases acquired
      refine counted.move pid (.test c bytes) _ rfl rfl rfl ?_ trivial
      rw [noff]
      rfl
    · rcases guard_eq_next.mp acquired with ⟨_, acquired⟩
      cases acquired
  | test c bytes =>
    have notFull := roomy (by rw [isPc]; rfl)
    simp only [if_neg notFull] at ran
    cases ran
    have queued : Counted (machine.queue c) :=
      ⟨counted.awake, counted.noff, counted.interrupted⟩
    rcases queued.uartstart idle with ⟨pcs, noffs⟩
    refine counted.move pid (.loop bytes) (machine.noff pid - 1) ?_ ?_ rfl ?_ trivial
    · show update (Machine.uartstart idle (machine.queue c)).pc pid _ = _
      rw [pcs]
      rfl
    · show update (Machine.uartstart idle (machine.queue c)).noff pid
        ((Machine.uartstart idle (machine.queue c)).noff pid - 1) = _
      rw [noffs]
      rfl
    · rw [noff]
      rfl
  | doze c bytes | sched c bytes | asleep c bytes | woken c bytes => cases awake
  | yielding position =>
    simp only [Machine.sched] at ran
    rcases check_eq_next.mp ran with ⟨_, ran⟩
    rcases check_eq_next.mp ran with ⟨_, ran⟩
    cases ran
    apply counted.goto pid (.yielded position) rfl _ interrupted
    rw [isPc]
    rfl
  | yielded position =>
    cases ran
    refine counted.move pid position _ rfl rfl interrupted.1 ?_ ?_
    · rw [noff, interrupted.2]
      rfl
    · cases position with
      | yielding position | yielded position => exact absurd interrupted.2 Nat.one_ne_zero
      | _ => trivial

theorem Counted.next (roomy : Roomy machine action)
    (stepped : step machine action = .next after) : Counted after := by
  cases action with
  | write pid bytes =>
    rcases guard_eq_next.mp stepped with ⟨isUser, stepped⟩
    cases stepped
    apply counted.goto pid (.enter bytes) rfl _ trivial
    rw [isUser]
    rfl
  | run pid idle => exact counted.run roomy stepped
  | tick pid =>
    rcases guard_eq_next.mp stepped with ⟨isOn, stepped⟩
    cases stepped
    refine counted.move pid (.yielding (machine.pc pid)) _ rfl rfl rfl ?_ ?_
    · rw [isOn]
      rfl
    · refine ⟨counted.awake pid, ?_⟩
      rw [← counted.noff, isOn]
  | interrupt idle =>
    rcases guard_eq_next.mp stepped with ⟨_, stepped⟩
    cases stepped
    rcases counted.uartstart idle with ⟨pcs, noffs⟩
    refine ⟨?_, ?_, ?_⟩
    · rw [pcs]
      exact counted.awake
    · rw [pcs, noffs]
      exact counted.noff
    · rw [pcs]
      exact counted.interrupted

end

omit [DecidableEq Pid] in
theorem Quiet.counted (quiet : Quiet machine) : Counted machine := by
  refine ⟨?_, ?_, ?_⟩
  · intro pid
    rw [quiet.pc]
    rfl
  · intro pid
    rw [quiet.pc, quiet.noff]
    rfl
  · intro pid
    rw [quiet.pc]
    trivial

theorem Machine.sched_eq_halted {pc : Pc} (halts : machine.sched pid pc = .halted .schedLocks) :
    machine.noff pid ≠ 1 := by
  rw [Machine.sched] at halts
  split at halts
  · cases halts
  · split at halts
    · assumption
    · cases halts

theorem atSched_of_schedLocks {idle : List Bool}
    (halts : Console.run machine pid idle = .halted .schedLocks) :
    (machine.pc pid).atSched = true ∧ machine.noff pid ≠ 1 := by
  have acquiredCons : machine.acquireCons pid ≠ .halted .schedLocks := by
    rw [Machine.acquireCons]
    split
    · simp
    · split <;> simp
  have acquiredTx : machine.acquireTx pid ≠ .halted .schedLocks := by
    rw [Machine.acquireTx]
    split
    · simp
    · split <;> simp
  unfold Console.run at halts
  generalize machine.pc pid = pc at halts ⊢
  cases pc with
  | sched c bytes | yielding position =>
    exact ⟨rfl, Machine.sched_eq_halted halts⟩
  | enter bytes =>
    rcases Outcome.andThen_eq_halted.mp halts with halted | ⟨middle, _, impossible⟩
    · exact absurd halted acquiredCons
    · cases impossible
  | putc c bytes =>
    rcases Outcome.andThen_eq_halted.mp halts with halted | ⟨middle, _, impossible⟩
    · exact absurd halted acquiredTx
    · cases impossible
  | loop bytes =>
    cases bytes with
    | nil => cases halts
    | cons byte bytes =>
      cases byte with
      | none | some c => cases halts
  | test c bytes =>
    dsimp only at halts
    split at halts
    · cases halts
    · cases halts
  | _ => cases halts

/-- On a run that never finds the transmit buffer full, `sched` is entered with
one lock only. -/
theorem sched_holds_one_lock {start final : Machine Pid} {schedule : List (Action Pid)}
    (quiet : Quiet start) (roomy : Meets step Roomy start schedule)
    (reached : exec step start schedule = .next final) :
    (∀ pid, (final.pc pid).atSched = true → final.noff pid = 1) ∧
    ∀ action, step final action ≠ .halted .schedLocks := by
  have counted : Counted final :=
    exec_invariant Counted (fun _ _ _ => Counted.next) quiet.counted roomy reached
  have one : ∀ pid, (final.pc pid).atSched = true → final.noff pid = 1 := by
    intro pid atSched
    have awake := counted.awake pid
    rw [counted.noff]
    cases isPc : final.pc pid with
    | yielding position => rfl
    | sched c bytes =>
      rw [isPc] at awake
      cases awake
    | _ =>
      rw [isPc] at atSched
      cases atSched
  refine ⟨one, ?_⟩
  intro action halts
  cases action with
  | write pid bytes | tick pid | interrupt idle =>
    simp only [step] at halts
    split at halts
    · cases halts
    · cases halts
  | run pid idle =>
    rcases atSched_of_schedLocks halts with ⟨atSched, different⟩
    exact different (one pid atSched)

end

end

/-- One process, and an empty buffer. -/
def idleConsole : Machine (Fin 1) where
  cons := none
  tx := none
  plock := fun _ => false
  noff := fun _ => 0
  pc := fun _ => .user
  uart_tx_buf := fun _ => 0
  uart_tx_w := 0
  uart_tx_r := 0
  sent := []

theorem quiet_idleConsole : Quiet idleConsole :=
  ⟨fun _ => rfl, fun _ => rfl, rfl, rfl⟩

/-- Two bytes are written, and the timer interrupts the process before. -/
def writeTwo : List (Action (Fin 1)) :=
  [.tick 0, .run 0 [], .run 0 [], .write 0 [some 104, some 105], .run 0 [], .run 0 [], .run 0 [],
   .run 0 [true], .run 0 [], .run 0 [], .run 0 [], .interrupt [true], .run 0 [], .tick 0]

theorem sched_holds_one_lock_writeTwo : ∃ final,
    exec step idleConsole writeTwo = .next final ∧ final.sent = [104, 105] ∧
      (final.pc 0).atSched = true ∧ final.noff 0 = 1 := by
  have ran : ∃ final, exec step idleConsole writeTwo = .next final ∧
      (final.sent = [104, 105] ∧ (final.pc 0).atSched = true) := by
    decide +kernel
  have roomy : Meets step Roomy idleConsole writeTwo := by
    decide +kernel
  rcases ran with ⟨final, reached, sent, atSched⟩
  exact ⟨final, reached, sent, atSched,
    (sched_holds_one_lock quiet_idleConsole roomy reached).1 0 atSched⟩

/-- A write of 32 bytes, while the UART does not get ready. -/
def writeToBusy : List (Action (Fin 1)) :=
  .write 0 (List.replicate UART_TX_BUF_SIZE (some 120)) ::
    List.replicate (1 + 3 * UART_TX_BUF_SIZE + 2) (.run 0 [])

/-- The last byte finds the buffer full, and `sleep` calls `sched` with
`cons.lock` and `p->lock` held. -/
theorem writeToBusy_sched_locks : exec step idleConsole writeToBusy = .halted .schedLocks := by
  decide +kernel

end Console
end Xv6
