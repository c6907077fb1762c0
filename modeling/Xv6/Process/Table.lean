import Mathlib.Logic.Function.Basic
import Xv6.Foundation.Run
import Xv6.Panic
import Xv6.Param

namespace Xv6
namespace Process

open Foundation Function

/-!
# The process table and `kill`

`fork`, `exit`, `wait` and `kill` of `kernel/proc.c` on the table of
`NPROC` slots, each call run to completion.  A slot keeps the fields that
these calls read or write and that outlive the call: its state, parent,
`killed` flag, exit status and pid.  Memory may run out at any allocation of
`fork`; what matters for the table is which failure path is taken.

`kill` compares pids without looking at the state of a slot, and two kinds of
unused slots carry a pid it can match: the pid `0` of a slot that was never
used or was freed, and the pid left behind when `allocproc` cannot allocate a
trapframe.
-/

abbrev Slot := Fin NPROC

/-- `enum procstate`. -/
inductive ProcState where
  | UNUSED
  | SLEEPING
  | RUNNABLE
  | RUNNING
  | ZOMBIE
deriving DecidableEq, Repr

/-- The fields of `struct proc` protected by `p->lock`. -/
structure Proc where
  state : ProcState
  parent : Option Slot
  killed : Bool
  xstate : Int
  pid : BitVec 32
deriving DecidableEq, Repr

/-- The table `proc[NPROC]` with `nextpid` and `initproc`. -/
structure Table where
  procs : Slot → Proc
  nextpid : BitVec 32
  initproc : Slot

/-- What `freeproc` leaves in a slot, and what the table holds at boot. -/
def Proc.free : Proc where
  state := .UNUSED
  parent := none
  killed := false
  xstate := 0
  pid := 0

namespace Table

def setProc (table : Table) (slot : Slot) (proc : Proc) : Table :=
  { table with procs := update table.procs slot proc }

/-- The loop `for (p = proc; p < &proc[NPROC]; p++)` up to its first hit. -/
def firstSlot (table : Table) (test : Proc → Bool) : Option Slot :=
  (List.finRange NPROC).find? fun slot => test (table.procs slot)

def freeproc (table : Table) (slot : Slot) : Table :=
  table.setProc slot Proc.free

/-- Where the memory needed by `fork` runs out, if it does. -/
inductive Memory where
  | noTrapframe
  | noPagetable
  | noCopy
  | enough
deriving DecidableEq, Repr

section

variable (table : Table)

/-- `allocproc`: the slot stays `UNUSED` until `fork` has finished with it.
The path without a trapframe returns without calling `freeproc`. -/
def allocproc (memory : Memory) : Table × Option Slot :=
  match table.firstSlot fun proc => proc.state = .UNUSED with
  | none => (table, none)
  | some slot =>
    let found : Table :=
      { table.setProc slot { table.procs slot with pid := table.nextpid } with
        nextpid := table.nextpid + 1 }
    match memory with
    | .noTrapframe => (found, none)
    | .noPagetable => (found.freeproc slot, none)
    | _ => (found, some slot)

/-- `fork` by the process in slot `p`.  The result is the child's slot, whose
pid `fork` returns; no child stands for the return value `-1`. -/
def fork (p : Slot) (memory : Memory) : Table × Option Slot :=
  match table.allocproc memory with
  | (table, none) => (table, none)
  | (table, some np) =>
    match memory with
    | .noCopy => (table.freeproc np, none)
    | _ =>
      (table.setProc np { table.procs np with parent := some p, state := .RUNNABLE }, some np)

/-- `reparent`: give the children of `p` to init. -/
def reparent (p : Slot) : Table :=
  { table with
    procs := fun slot =>
      if (table.procs slot).parent = some p then
        { table.procs slot with parent := some table.initproc }
      else table.procs slot }

/-- The table's part of `exit`, for a process other than init. -/
def exit (p : Slot) (status : Int) : Table :=
  let table := table.reparent p
  table.setProc p { table.procs p with xstate := status, state := .ZOMBIE }

/-- One scan of `wait`.  No result means that the caller goes to sleep. -/
def wait (p : Slot) (copyout : Bool) : Option Table :=
  match table.firstSlot fun np => np.parent = some p && np.state = .ZOMBIE with
  | some np => some (if copyout then table.freeproc np else table)
  | none =>
    if (table.firstSlot fun np => np.parent = some p).isNone || (table.procs p).killed then
      some table
    else none

/-- `kill`, with its return value. -/
def kill (pid : BitVec 32) : Table × Int :=
  match table.firstSlot fun proc => proc.pid = pid with
  | none => (table, -1)
  | some slot =>
    let proc := table.procs slot
    let state := if proc.state = .SLEEPING then .RUNNABLE else proc.state
    (table.setProc slot { proc with killed := true, state := state }, 0)

end

/-- The table after `userinit`: init has slot `0` and pid `1`. -/
def boot : Table where
  procs := update (fun _ => Proc.free) 0 { Proc.free with state := .RUNNABLE, pid := 1 }
  nextpid := 2
  initproc := 0

/-- The slot holds a process that can make a system call. -/
def active (table : Table) (p : Slot) : Bool :=
  match (table.procs p).state with
  | .UNUSED | .ZOMBIE => false
  | _ => true

end Table

open Table (Memory)

/-- The calls, and the scheduler moving a process between the states of a
live process. -/
inductive Action where
  | fork (p : Slot) (memory : Memory)
  | exit (p : Slot) (status : Int)
  | wait (p : Slot) (copyout : Bool)
  | kill (pid : BitVec 32)
  | reschedule (p : Slot) (state : ProcState)
deriving DecidableEq, Repr

def step (table : Table) : Action → Outcome Panic Table
  | .fork p memory => if table.active p then .next (table.fork p memory).1 else .blocked
  | .exit p status =>
    if table.active p then
      if p = table.initproc then .halted .initExiting else .next (table.exit p status)
    else .blocked
  | .wait p copyout =>
    if table.active p then
      match table.wait p copyout with
      | some table => .next table
      | none => .blocked
    else .blocked
  | .kill pid => .next (table.kill pid).1
  | .reschedule p state =>
    if table.active p ∧ state ≠ .UNUSED ∧ state ≠ .ZOMBIE then
      .next (table.setProc p { table.procs p with state := state })
    else .blocked

/-! ## The condition and the property -/

/-- `kill` is given a pid whose first carrier in the table, if there is one,
is not an unused slot. -/
def NamesNoUnusedSlot (table : Table) : Action → Prop
  | .kill pid =>
    ∀ slot, table.firstSlot (fun proc => proc.pid = pid) = some slot →
      (table.procs slot).state ≠ .UNUSED
  | _ => True

/-- `kill` hits exactly live processes throughout a schedule. -/
structure KillsExactly (schedule : List Action) : Prop where
  /-- `kill` returns `0` exactly for the pid of a slot in use. -/
  returns : ∀ before pid after table, schedule = before ++ .kill pid :: after →
    exec step Table.boot before = .next table →
    ((table.kill pid).2 = 0 ↔
      ∃ slot, (table.procs slot).state ≠ .UNUSED ∧ (table.procs slot).pid = pid)
  /-- `kill` changes the flag of no other slot. -/
  only : ∀ before pid after table, schedule = before ++ .kill pid :: after →
    exec step Table.boot before = .next table →
    ∀ slot, ((table.kill pid).1.procs slot).killed ≠ (table.procs slot).killed →
      (table.procs slot).state ≠ .UNUSED ∧ (table.procs slot).pid = pid
  /-- No unused slot is marked. -/
  unused : ∀ before after table, schedule = before ++ after →
    exec step Table.boot before = .next table →
    ∀ slot, (table.procs slot).state = .UNUSED → (table.procs slot).killed = false
  /-- A forked process stays unmarked until a `kill` names its pid. -/
  newborn : ∀ before p memory middle after table born child later,
    schedule = before ++ .fork p memory :: (middle ++ after) →
    exec step Table.boot before = .next table → table.active p →
    table.fork p memory = (born, some child) → exec step born middle = .next later →
    (∀ action ∈ middle, action ≠ .kill (born.procs child).pid) →
    (later.procs child).state ≠ .UNUSED →
    (later.procs child).pid = (born.procs child).pid → (later.procs child).killed = false

/-! ## What the calls do to the flags -/

variable {table next : Table} {test : Proc → Bool} {slot p : Slot} {memory : Memory}
  {pid : BitVec 32}

namespace Table

theorem firstSlot_some
    (found : table.firstSlot test = some slot) : test (table.procs slot) = true := by
  simpa using List.find?_some found

theorem firstSlot_none
    (missing : table.firstSlot test = none) (slot : Slot) : test (table.procs slot) = false := by
  have absent := List.find?_eq_none.mp missing slot (List.mem_finRange slot)
  simpa using absent

@[simp] theorem setProc_self (table : Table) (slot : Slot) (proc : Proc) :
    (table.setProc slot proc).procs slot = proc := by
  simp [setProc]

theorem setProc_of_ne (table : Table) {other : Slot} (proc : Proc) (different : other ≠ slot) :
    (table.setProc slot proc).procs other = table.procs other := by
  simp [setProc, update_of_ne different]

/-- No unused slot is marked as killed. -/
def Clean (table : Table) : Prop :=
  ∀ slot, (table.procs slot).state = .UNUSED → (table.procs slot).killed = false

theorem Clean.setProc (clean : table.Clean) {proc : Proc}
    (kept : proc.state = .UNUSED → proc.killed = false) : (table.setProc slot proc).Clean := by
  intro other unused
  by_cases same : other = slot
  · subst other
    rw [setProc_self] at unused ⊢
    exact kept unused
  · rw [setProc_of_ne table proc same] at unused ⊢
    exact clean other unused

theorem Clean.freeproc (clean : table.Clean) (slot : Slot) : (table.freeproc slot).Clean :=
  clean.setProc fun _ => rfl

/-- `allocproc` marks no slot.  A slot it returns is still unused, and it was
unused before the call. -/
theorem allocproc_spec (table : Table) (memory : Memory) :
    (∀ slot, ((table.allocproc memory).1.procs slot).killed = (table.procs slot).killed ∨
      ((table.allocproc memory).1.procs slot).killed = false) ∧
    (∀ slot, ((table.allocproc memory).1.procs slot).state = (table.procs slot).state) ∧
    ∀ slot, (table.allocproc memory).2 = some slot → (table.procs slot).state = .UNUSED := by
  unfold allocproc
  cases found : table.firstSlot fun proc => proc.state = .UNUSED with
  | none => exact ⟨fun _ => Or.inl rfl, fun _ => rfl, fun _ impossible => by cases impossible⟩
  | some free =>
    have unused : (table.procs free).state = .UNUSED := by
      simpa using firstSlot_some found
    cases memory <;> dsimp only <;> refine ⟨fun slot => ?_, fun slot => ?_, fun slot same => ?_⟩ <;>
      first
      | cases same <;> exact unused
      | by_cases same : slot = free
        · subst slot
          simp [Table.freeproc, Table.setProc, Proc.free, unused]
        · simp [Table.freeproc, Table.setProc, update_of_ne same]

section

variable (clean : table.Clean)
include clean

theorem Clean.allocproc (memory : Memory) : (table.allocproc memory).1.Clean := by
  intro slot unused
  rcases allocproc_spec table memory with ⟨flags, states, _⟩
  rcases flags slot with kept | cleared
  · rw [kept]
    exact clean slot ((states slot).symm.trans unused)
  · exact cleared

theorem Clean.fork (p : Slot) (memory : Memory) : (table.fork p memory).1.Clean := by
  have allocated := clean.allocproc memory
  unfold Table.fork
  split
  · rename_i next failed
    rw [failed] at allocated
    exact allocated
  · rename_i next np found
    rw [found] at allocated
    split
    · exact Clean.freeproc allocated np
    · exact Clean.setProc allocated fun impossible => by cases impossible

theorem fork_child {born : Table} {child : Slot}
    (forked : table.fork p memory = (born, some child)) : (born.procs child).killed = false := by
  have allocated := clean.allocproc memory
  rcases allocproc_spec table memory with ⟨_, states, returned⟩
  unfold Table.fork at forked
  split at forked
  · cases forked
  · rename_i next np found
    rw [found] at allocated states returned
    split at forked
    · cases forked
    · cases forked
      rw [setProc_self]
      exact allocated child ((states child).trans (returned child rfl))

theorem Clean.exit (p : Slot) (status : Int) : (table.exit p status).Clean := by
  have reparented : (table.reparent p).Clean := by
    intro slot
    simp only [Table.reparent]
    split <;> exact clean slot
  exact reparented.setProc fun impossible => by cases impossible

theorem Clean.wait {copyout : Bool} (waited : table.wait p copyout = some next) : next.Clean := by
  unfold Table.wait at waited
  split at waited
  · cases copyout <;> cases waited
    · exact clean
    · exact clean.freeproc _
  · split at waited <;> cases waited
    exact clean

end

theorem kill_of_some (found : table.firstSlot (fun proc => proc.pid = pid) = some slot) :
    (table.kill pid).2 = 0 ∧ ((table.kill pid).1.procs slot).killed = true ∧
      (((table.kill pid).1.procs slot).state = .UNUSED ↔ (table.procs slot).state = .UNUSED) ∧
      ((table.kill pid).1.procs slot).pid = (table.procs slot).pid ∧
      ∀ other, other ≠ slot → (table.kill pid).1.procs other = table.procs other := by
  unfold Table.kill
  rw [found]
  refine ⟨rfl, ?_, ?_, ?_, fun other different => setProc_of_ne table _ different⟩
  · rw [setProc_self]
  · rw [setProc_self]
    cases (table.procs slot).state <;> simp
  · rw [setProc_self]

theorem kill_of_none (missing : table.firstSlot (fun proc => proc.pid = pid) = none) :
    table.kill pid = (table, -1) := by
  unfold Table.kill
  rw [missing]

theorem Clean.kill (clean : table.Clean)
    (live : NamesNoUnusedSlot table (.kill pid)) : (table.kill pid).1.Clean := by
  cases found : table.firstSlot fun proc => proc.pid = pid with
  | none =>
    rw [kill_of_none found]
    exact clean
  | some slot =>
    rcases kill_of_some found with ⟨_, _, state, _, others⟩
    intro other unused
    by_cases same : other = slot
    · subst other
      exact absurd (state.mp unused) (live slot found)
    · rw [others other same] at unused ⊢
      exact clean other unused

end Table

open Table (firstSlot_some firstSlot_none setProc_self setProc_of_ne allocproc_spec fork_child
  kill_of_some kill_of_none)

/-! ## The invariant along a schedule -/

variable {action : Action}

theorem clean_step (clean : table.Clean)
    (live : NamesNoUnusedSlot table action) (stepped : step table action = .next next) :
    next.Clean := by
  cases action with
  | fork p memory =>
    simp only [step] at stepped
    split at stepped <;> cases stepped
    exact clean.fork p memory
  | exit p status =>
    rcases guard_eq_next.mp stepped with ⟨_, stepped⟩
    split at stepped <;> cases stepped
    exact clean.exit p status
  | wait p copyout =>
    rcases guard_eq_next.mp stepped with ⟨_, stepped⟩
    split at stepped
    · rename_i waited
      cases stepped
      exact clean.wait waited
    · cases stepped
  | kill pid =>
    cases stepped
    exact clean.kill live
  | reschedule p state =>
    rcases guard_eq_next.mp stepped with ⟨allowed, stepped⟩
    cases stepped
    exact clean.setProc fun unused => absurd unused allowed.2.1

theorem Table.fork_of_live (live : (table.procs slot).state ≠ .UNUSED) :
    (table.fork p memory).1.procs slot = table.procs slot := by
  unfold Table.fork Table.allocproc
  cases found : table.firstSlot fun proc => proc.state = .UNUSED with
  | none => rfl
  | some free =>
    have unused : (table.procs free).state = .UNUSED := by
      simpa using firstSlot_some found
    have different : slot ≠ free := fun same => live (same ▸ unused)
    cases memory <;>
      simp [Table.freeproc, Table.setProc, update_of_ne different]

/-- A mark found after a step was there before it, on the same pid, unless
the step was a `kill` of that pid. -/
theorem marked_before (clean : table.Clean) (stepped : step table action = .next next)
    (unnamed : action ≠ .kill (next.procs slot).pid) (marked : (next.procs slot).killed = true) :
    (table.procs slot).killed = true ∧ (table.procs slot).pid = (next.procs slot).pid := by
  cases action with
  | fork p memory =>
    simp only [step] at stepped
    split at stepped <;> cases stepped
    by_cases unused : (table.procs slot).state = .UNUSED
    · unfold Table.fork at marked
      rcases allocproc_spec table memory with ⟨killed, _, _⟩
      have allocated : ((table.allocproc memory).1.procs slot).killed = false := by
        rcases killed slot with kept | cleared
        · rw [kept]
          exact clean slot unused
        · exact cleared
      split at marked
      · rename_i failed
        rw [failed] at allocated
        exact absurd (allocated.symm.trans marked) (by decide)
      · rename_i np found
        rw [found] at allocated
        split at marked
        · by_cases same : slot = np
          · subst slot
            simp [Table.freeproc, Proc.free] at marked
          · rw [Table.freeproc, setProc_of_ne _ _ same] at marked
            exact absurd (allocated.symm.trans marked) (by decide)
        · by_cases same : slot = np
          · subst slot
            rw [setProc_self] at marked
            exact absurd (allocated.symm.trans marked) (by decide)
          · rw [setProc_of_ne _ _ same] at marked
            exact absurd (allocated.symm.trans marked) (by decide)
    · rw [Table.fork_of_live unused] at marked ⊢
      exact ⟨marked, rfl⟩
  | exit p status =>
    have kept : ((table.exit p status).procs slot).killed = (table.procs slot).killed ∧
        ((table.exit p status).procs slot).pid = (table.procs slot).pid := by
      unfold Table.exit
      by_cases same : slot = p
      · subst slot
        simp only [setProc_self, Table.reparent]
        split <;> exact ⟨rfl, rfl⟩
      · simp only [setProc_of_ne _ _ same, Table.reparent]
        split <;> exact ⟨rfl, rfl⟩
    rcases guard_eq_next.mp stepped with ⟨_, stepped⟩
    split at stepped <;> cases stepped
    exact ⟨kept.1.symm.trans marked, kept.2.symm⟩
  | wait p copyout =>
    rcases guard_eq_next.mp stepped with ⟨_, stepped⟩
    split at stepped
    · rename_i waited
      cases stepped
      unfold Table.wait at waited
      split at waited
      · rename_i np _
        cases copyout <;> cases waited
        · exact ⟨marked, rfl⟩
        · by_cases same : slot = np
          · subst slot
            simp [Table.freeproc, Proc.free] at marked
          · simp only [if_true, Table.freeproc, setProc_of_ne _ _ same] at marked ⊢
            exact ⟨marked, trivial⟩
      · split at waited <;> cases waited
        exact ⟨marked, rfl⟩
    · cases stepped
  | kill pid =>
    cases stepped
    cases found : table.firstSlot fun proc => proc.pid = pid with
    | none =>
      rw [kill_of_none found] at marked ⊢
      exact ⟨marked, rfl⟩
    | some first =>
      rcases kill_of_some found with ⟨_, _, _, samePid, others⟩
      by_cases same : slot = first
      · subst slot
        have carried : (table.procs first).pid = pid := by
          simpa using firstSlot_some found
        exact absurd (by rw [samePid, carried]) unnamed
      · rw [others slot same] at marked ⊢
        exact ⟨marked, rfl⟩
  | reschedule p state =>
    rcases guard_eq_next.mp stepped with ⟨_, stepped⟩
    cases stepped
    by_cases same : slot = p
    · subst slot
      rw [setProc_self] at marked ⊢
      exact ⟨marked, rfl⟩
    · rw [setProc_of_ne _ _ same] at marked ⊢
      exact ⟨marked, rfl⟩

variable {schedule : List Action}

theorem marked_at_start {later : Table}
    (clean : table.Clean) (meets : Meets step NamesNoUnusedSlot table schedule)
    (reached : exec step table schedule = .next later)
    (unnamed : ∀ action ∈ schedule, action ≠ .kill (later.procs slot).pid)
    (marked : (later.procs slot).killed = true) : (table.procs slot).killed = true := by
  have both : (table.procs slot).killed = true ∧
      (table.procs slot).pid = (later.procs slot).pid := by
    induction schedule generalizing table with
    | nil =>
      cases reached
      exact ⟨marked, rfl⟩
    | cons action rest inductionHypothesis =>
      rcases Outcome.andThen_eq_next.mp reached with ⟨next, stepped, continued⟩
      rcases inductionHypothesis (clean_step clean meets.1 stepped) (meets.2 next stepped)
        continued (fun other member => unnamed other (List.mem_cons_of_mem _ member))
        with ⟨nextMarked, nextPid⟩
      have before := marked_before clean stepped
        (by rw [nextPid]; exact unnamed action List.mem_cons_self) nextMarked
      exact ⟨before.1, before.2.trans nextPid⟩
  exact both.1

theorem Table.clean_boot : Table.boot.Clean := by
  intro slot _
  unfold Table.boot
  by_cases same : slot = 0
  · subst slot
    simp [Proc.free]
  · simp [update_of_ne same, Proc.free]

theorem clean_of_meets (meets : Meets step NamesNoUnusedSlot Table.boot schedule)
    (reached : exec step Table.boot schedule = .next table) : table.Clean :=
  exec_invariant Table.Clean (fun _ _ _ clean live stepped => clean_step clean live stepped)
    Table.clean_boot meets reached

/-- Throughout a schedule `kill` hits exactly live processes, marks no unused
slot and leaves newborn processes alone, if and only if every `kill` in it is
given a pid whose first carrier in the table is not an unused slot. -/
theorem killsExactly_iff (schedule : List Action) :
    KillsExactly schedule ↔ Meets step NamesNoUnusedSlot Table.boot schedule := by
  constructor
  · intro exactly
    apply meets_of_forall
    intro before action after table split reached
    cases action with
    | kill pid =>
      intro slot found unused
      rcases kill_of_some found with ⟨_, marked, state, _, _⟩
      have next : exec step Table.boot (before ++ [Action.kill pid]) =
          .next (table.kill pid).1 := exec_snoc (Action.kill pid) reached
      have clean := exactly.unused (before ++ [Action.kill pid]) after _ (by simp [split]) next
        slot (state.mpr unused)
      exact absurd (marked.symm.trans clean) (by decide)
    | _ => trivial
  · intro meets
    have live : ∀ before pid after table, schedule = before ++ .kill pid :: after →
        exec step Table.boot before = .next table → NamesNoUnusedSlot table (.kill pid) := by
      intro before pid after table split reached
      rw [split] at meets
      exact meets.at reached
    have clean : ∀ before after table, schedule = before ++ after →
        exec step Table.boot before = .next table → table.Clean := by
      intro before after table split reached
      rw [split] at meets
      exact clean_of_meets meets.append_left reached
    refine ⟨?_, ?_, ?_, ?_⟩
    · intro before pid after table split reached
      constructor
      · intro returned
        cases found : table.firstSlot fun proc => proc.pid = pid with
        | none =>
          rw [kill_of_none found] at returned
          exact absurd returned (by simp)
        | some slot =>
          refine ⟨slot, live before pid after table split reached slot found, ?_⟩
          simpa using firstSlot_some found
      · rintro ⟨slot, _, carried⟩
        cases found : table.firstSlot fun proc => proc.pid = pid with
        | none =>
          have absent := firstSlot_none found slot
          simp [carried] at absent
        | some first => exact (kill_of_some found).1
    · intro before pid after table split reached slot changed
      cases found : table.firstSlot fun proc => proc.pid = pid with
      | none =>
        rw [kill_of_none found] at changed
        exact absurd rfl changed
      | some first =>
        rcases kill_of_some found with ⟨_, _, _, _, others⟩
        by_cases same : slot = first
        · subst slot
          refine ⟨live before pid after table split reached first found, ?_⟩
          simpa using firstSlot_some found
        · rw [others slot same] at changed
          exact absurd rfl changed
    · intro before after table split reached
      exact clean before after table split reached
    · intro before p memory middle after table born child later split reached active forked
        continued unnamed _ samePid
      have stepped : step table (.fork p memory) = .next born := by
        simp only [step, active, if_true, forked]
      have tableClean := clean before _ table split reached
      have bornReached : exec step Table.boot (before ++ [Action.fork p memory]) = .next born :=
        (exec_snoc (Action.fork p memory) reached).trans stepped
      have split' : schedule = (before ++ [Action.fork p memory]) ++ (middle ++ after) := by
        simp [split]
      have bornClean := clean _ _ born split' bornReached
      have meetsLater : Meets step NamesNoUnusedSlot born middle := by
        apply meets_of_forall
        intro first action rest state inner innerReached
        have whole : schedule =
            (before ++ [Action.fork p memory] ++ first) ++ action :: (rest ++ after) := by
          rw [split', inner]
          simp
        rw [whole] at meets
        refine meets.at ?_
        rw [exec_append, bornReached]
        exact innerReached
      cases marked : (later.procs child).killed with
      | false => rfl
      | true =>
        have atBirth := marked_at_start bornClean meetsLater continued
          (by rw [samePid]; exact unnamed) marked
        rw [fork_child tableClean forked] at atBirth
        exact absurd atBirth (by decide)

/-- At boot slot `1` is unused and carries the pid `0`.  `kill(0)` reports
success although no process has that pid, and the child that init forks next
is born killed. -/
theorem kill_zero_marks_unused :
    (Table.boot.kill 0).2 = 0 ∧
      (∀ slot, (Table.boot.procs slot).pid = 0 → (Table.boot.procs slot).state = .UNUSED) ∧
      ∃ table, exec step Table.boot [.kill 0, .fork 0 .enough] = .next table ∧
        (table.procs 1).state = .RUNNABLE ∧ (table.procs 1).pid = 2 ∧
        (table.procs 1).killed = true := by
  refine ⟨rfl, ?_, _, rfl, rfl, rfl, rfl⟩
  intro slot
  by_cases same : slot = 0
  · subst slot
    intro impossible
    exact absurd impossible (by decide)
  · intro _
    simp [Table.boot, update_of_ne same, Proc.free]

end Process
end Xv6
