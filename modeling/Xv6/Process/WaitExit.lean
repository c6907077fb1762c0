import Xv6.Process.Exclusive

namespace Xv6
namespace Process
namespace Sched

open Foundation Function

/-!
# The protocol of `wait` and `exit`

Children are found through `parent` fields that are read without the child's
lock.  That is sound because only the parent changes them: `fork` writes the
field of a slot that is not in use, `reparent` gives a process's own children
to init, and `wait` frees a process's own child.  An exiting process may lock
a stale parent, but only if it has been given to init in the meantime, and
init is the one process that may miss a wakeup.
-/

variable {Cpu : Type}

/-! ## What a position knows -/

/-- The child that a process has seen to be its own. -/
@[simp] def childAt : Pc → Option Slot
  | .waitChild np _ | .waitLook np _ => some np
  | .reparentChild _ _ pp _ | .reparentGive _ _ pp _ => some pp
  | _ => none

/-- The slots in which an exiting process may still have children. -/
@[simp] def unvisited : Pc → Option (List Slot)
  | .reparentScan _ _ todo => some todo
  | .reparentChild _ _ pp todo | .reparentGive _ _ pp todo => some (pp :: todo)
  | .exitZombie _ _ => some []
  | _ => none

/-- The slots in which a waiting process may still have exited children. -/
@[simp] def unchecked : Pc → Option (List Slot)
  | .waitScan todo _ => some todo
  | .waitChild np todo | .waitLook np todo => some (np :: todo)
  | _ => none

/-- The local variable `original_parent` of `exit`. -/
@[simp] def remembered : Pc → Option Slot
  | .exitParent _ op | .exitSelf _ op | .reparentScan _ op _ | .reparentChild _ op _ _
  | .reparentGive _ op _ _ | .exitZombie _ op => some op
  | _ => none

/-- The positions of `exit` before the process is dead. -/
@[simp] def exiting : Pc → Bool
  | .exitInit _ | .exitWakeInit _ | .exitEnter _ | .exitRead _ | .exitParent _ _ | .exitSelf _ _
  | .reparentScan _ _ _ | .reparentChild _ _ _ _ | .reparentGive _ _ _ _ | .exitZombie _ _ => true
  | _ => false

/-- What a process at this position relies on. -/
structure Fits (procs : Slot → Proc) (initproc thread : Slot) (pc : Pc) : Prop where
  child : ∀ slot, childAt pc = some slot → (procs slot).parent = some thread
  given : ∀ todo, unvisited pc = some todo → ∀ slot, (procs slot).parent = some thread → slot ∈ todo
  ordinary : exiting pc = true → thread ≠ initproc
  parent : ∀ op, remembered pc = some op →
    (procs thread).parent = some op ∨ (procs thread).parent = some initproc
  zombies : ∀ todo, unchecked pc = some todo → thread ≠ initproc → ∀ slot,
    (procs slot).parent = some thread → (procs slot).state = .ZOMBIE → slot ∈ todo

variable {lock slot np op thread : Slot}

namespace Fits

variable {procs after : Slot → Proc} {initproc : Slot} {here pc : Pc}

theorem trivial (nothing : (childAt pc, unvisited pc, exiting pc, remembered pc, unchecked pc) =
    (none, none, false, none, none)) : Fits procs initproc thread pc := by
  simp only [Prod.mk.injEq] at nothing
  constructor <;> grind

theorem congr (fits : Fits procs initproc thread pc)
    (parents : ∀ slot, (after slot).parent = (procs slot).parent)
    (zombies : ∀ slot, (after slot).state = .ZOMBIE → (procs slot).state = .ZOMBIE) :
    Fits after initproc thread pc := by
  rcases fits with ⟨child, given, ordinary, parent, isZombie⟩
  constructor <;> grind

/-- Another process changes one slot, and does not make it a child of this
one unless this one is init. -/
theorem update {changed : Slot} (fits : Fits procs initproc thread pc)
    (others : ∀ slot, slot ≠ changed → after slot = procs slot)
    (notChild : childAt pc ≠ some changed)
    (notMine : (after changed).parent = some thread → thread = initproc)
    (own : thread = changed → (after thread).parent = (procs thread).parent ∨
      (after thread).parent = some initproc) : Fits after initproc thread pc := by
  have leaving : ∀ todo, unvisited pc = some todo → exiting pc = true := by
    intro todo known
    cases pc <;> first | rfl | cases known
  rcases fits with ⟨child, given, ordinary, parent, zombies⟩
  constructor <;> grind

variable (fits : Fits procs initproc thread here)
include fits

theorem wanted (wants : Sched.wanted initproc thread here = some (lock, pc)) :
    Fits procs initproc thread pc := by
  have all : ∀ slot : Slot, slot ∈ slots := List.mem_finRange
  cases here with
  | killScan pid todo | forkScan todo =>
    cases todo with
    | nil => cases wants
    | cons slot todo =>
      cases wants
      exact trivial rfl
  | sleepLock address =>
    cases wants
    exact trivial rfl
  | waitEnter =>
    cases wants
    refine ⟨by simp, by simp, by simp, by simp, ?_⟩
    intro todo known _ slot _ _
    cases known
    exact all slot
  | waitChild np todo =>
    cases wants
    exact ⟨fits.child, by simp, by simp, by simp, fits.zombies⟩
  | exitInit status | exitEnter status =>
    cases wants
    exact ⟨by simp, by simp, fun _ => fits.ordinary rfl, by simp, by simp⟩
  | exitParent status op =>
    cases wants
    exact ⟨by simp, by simp, fits.ordinary, fits.parent, by simp⟩
  | exitSelf status op =>
    cases wants
    refine ⟨by simp, ?_, fits.ordinary, fits.parent, by simp⟩
    intro todo known slot _
    cases known
    exact all slot
  | reparentChild status op pp todo =>
    cases wants
    exact ⟨fits.child, fits.given, fits.ordinary, fits.parent, by simp⟩
  | _ => cases wants

theorem looks (looks : Looks procs thread here pc) : Fits procs initproc thread pc := by
  cases looks with
  | killEnd pid | forkEnd => exact trivial rfl
  | child np todo havekids mine =>
    refine ⟨?_, by simp, by simp, by simp, fits.zombies⟩
    intro slot known
    cases known
    exact mine
  | stranger np todo havekids notMine =>
    refine ⟨by simp, by simp, by simp, by simp, ?_⟩
    intro rest known other slot mine zombie
    cases known
    rcases List.mem_cons.mp (fits.zombies _ rfl other slot mine zombie) with rfl | later
    · exact absurd mine notMine
    · exact later
  | allGiven status op => exact ⟨by simp, fits.given, fits.ordinary, fits.parent, by simp⟩
  | orphan status op pp todo mine =>
    refine ⟨?_, fits.given, fits.ordinary, fits.parent, by simp⟩
    intro slot known
    cases known
    exact mine
  | notOrphan status op pp todo notMine =>
    refine ⟨by simp, ?_, fits.ordinary, fits.parent, by simp⟩
    intro rest known slot mine
    cases known
    rcases List.mem_cons.mp (fits.given _ rfl slot mine) with rfl | later
    · exact absurd mine notMine
    · exact later

theorem unlocks (unlocks : Unlocks procs thread here lock pc) : Fits procs initproc thread pc := by
  cases unlocks with
  | forkret | notVictim pid slot todo | taken slot todo | noTrapframe np | childless havekids =>
    exact trivial rfl
  | living np todo alive =>
    refine ⟨by simp, by simp, by simp, by simp, ?_⟩
    intro rest known other slot mine zombie
    cases known
    rcases List.mem_cons.mp (fits.zombies _ rfl other slot mine zombie) with rfl | later
    · exact absurd zombie alive
    · exact later
  | parent status op above =>
    refine ⟨by simp, by simp, fun _ => fits.ordinary rfl, ?_, by simp⟩
    intro known same
    cases same
    exact Or.inl above

end Fits

/-! ## The invariant -/

/-- Parents are alive, what every process relies on is so, and nobody but init
sleeps in `wait` while it has an exited child. -/
structure Lineage (machine : Machine Cpu) : Prop where
  initLive : (machine.procs machine.initproc).state ≠ .UNUSED ∧
    (machine.procs machine.initproc).state ≠ .ZOMBIE
  unused : ∀ slot, (machine.procs slot).state = .UNUSED →
    (machine.procs slot).parent = none ∧ machine.pc slot = .dead
  zombie : ∀ slot, (machine.procs slot).state = .ZOMBIE →
    machine.pc slot = .exitSched ∨ machine.pc slot = .dead
  child : ∀ slot, slot ≠ machine.initproc → (machine.procs slot).state ≠ .UNUSED →
    (machine.procs slot).parent ≠ none
  parent : ∀ slot above, (machine.procs slot).parent = some above →
    (machine.procs above).state ≠ .UNUSED ∧ (machine.procs above).state ≠ .ZOMBIE
  fits : ∀ thread, Fits machine.procs machine.initproc thread (machine.pc thread)
  asleep : ∀ slot, slot ≠ machine.initproc → (machine.procs slot).state = .SLEEPING →
    (machine.procs slot).chan = some (.proc slot) →
    ∀ below, (machine.procs below).parent = some slot → (machine.procs below).state ≠ .ZOMBIE

/-- A change of a slot that neither its parent, nor its children, nor a wait
for it can notice. -/
structure Kept (before after : Proc) : Prop where
  parent : after.parent = before.parent
  unused : after.state = .UNUSED ↔ before.state = .UNUSED
  zombie : after.state = .ZOMBIE ↔ before.state = .ZOMBIE
  pid : before.state ≠ .UNUSED → after.pid = before.pid
  xstate : before.state ≠ .UNUSED → after.xstate = before.xstate

theorem Kept.refl (proc : Proc) : Kept proc proc :=
  ⟨rfl, Iff.rfl, Iff.rfl, fun _ => rfl, fun _ => rfl⟩

theorem kept_of_rouses {before after : Proc} (rouses : Rouses before after)
    (parent : after.parent = before.parent) (pid : after.pid = before.pid)
    (xstate : after.xstate = before.xstate) : Kept before after := by
  rcases rouses with same | ⟨sleeping, runnable⟩
  · exact ⟨parent, by rw [same], by rw [same], fun _ => pid, fun _ => xstate⟩
  · exact ⟨parent, by simp [sleeping, runnable], by simp [sleeping, runnable], fun _ => pid,
      fun _ => xstate⟩

theorem kept_wakeup (proc : Proc) (chan : Chan) : Kept proc (proc.wakeup chan) := by
  have same : (proc.wakeup chan).parent = proc.parent ∧ (proc.wakeup chan).pid = proc.pid ∧
      (proc.wakeup chan).xstate = proc.xstate := by
    unfold Proc.wakeup
    split <;> exact ⟨rfl, rfl, rfl⟩
  exact kept_of_rouses (rouses_wakeup proc chan) same.1 same.2.1 same.2.2

variable {proc : Proc} {chan : Chan}

theorem of_update {α : Type} {value : α} {before after : Slot → α}
    (changed : after = update before slot value) :
    after slot = value ∧ ∀ other, other ≠ slot → after other = before other := by
  rw [changed]
  exact ⟨update_self .., fun _ different => update_of_ne different ..⟩

theorem kept_doze (running : proc.state = .RUNNING) :
    Kept proc { proc with chan := some chan, state := .SLEEPING } :=
  ⟨rfl, by simp [running], by simp [running], fun _ => rfl, fun _ => rfl⟩

variable {procs : Slot → Proc}

theorem kept_update {after : Proc} (kept : Kept (procs slot) after) (other : Slot) :
    Kept (procs other) (update procs slot after other) := by
  rw [update_apply]
  split
  · rename_i same
    rw [same]
    exact kept
  · exact Kept.refl _

theorem kept_of_update {after : Slot → Proc}
    (changed : after = update (update procs op ((procs op).wakeup chan)) thread proc) (other : Slot)
    (different : other ≠ thread) : Kept (procs other) (after other) := by
  rw [changed, update_of_ne different]
  exact kept_update (kept_wakeup _ _) other

/-- The process sleeps in `wait`. -/
def Dozes (proc : Proc) (slot : Slot) : Prop :=
  proc.state = .SLEEPING ∧ proc.chan = some (.proc slot)

theorem dozes_update {after : Proc}
    (dozes : Dozes after slot → Dozes (procs slot) slot) (other : Slot)
    (dozing : Dozes (update procs slot after other) other) : Dozes (procs other) other := by
  rw [update_apply] at dozing
  grind

theorem dozes_wakeup (dozes : Dozes (proc.wakeup chan) slot) : Dozes proc slot := by
  unfold Proc.wakeup at dozes
  split at dozes
  · cases dozes.1
  · exact dozes

theorem dozes_kill (dozes : Dozes proc.kill slot) : Dozes proc slot := by
  rcases rouses_kill proc with same | ⟨_, runnable⟩
  · exact ⟨same ▸ dozes.1, dozes.2⟩
  · have impossible := dozes.1
    rw [runnable] at impossible
    cases impossible

/-- A step of one process that changes no parent, begins or ends no process,
and leaves the histories alone. -/
structure Quiet (machine next : Machine Cpu) (thread : Slot) (pc : Pc) : Prop where
  kept : ∀ slot, Kept (machine.procs slot) (next.procs slot)
  initproc : next.initproc = machine.initproc
  pcs : next.pc = update machine.pc thread pc
  serial : next.serial = machine.serial
  births : next.births = machine.births
  deaths : next.deaths = machine.deaths
  reapings : next.reapings = machine.reapings
  unused : (machine.procs thread).state = .UNUSED → pc = .dead
  zombie : (machine.procs thread).state = .ZOMBIE → pc = .exitSched ∨ pc = .dead
  fits : Fits machine.procs machine.initproc thread pc
  /-- Nobody else falls asleep in `wait`, and the process itself does so only
  if it has seen that no child has exited. -/
  dozing : ∀ slot, slot ≠ machine.initproc → Dozes (next.procs slot) slot →
    Dozes (machine.procs slot) slot ∨ ∀ below, (machine.procs below).parent = some slot →
      (machine.procs below).state ≠ .ZOMBIE

/-- What a step can do to the relations between processes. -/
inductive Effect (machine next : Machine Cpu) : Prop where
  | quiet (thread : Slot) (pc : Pc) (quiet : Quiet machine next thread pc)
  | born (thread np : Slot) (running : (machine.procs thread).state = .RUNNING)
      (unused : (machine.procs np).state = .UNUSED)
      (after : next = ((machine.born thread np).release np).goto thread .user)
  | reap (thread np : Slot) (todo : List Slot) (running : (machine.procs thread).state = .RUNNING)
      (here : machine.pc thread = .waitLook np todo)
      (zombie : (machine.procs np).state = .ZOMBIE) (dead : machine.pc np = .dead)
      (idle : ∀ cpu, machine.proc cpu ≠ some np)
      (after : next = (((machine.reap thread np).release np).release thread).goto thread .user)
  | give (thread : Slot) (status : Int) (op pp : Slot) (todo : List Slot)
      (running : (machine.procs thread).state = .RUNNING)
      (here : machine.pc thread = .reparentGive status op pp todo)
      (after : next = ((machine.setProc pp
        { machine.procs pp with parent := some machine.initproc }).release pp).goto thread
          (.reparentScan status op todo))
  | die (thread : Slot) (status : Int) (op : Slot)
      (running : (machine.procs thread).state = .RUNNING)
      (here : machine.pc thread = .exitZombie status op) (different : op ≠ thread)
      (unscanned : ∀ todo, unchecked (machine.pc op) ≠ some todo)
      (after : next = (((machine.setProc op ((machine.procs op).wakeup (.proc op))).die thread
        status).release op).goto thread .exitSched)

variable {todo : List Slot} {pc : Pc} {status : Int}

namespace Lineage

variable {machine next : Machine Cpu} {cpu : Cpu} {rest : List Slot}

/-! ## Which effect a step has -/

theorem background (lineage : Lineage machine) (background : Background machine next) :
    Quiet machine next machine.initproc (machine.pc machine.initproc) where
  kept := by
    intro slot
    rcases background.procs slot with same | ⟨state, before, after, changed⟩
    · rw [same]
      exact Kept.refl _
    · rw [changed]
      simp only [List.mem_cons, List.not_mem_nil, or_false] at before after
      refine ⟨rfl, ?_, ?_, fun _ => rfl, fun _ => rfl⟩ <;>
        rcases before with before | before | before <;> rcases after with after | after <;>
          simp [before, after]
  initproc := background.initproc
  pcs := by rw [background.pc, update_eq_self]
  serial := background.serial
  births := background.births
  deaths := background.deaths
  reapings := background.reapings
  unused := fun isUnused => absurd isUnused lineage.initLive.1
  zombie := fun isZombie => absurd isZombie lineage.initLive.2
  fits := lineage.fits machine.initproc
  dozing := by
    intro slot _ dozes
    rcases background.procs slot with same | ⟨state, _, after, changed⟩
    · rw [same] at dozes
      exact Or.inl dozes
    · rw [changed] at dozes
      have sleeping : state = .SLEEPING := dozes.1
      rw [sleeping] at after
      simp at after

theorem plainly (pc : Pc) (running : (machine.procs thread).state = .RUNNING)
    (kept : ∀ slot, Kept (machine.procs slot) (next.procs slot))
    (dozing : ∀ slot, Dozes (next.procs slot) slot → Dozes (machine.procs slot) slot)
    (fits : Fits machine.procs machine.initproc thread pc)
    (initproc : next.initproc = machine.initproc := by rfl)
    (pcs : next.pc = update machine.pc thread pc := by rfl)
    (serial : next.serial = machine.serial := by rfl)
    (births : next.births = machine.births := by rfl)
    (deaths : next.deaths = machine.deaths := by rfl)
    (reapings : next.reapings = machine.reapings := by rfl) : Effect machine next :=
  .quiet thread pc ⟨kept, initproc, pcs, serial, births, deaths, reapings, by simp [running],
    by simp [running], fits, fun slot _ dozes => Or.inl (dozing slot dozes)⟩

theorem scanning (lineage : Lineage machine) (placed : Placed machine)
    (scans : unchecked (machine.pc slot) = some todo) :
    ∃ cpu rest, machine.position cpu = .run slot rest ∧ slot ∈ held machine cpu := by
  have own : slot ∈ heldAt machine.initproc slot (machine.pc slot) := by
    cases here : machine.pc slot <;> simp_all [heldAt]
  have plain : machine.trap slot = .none := by
    by_contra isTrapped
    simp [placed.trapped slot isTrapped] at own
  have running : (machine.procs slot).state = .RUNNING := by
    by_contra stopped
    have notRun : ∀ cpu rest, machine.position cpu ≠ .run slot rest := fun cpu rest runs =>
      stopped (placed.is_running runs (by intro leaving; simp [leaving] at scans))
    have resumes := placed.parked slot notRun
    cases state : (machine.procs slot).state with
    | UNUSED => simp [(lineage.unused slot state).2] at scans
    | ZOMBIE => rcases lineage.zombie slot state with here | here <;> simp [here] at scans
    | RUNNING => exact stopped state
    | SLEEPING | RUNNABLE =>
      rcases resumes (by simp [state]) with trap | ⟨_, here | here | here⟩
      · simp [plain] at trap
      all_goals simp [here] at scans
  rcases placed.placed slot running with ⟨cpu, rest, runs⟩
  exact ⟨cpu, rest, runs, placed.mem_held runs own⟩

theorem entered (placed : Placed machine)
    (runs : machine.position cpu = .run thread rest) (here : machine.pc thread = .user)
    {exits : List Exit} (entry : Entry machine thread pc exits) :
    Effect machine ({ machine with exits := exits }.goto thread pc) := by
  have running := placed.is_running runs (by simp [here])
  refine plainly pc running (fun _ => Kept.refl _) (fun _ => id) ?_
  cases entry with
  | exit status other => exact ⟨by simp, by simp, fun _ => other, by simp, by simp⟩
  | sleep address | kill pid | fork | wait => exact Fits.trivial rfl

variable (lineage : Lineage machine)
include lineage

theorem effect [DecidableEq Cpu] (placed : Placed machine)
    (runs : machine.position cpu = .run thread rest) (calm : machine.waker cpu = .off)
    (plain : machine.trap thread = .none) (stepped : Advanced machine cpu thread rest next) :
    Effect machine next := by
  have fits := lineage.fits thread
  have same : ∀ slot, Kept (machine.procs slot) (machine.procs slot) := fun _ => Kept.refl _
  have running := placed.is_running runs
  have hold := Placed.held_here calm runs plain
  cases stepped with
  | lock lock pc wants free =>
    refine plainly pc (running ?_) same (fun _ => id) (fits.wanted wants)
    rintro leaving
    rw [leaving] at wants
    cases wants
  | look pc looks =>
    refine plainly pc (running ?_) same (fun _ => id) (fits.looks looks)
    rintro leaving
    rw [leaving] at looks
    cases looks
  | unlock lock pc unlocks =>
    refine plainly pc (running ?_) same (fun _ => id) (fits.unlocks unlocks)
    rintro leaving
    rw [leaving] at unlocks
    cases unlocks
  | park parked parks stopped =>
    cases parks with
    | sleep address here =>
      have awake := running (by simp [here])
      refine plainly .sleepBack awake (kept_update (kept_doze awake)) (dozes_update ?_)
        (Fits.trivial rfl)
      rintro ⟨_, impossible⟩
      cases impossible
    | wait here =>
      have awake := running (by simp [here])
      refine .quiet thread .waitBack ⟨kept_update (kept_doze awake), rfl, rfl, rfl, rfl, rfl, rfl,
        by simp [awake], by simp [awake], Fits.trivial rfl, ?_⟩
      intro slot ordinary dozes
      by_cases isThread : slot = thread
      · subst slot
        rw [here] at fits
        refine Or.inr fun below mine isZombie => ?_
        cases fits.zombies [] rfl ordinary below mine isZombie
      · refine Or.inl ?_
        simpa [isThread] using dozes
    | exit here =>
      have notUnused := (placed.not_idle runs).1
      exact .quiet thread .dead ⟨same, rfl, rfl, rfl, rfl, rfl, rfl,
        fun isUnused => absurd isUnused notUnused, fun _ => Or.inr rfl,
        Fits.trivial rfl, fun _ _ dozes => Or.inl dozes⟩
  | sleepBack here =>
    refine plainly .user (running (by simp [here])) (kept_update ?_) (dozes_update ?_)
      (Fits.trivial rfl)
    · exact ⟨rfl, Iff.rfl, Iff.rfl, fun _ => rfl, fun _ => rfl⟩
    · rintro ⟨_, impossible⟩
      cases impossible
  | waitBack here =>
    refine plainly (.waitScan slots false) (running (by simp [here])) (kept_update ?_)
      (dozes_update ?_) ?_
    · exact ⟨rfl, Iff.rfl, Iff.rfl, fun _ => rfl, fun _ => rfl⟩
    · rintro ⟨_, impossible⟩
      cases impossible
    · refine ⟨by simp, by simp, by simp, by simp, ?_⟩
      intro todo known _ slot _ _
      cases known
      exact List.mem_finRange slot
  | kill pid slot todo here =>
    exact plainly .user (running (by simp [here]))
      (kept_update (kept_of_rouses (rouses_kill _) rfl rfl rfl)) (dozes_update dozes_kill)
      (Fits.trivial rfl)
  | allocpid slot todo here unused =>
    refine plainly (.forkFill slot) (running (by simp [here])) (kept_update ?_) (dozes_update id)
      (Fits.trivial rfl)
    exact ⟨rfl, Iff.rfl, Iff.rfl, fun used => absurd unused used, fun _ => rfl⟩
  | undo np here =>
    have unused := placed.filling cpu thread rest np runs here
    refine plainly .user (running (by simp [here])) (kept_update ?_) (dozes_update ?_)
      (Fits.trivial rfl)
    · refine ⟨?_, ?_, ?_, fun used => absurd unused used, fun used => absurd unused used⟩
      · rw [(lineage.unused np unused).1]
        rfl
      · simp [unused, Proc.free, Process.Proc.free]
      · simp [unused, Proc.free, Process.Proc.free]
    · rintro ⟨impossible, _⟩
      cases impossible
  | born np here =>
    exact .born thread np (running (by simp [here])) (placed.filling cpu thread rest np runs here)
      rfl
  | reap np todo here zombie =>
    have locked : np ∈ held machine cpu := by
      rw [hold, here]
      exact List.mem_cons_self
    have notRun := placed.not_run runs locked (by simp [here]) (Or.inr zombie)
    refine .reap thread np todo (running (by simp [here])) here zombie ?_ ?_ rfl
    · rcases lineage.zombie np zombie with leaving | dead
      · rcases placed.leaving np leaving with ⟨other, others, isRun⟩
        exact absurd isRun (notRun other others)
      · exact dead
    · refine placed.nowhere cpu notRun locked ?_
      rw [runs]
      intro current
      cases current
      exact notRun cpu rest runs
  | giveUp np todo here =>
    exact plainly .user (running (by simp [here])) same (fun _ => id) (Fits.trivial rfl)
  | wakeInit status here =>
    refine plainly (.exitEnter status) (running (by simp [here])) (kept_update (kept_wakeup _ _))
      (dozes_update dozes_wakeup) ?_
    rw [here] at fits
    exact ⟨by simp, by simp, fun _ => fits.ordinary rfl, by simp, by simp⟩
  | give status op pp todo here =>
    exact .give thread status op pp todo (running (by simp [here])) here rfl
  | die status op here =>
    have both : held machine cpu = [thread, op] := by
      rw [hold, here]
      rfl
    refine .die thread status op (running (by simp [here])) here ?_ ?_ rfl
    · rintro rfl
      have distinct := placed.locks.nodup cpu
      rw [both] at distinct
      simp at distinct
    · intro todo scans
      rcases lineage.scanning placed scans with ⟨other, others, isRun, locked⟩
      have sameCpu := placed.locks.unique locked (by rw [both]; simp : op ∈ held machine cpu)
      subst sameCpu
      rw [runs] at isRun
      cases isRun
      rw [here] at scans
      cases scans

/-! ## The steps that change no parent -/

theorem quiet (quiet : Quiet machine next thread pc) : Lineage next := by
  have parents := fun slot => (quiet.kept slot).parent
  have unused := fun slot => (quiet.kept slot).unused
  have zombies := fun slot => (quiet.kept slot).zombie
  constructor
  · rw [quiet.initproc, ne_eq, ne_eq, unused, zombies]
    exact lineage.initLive
  · simp only [unused, parents, quiet.pcs, update_apply]
    grind [lineage.unused, quiet.unused]
  · simp only [zombies, quiet.pcs, update_apply]
    grind [lineage.zombie, quiet.zombie]
  · simpa only [quiet.initproc, ne_eq, unused, parents] using lineage.child
  · simpa only [parents, ne_eq, unused, zombies] using lineage.parent
  · intro other
    rw [quiet.pcs, quiet.initproc]
    refine Fits.congr ?_ parents fun slot => (zombies slot).mp
    by_cases same : other = thread
    · rw [same, update_self]
      exact quiet.fits
    · rw [update_of_ne same]
      exact lineage.fits other
  · intro slot ordinary sleeping chan below isParent isZombie
    rw [quiet.initproc] at ordinary
    rw [parents below] at isParent
    rw [zombies] at isZombie
    rcases quiet.dozing slot ordinary ⟨sleeping, chan⟩ with before | nobody
    · exact lineage.asleep slot ordinary before.1 before.2 below isParent isZombie
    · exact nobody below isParent isZombie

/-! ## The steps that end or begin a process, or change a parent -/

section

variable (running : (machine.procs thread).state = .RUNNING)
  (init : next.initproc = machine.initproc)
include running init

theorem born (unused : (machine.procs np).state = .UNUSED)
    (procs : next.procs = update machine.procs np proc) (runnable : proc.state = .RUNNABLE)
    (parent : proc.parent = some thread)
    (pcs : next.pc = update (update machine.pc np .forkret) thread .user) : Lineage next := by
  rcases lineage.unused np unused with ⟨parentless, _⟩
  have notThread : np ≠ thread := by
    rintro rfl
    simp [running] at unused
  have notInit : np ≠ machine.initproc := by
    rintro rfl
    exact lineage.initLive.1 unused
  rcases of_update procs with ⟨child, others⟩
  rcases lineage with ⟨initLive, isUnused, isZombie, isChild, isParent, fits, asleep⟩
  constructor
  · grind
  · simp only [pcs, update_apply]
    grind
  · simp only [pcs, update_apply]
    grind
  · grind
  · grind
  · intro other
    rw [init, pcs, update_apply, update_apply]
    split
    · exact Fits.trivial rfl
    · split
      · exact Fits.trivial rfl
      · refine (fits other).update others ?_ ?_ (fun same => absurd same ‹_›)
        · intro known
          have isParent := (fits other).child np known
          simp [parentless] at isParent
        · intro mine
          rw [child, parent] at mine
          exact absurd (Option.some.inj mine).symm ‹_›
  · grind

theorem reap (here : machine.pc thread = .waitLook np todo)
    (zombie : (machine.procs np).state = .ZOMBIE) (dead : machine.pc np = .dead)
    (procs : next.procs = update machine.procs np proc) (unused : proc.state = .UNUSED)
    (parent : proc.parent = none) (pcs : next.pc = update machine.pc thread .user) :
    Lineage next := by
  have mine : (machine.procs np).parent = some thread :=
    (lineage.fits thread).child np (by rw [here]; rfl)
  have notThread : np ≠ thread := by
    rintro rfl
    simp [running] at zombie
  have notInit : np ≠ machine.initproc := by
    rintro rfl
    exact lineage.initLive.2 zombie
  rcases of_update procs with ⟨freed, others⟩
  rcases lineage with ⟨initLive, isUnused, isZombie, isChild, isParent, fits, asleep⟩
  constructor
  · grind
  · simp only [pcs, update_apply]
    grind
  · simp only [pcs, update_apply]
    grind
  · grind
  · grind
  · intro other
    rw [init, pcs, update_apply]
    split
    · exact Fits.trivial rfl
    · by_cases isNp : other = np
      · rw [isNp, dead]
        exact Fits.trivial rfl
      · refine (fits other).update others ?_ ?_ (fun same => absurd same isNp)
        · intro known
          have isParent := (fits other).child np known
          rw [mine] at isParent
          exact absurd (Option.some.inj isParent).symm ‹_›
        · simp [freed, parent]
  · grind

theorem give {pp : Slot} (here : machine.pc thread = .reparentGive status op pp todo)
    (procs : next.procs = update machine.procs pp
      { machine.procs pp with parent := some machine.initproc })
    (pcs : next.pc = update machine.pc thread (.reparentScan status op todo)) : Lineage next := by
  have own := lineage.fits thread
  rw [here] at own
  have mine : (machine.procs pp).parent = some thread := own.child pp rfl
  have notInit : thread ≠ machine.initproc := own.ordinary rfl
  rcases of_update procs with ⟨given, others⟩
  rcases lineage with ⟨initLive, isUnused, isZombie, isChild, isParent, fits, asleep⟩
  constructor
  · grind
  · simp only [pcs, update_apply]
    grind
  · simp only [pcs, update_apply]
    grind
  · grind
  · grind
  · intro other
    rw [init, pcs, update_apply]
    split
    · subst other
      refine ⟨by simp, ?_, fun _ => notInit, ?_, by simp⟩
      · rintro rest ⟨⟩ slot isParent
        have listed := own.given _ rfl slot
        grind
      · rintro known ⟨⟩
        have remembers := own.parent op rfl
        grind
    · refine (fits other).update others ?_ ?_ ?_
      · intro known
        have isParent := (fits other).child pp known
        rw [mine] at isParent
        exact absurd (Option.some.inj isParent).symm ‹_›
      · intro isParent
        rw [given] at isParent
        exact (Option.some.inj isParent).symm
      · rintro rfl
        exact Or.inr (by rw [given])
  · grind

/-- A process becomes a zombie.  Its parent, unless it is init, is the one that
is locked and woken up, so it is neither scanning nor asleep in `wait`. -/
theorem die (here : machine.pc thread = .exitZombie status op)
    (unscanned : ∀ todo, unchecked (machine.pc op) ≠ some todo)
    (procs : next.procs = update (update machine.procs op ((machine.procs op).wakeup (.proc op)))
      thread proc) (dead : proc.state = .ZOMBIE) (same : proc.parent = (machine.procs thread).parent)
    (pcs : next.pc = update machine.pc thread .exitSched) : Lineage next := by
  have own := lineage.fits thread
  rw [here] at own
  have notInit : thread ≠ machine.initproc := own.ordinary rfl
  have childless : ∀ slot, (machine.procs slot).parent ≠ some thread := by
    intro slot mine
    cases own.given [] rfl slot mine
  have above : ∀ slot, slot ≠ machine.initproc → (machine.procs thread).parent = some slot →
      slot = op := by
    have remembers := own.parent op rfl
    grind
  rcases of_update procs with ⟨died, woken⟩
  have others := kept_of_update procs
  have parents : ∀ slot, (next.procs slot).parent = (machine.procs slot).parent := by
    intro slot
    by_cases isThread : slot = thread
    · rw [isThread, died, same]
    · exact (others slot isThread).parent
  have unused : ∀ slot, slot ≠ thread →
      ((next.procs slot).state = .UNUSED ↔ (machine.procs slot).state = .UNUSED) :=
    fun slot notThread => (others slot notThread).unused
  have zombies : ∀ slot, slot ≠ thread →
      ((next.procs slot).state = .ZOMBIE ↔ (machine.procs slot).state = .ZOMBIE) :=
    fun slot notThread => (others slot notThread).zombie
  rcases lineage with ⟨initLive, isUnused, isZombie, isChild, isParent, fits, asleep⟩
  constructor
  · grind
  · simp only [pcs, update_apply]
    grind
  · simp only [pcs, update_apply]
    grind
  · grind
  · grind
  · intro other
    rw [init, pcs, update_apply]
    split
    · exact Fits.trivial rfl
    · rename_i isOther
      have before := fits other
      refine ⟨?_, ?_, before.ordinary, ?_, ?_⟩
      · simpa only [parents] using before.child
      · simpa only [parents] using before.given
      · simpa only [parents] using before.parent
      · intro todo known ordinary slot mine isZombie
        rw [parents slot] at mine
        by_cases slotThread : slot = thread
        · subst slot
          rw [above other ordinary mine] at known
          exact absurd known (unscanned todo)
        · exact before.zombies todo known ordinary slot mine ((zombies slot slotThread).mp isZombie)
  · intro slot ordinary sleeping chan below isParent isZombie
    rw [init] at ordinary
    rw [parents below] at isParent
    have notThread : slot ≠ thread := by
      rintro rfl
      simp [died, dead] at sleeping
    rw [woken slot notThread] at sleeping chan
    by_cases belowThread : below = thread
    · subst below
      rw [above slot ordinary isParent, update_self] at sleeping chan
      unfold Proc.wakeup at sleeping chan
      grind
    · rcases dozes_update dozes_wakeup slot ⟨sleeping, chan⟩ with ⟨slept, waited⟩
      exact asleep slot ordinary slept waited below isParent ((zombies below belowThread).mp isZombie)

end

theorem after (effect : Effect machine next) : Lineage next := by
  cases effect with
  | quiet thread pc quiet => exact lineage.quiet quiet
  | born thread np running unused result =>
    subst result
    exact lineage.born running rfl unused rfl rfl rfl rfl
  | reap thread np todo running here zombie dead _ result =>
    subst result
    exact lineage.reap running rfl here zombie dead rfl rfl rfl rfl
  | give thread status op pp todo running here result =>
    subst result
    exact lineage.give running rfl here rfl rfl
  | die thread status op running here different unscanned result =>
    subst result
    exact lineage.die running rfl here unscanned rfl rfl (by simp [different.symm]) rfl

theorem stepped [DecidableEq Cpu] {action : Action Cpu}
    (placed : Placed machine) (stepped : step machine action = .next next) :
    Effect machine next := by
  cases placed.cases stepped with
  | advanced cpu thread rest runs calm plain advanced =>
    exact lineage.effect placed runs calm plain advanced
  | entered cpu thread rest pc exits runs here entry result =>
    rw [result]
    exact entered placed runs here entry
  | background background => exact .quiet _ _ (lineage.background background)

end Lineage

theorem boot_lineage : Lineage (boot : Machine Cpu) := by
  have unused : ∀ slot, slot ≠ 0 → (boot : Machine Cpu).procs slot = Proc.free ∧
      (boot : Machine Cpu).pc slot = .dead := by
    intro slot different
    simp [boot, different]
  have first : (boot : Machine Cpu).procs 0 = { Proc.free with state := .RUNNABLE, pid := 1 } := by
    simp [boot]
  have init : (boot : Machine Cpu).initproc = 0 := rfl
  constructor
  · grind
  · grind [Proc.free, Process.Proc.free]
  · grind [Proc.free, Process.Proc.free]
  · grind [Proc.free, Process.Proc.free]
  · grind [Proc.free, Process.Proc.free]
  · intro thread
    by_cases isFirst : thread = 0
    · subst thread
      exact Fits.trivial rfl
    · rw [(unused thread isFirst).2]
      exact Fits.trivial rfl
  · grind [Proc.free, Process.Proc.free]

/-! ## The histories -/

/-- Every process in use was born once; whoever exited did so once, and
whoever was returned by `wait` had exited and is gone. -/
structure Records (machine : Machine Cpu) : Prop where
  numbered : ∀ birth ∈ machine.births, birth.serial < machine.births.length
  bornOnce : (machine.births.map Birth.serial).Nodup
  recorded : ∀ slot, (machine.procs slot).state ≠ .UNUSED →
    ⟨machine.serial slot, (machine.procs slot).pid⟩ ∈ machine.births
  distinct : ∀ slot other, (machine.procs slot).state ≠ .UNUSED →
    (machine.procs other).state ≠ .UNUSED → machine.serial slot = machine.serial other →
    slot = other
  died : ∀ slot, (machine.procs slot).state = .ZOMBIE →
    ⟨machine.serial slot, (machine.procs slot).pid, (machine.procs slot).xstate⟩ ∈ machine.deaths
  deaths : ∀ death ∈ machine.deaths, ⟨death.serial, death.pid⟩ ∈ machine.births ∧
    ∀ slot, (machine.procs slot).state ≠ .UNUSED → machine.serial slot = death.serial →
      (machine.procs slot).state = .ZOMBIE
  diedOnce : (machine.deaths.map Death.serial).Nodup
  reaped : ∀ reaping ∈ machine.reapings, reaping.parent = some reaping.waiter ∧
    ⟨reaping.serial, reaping.pid, reaping.status⟩ ∈ machine.deaths ∧
    ∀ slot, (machine.procs slot).state ≠ .UNUSED → machine.serial slot ≠ reaping.serial
  reapedOnce : (machine.reapings.map Reaping.serial).Nodup

namespace Records

variable {machine next : Machine Cpu}

theorem boot : Records (boot : Machine Cpu) := by
  have used : ∀ slot, ((Sched.boot : Machine Cpu).procs slot).state ≠ .UNUSED → slot = 0 := by
    intro slot inUse
    by_contra different
    simp [Sched.boot, different, Proc.free, Process.Proc.free] at inUse
  have alive : ∀ slot, ((Sched.boot : Machine Cpu).procs slot).state ≠ .ZOMBIE := by
    intro slot isZombie
    have isFirst := used slot (by simp [isZombie])
    subst slot
    cases isZombie
  refine ⟨?_, ?_, ?_, ?_, ?_, ?_, List.nodup_nil, ?_, List.nodup_nil⟩
  · intro birth listed
    rw [List.mem_singleton.mp listed]
    exact Nat.one_pos
  · exact List.nodup_singleton _
  · intro slot inUse
    rw [used slot inUse]
    exact List.mem_singleton.mpr rfl
  · intro slot other inUse otherInUse _
    rw [used slot inUse, used other otherInUse]
  · intro slot isZombie
    exact absurd isZombie (alive slot)
  · intro death impossible
    cases impossible
  · intro reaping impossible
    cases impossible

variable (records : Records machine)
include records

/-- A step that leaves the histories alone. -/
theorem frame
    (unused : ∀ slot, (next.procs slot).state = .UNUSED ↔ (machine.procs slot).state = .UNUSED)
    (zombie : ∀ slot, (next.procs slot).state = .ZOMBIE ↔ (machine.procs slot).state = .ZOMBIE)
    (pid : ∀ slot, (machine.procs slot).state ≠ .UNUSED →
      (next.procs slot).pid = (machine.procs slot).pid)
    (xstate : ∀ slot, (machine.procs slot).state ≠ .UNUSED →
      (next.procs slot).xstate = (machine.procs slot).xstate)
    (serial : next.serial = machine.serial) (births : next.births = machine.births)
    (deaths : next.deaths = machine.deaths) (reapings : next.reapings = machine.reapings) :
    Records next := by
  rcases records with ⟨numbered, bornOnce, recorded, distinct, died, dead, diedOnce, reaped,
    reapedOnce⟩
  constructor <;> simp only [ne_eq, unused, zombie, serial, births, deaths, reapings] <;> grind

theorem born (procs : next.procs = update machine.procs np proc)
    (runnable : proc.state = .RUNNABLE) (pid : proc.pid = (machine.procs np).pid)
    (serial : next.serial = update machine.serial np machine.births.length)
    (births : next.births = ⟨machine.births.length, (machine.procs np).pid⟩ :: machine.births)
    (deaths : next.deaths = machine.deaths) (reapings : next.reapings = machine.reapings) :
    Records next := by
  rcases of_update procs with ⟨child, others⟩
  rcases of_update serial with ⟨number, numbers⟩
  have fresh : ∀ birth ∈ machine.births, birth.serial ≠ machine.births.length := fun birth listed =>
    Nat.ne_of_lt (records.numbered birth listed)
  rcases records with ⟨numbered, bornOnce, recorded, distinct, died, dead, diedOnce, reaped,
    reapedOnce⟩
  constructor <;> grind

theorem reap (mine : (machine.procs np).parent = some thread)
    (zombie : (machine.procs np).state = .ZOMBIE)
    (procs : next.procs = update machine.procs np proc) (unused : proc.state = .UNUSED)
    (serial : next.serial = machine.serial) (births : next.births = machine.births)
    (deaths : next.deaths = machine.deaths)
    (reapings : next.reapings = ⟨thread, (machine.procs np).parent, machine.serial np,
      (machine.procs np).pid, (machine.procs np).xstate⟩ :: machine.reapings) : Records next := by
  have inUseNp : (machine.procs np).state ≠ .UNUSED := by simp [zombie]
  rcases of_update procs with ⟨freed, others⟩
  rcases records with ⟨numbered, bornOnce, recorded, distinct, died, dead, diedOnce, reaped,
    reapedOnce⟩
  constructor <;> grind

theorem die (running : (machine.procs thread).state = .RUNNING)
    (procs : next.procs = update (update machine.procs op ((machine.procs op).wakeup (.proc op)))
      thread proc) (zombie : proc.state = .ZOMBIE) (pid : proc.pid = (machine.procs thread).pid)
    (serial : next.serial = machine.serial) (births : next.births = machine.births)
    (deaths : next.deaths =
      ⟨machine.serial thread, (machine.procs thread).pid, proc.xstate⟩ :: machine.deaths)
    (reapings : next.reapings = machine.reapings) : Records next := by
  have others := kept_of_update procs
  rcases of_update procs with ⟨died, _⟩
  rcases records with ⟨numbered, bornOnce, recorded, distinct, isDead, dead, diedOnce, reaped,
    reapedOnce⟩
  constructor <;> grind [Kept]

theorem after (lineage : Lineage machine) (effect : Effect machine next) : Records next := by
  cases effect with
  | quiet thread pc quiet =>
    exact records.frame (fun slot => (quiet.kept slot).unused) (fun slot => (quiet.kept slot).zombie)
      (fun slot => (quiet.kept slot).pid) (fun slot => (quiet.kept slot).xstate) quiet.serial
      quiet.births quiet.deaths quiet.reapings
  | born thread np _ _ result =>
    subst result
    exact records.born rfl rfl rfl rfl rfl rfl rfl
  | reap thread np todo _ here zombie _ _ result =>
    subst result
    exact records.reap ((lineage.fits thread).child np (by rw [here]; rfl)) zombie rfl rfl rfl rfl rfl
      rfl
  | give thread status op pp todo _ _ result =>
    rw [result]
    have same : ∀ slot, (update machine.procs pp
        { machine.procs pp with parent := some machine.initproc } slot).state =
          (machine.procs slot).state ∧ (update machine.procs pp
        { machine.procs pp with parent := some machine.initproc } slot).pid =
          (machine.procs slot).pid ∧ (update machine.procs pp
        { machine.procs pp with parent := some machine.initproc } slot).xstate =
          (machine.procs slot).xstate := by
      intro slot
      by_cases isPp : slot = pp
      · subst slot
        rw [update_self]
        exact ⟨rfl, rfl, rfl⟩
      · rw [update_of_ne isPp]
        exact ⟨rfl, rfl, rfl⟩
    exact records.frame (fun slot => by rw [← (same slot).1]; rfl)
      (fun slot => by rw [← (same slot).1]; rfl) (fun slot _ => (same slot).2.1)
      (fun slot _ => (same slot).2.2) rfl rfl rfl rfl
  | die thread status op running _ different _ result =>
    subst result
    refine records.die running rfl rfl ?_ rfl rfl ?_ rfl
    all_goals simp [different.symm]

end Records

/-! ## The arguments of `exit` -/

/-- The argument of `exit`, while the process is not dead yet. -/
@[simp] def statusAt : Pc → Option Int
  | .exitInit status | .exitWakeInit status | .exitEnter status | .exitRead status
  | .exitParent status _ | .exitSelf status _ | .reparentScan status _ _
  | .reparentChild status _ _ _ | .reparentGive status _ _ _ | .exitZombie status _ => some status
  | _ => none

/-- Whoever is in `exit` has called it with the status that it has, and whoever
has exited has called it with the status that it left. -/
structure Asked (machine : Machine Cpu) : Prop where
  exiting : ∀ slot status, statusAt (machine.pc slot) = some status →
    ⟨machine.serial slot, status⟩ ∈ machine.exits
  deaths : ∀ death ∈ machine.deaths, ⟨death.serial, death.status⟩ ∈ machine.exits

section

variable {procs : Slot → Proc} {initproc lock : Slot} {here : Pc}

theorem statusAt_wanted (wants : wanted initproc thread here = some (lock, pc)) :
    statusAt pc = statusAt here := by
  cases here with
  | killScan pid todo | forkScan todo =>
    cases todo with
    | nil => cases wants
    | cons slot todo =>
      cases wants
      rfl
  | _ =>
    cases wants
    all_goals rfl

theorem statusAt_looks (looks : Looks procs thread here pc) : statusAt pc = statusAt here := by
  cases looks <;> rfl

theorem statusAt_unlocks (unlocks : Unlocks procs thread here lock pc) :
    statusAt pc = statusAt here := by
  cases unlocks <;> rfl

end

namespace Asked

variable {machine next : Machine Cpu}

theorem boot : Asked (boot : Machine Cpu) := by
  refine ⟨fun slot status known => ?_, nofun⟩
  by_cases isFirst : slot = 0 <;> simp [Sched.boot, isFirst] at known

variable (asked : Asked machine)
include asked

/-- One process moves on with the status that it has. -/
theorem moves (thread : Slot) (pc : Pc)
    (keeps : ∀ status, statusAt pc = some status → statusAt (machine.pc thread) = some status)
    (pcs : next.pc = update machine.pc thread pc := by rfl)
    (serial : next.serial = machine.serial := by rfl) (exits : next.exits = machine.exits := by rfl)
    (deaths : next.deaths = machine.deaths := by rfl) : Asked next := by
  refine ⟨fun slot status known => ?_, ?_⟩
  · rw [serial, exits]
    rw [pcs] at known
    by_cases isThread : slot = thread
    · subst slot
      rw [update_self] at known
      exact asked.exiting thread status (keeps status known)
    · rw [update_of_ne isThread] at known
      exact asked.exiting slot status known
  · rw [exits, deaths]
    exact asked.deaths

theorem advanced [DecidableEq Cpu] {cpu : Cpu} {rest : List Slot}
    (stepped : Advanced machine cpu thread rest next) : Asked next := by
  cases stepped with
  | lock lock pc wants free =>
    exact asked.moves thread pc fun _ known => statusAt_wanted wants ▸ known
  | look pc looks => exact asked.moves thread pc fun _ known => statusAt_looks looks ▸ known
  | unlock lock pc unlocks =>
    exact asked.moves thread pc fun _ known => statusAt_unlocks unlocks ▸ known
  | park parked parks stopped =>
    cases parks with
    | sleep address here => exact asked.moves thread .sleepBack nofun
    | wait here => exact asked.moves thread .waitBack nofun
    | exit here => exact asked.moves thread .dead nofun
  | sleepBack _ | kill _ _ _ _ | undo _ _ | reap _ _ _ _ | giveUp _ _ _ =>
    exact asked.moves thread .user nofun
  | waitBack here => exact asked.moves thread (.waitScan slots false) nofun
  | allocpid slot todo here unused => exact asked.moves thread (.forkFill slot) nofun
  | wakeInit status here => exact asked.moves thread (.exitEnter status) (by simp [here])
  | give status op pp todo here =>
    exact asked.moves thread (.reparentScan status op todo) (by simp [here])
  | born np here =>
    refine ⟨fun slot status known => ?_, asked.deaths⟩
    by_cases isThread : slot = thread
    · subst slot
      simp at known
    · by_cases isNp : slot = np
      · subst slot
        simp [isThread] at known
      · simp only [Machine.goto, Machine.release, Machine.born, Machine.setProc,
          update_of_ne isThread, update_of_ne isNp] at known ⊢
        exact asked.exiting slot status known
  | die status op here =>
    have mine := asked.exiting thread status (by rw [here]; rfl)
    refine ⟨fun slot other known => ?_, fun death listed => ?_⟩
    · by_cases isThread : slot = thread
      · subst slot
        simp at known
      · simp only [Machine.goto, Machine.release, Machine.die, Machine.setProc,
          update_of_ne isThread] at known
        exact asked.exiting slot other known
    · rcases List.mem_cons.mp listed with isNew | old
      · rw [isNew]
        exact mine
      · exact asked.deaths death old

theorem stepped [DecidableEq Cpu] (cases : Cases machine next) : Asked next := by
  cases cases with
  | advanced cpu thread rest runs calm plain stepped => exact asked.advanced stepped
  | background background =>
    refine ⟨?_, ?_⟩
    · rw [background.pc, background.serial, background.exits]
      exact asked.exiting
    · rw [background.deaths, background.exits]
      exact asked.deaths
  | entered cpu thread rest pc exits runs here entry after =>
    subst after
    cases entry with
    | sleep address => exact asked.moves thread (.sleepLock address) nofun
    | kill pid => exact asked.moves thread (.killScan pid slots) nofun
    | fork => exact asked.moves thread (.forkScan slots) nofun
    | wait => exact asked.moves thread .waitEnter nofun
    | exit status other =>
      refine ⟨fun slot known isKnown => ?_, fun death listed => ?_⟩
      · by_cases isThread : slot = thread
        · subst slot
          simp only [Machine.goto, update_self] at isKnown
          cases isKnown
          exact List.mem_cons_self
        · simp only [Machine.goto, update_of_ne isThread] at isKnown
          exact List.mem_cons_of_mem _ (asked.exiting slot known isKnown)
      · exact List.mem_cons_of_mem _ (asked.deaths death listed)

end Asked

/-! ## The result -/

variable [DecidableEq Cpu]

/-- What holds of `wait` and `exit` in every state. -/
structure WaitExit (machine : Machine Cpu) : Prop where
  /-- Whoever has been forked and not been reaped has a living parent. -/
  parents : ∀ slot, slot ≠ machine.initproc → (machine.procs slot).state ≠ .UNUSED →
    ∃ above, (machine.procs slot).parent = some above ∧
      (machine.procs above).state ≠ .UNUSED ∧ (machine.procs above).state ≠ .ZOMBIE
  /-- Every process is forked, exits and is returned by `wait` at most once. -/
  once : (machine.births.map Birth.serial).Nodup ∧ (machine.deaths.map Death.serial).Nodup ∧
    (machine.reapings.map Reaping.serial).Nodup
  /-- What `wait` has returned was a child of its caller that had exited, with
  the pid that `fork` gave it and the status that it passed to `exit`. -/
  returned : ∀ reaping ∈ machine.reapings, reaping.parent = some reaping.waiter ∧
    ⟨reaping.serial, reaping.pid, reaping.status⟩ ∈ machine.deaths ∧
    ⟨reaping.serial, reaping.pid⟩ ∈ machine.births ∧
    ⟨reaping.serial, reaping.status⟩ ∈ machine.exits
  /-- A slot in use is freed by the `wait` that returns its process, and by
  nothing else, when no CPU is left on its kernel stack. -/
  freed : ∀ action next, step machine action = .next next →
    ∀ slot, (machine.procs slot).state ≠ .UNUSED → (next.procs slot).state = .UNUSED →
      (machine.procs slot).state = .ZOMBIE ∧ machine.pc slot = .dead ∧
      (∀ cpu, machine.proc cpu ≠ some slot) ∧
      ∃ waiter, next.reapings = ⟨waiter, some waiter, machine.serial slot,
        (machine.procs slot).pid, (machine.procs slot).xstate⟩ :: machine.reapings
  /-- A `wait` that cannot copy the status out leaves the table alone. -/
  kept : ∀ cpu thread rest np todo luck next, machine.position cpu = .run thread rest →
    machine.trap thread = .none → machine.pc thread = .waitLook np todo →
    (machine.procs np).state = .ZOMBIE → luck.copyout = false →
    step machine (.advance cpu luck) = .next next →
      next.pc thread = .user ∧ next.procs = machine.procs ∧ next.reapings = machine.reapings
  /-- No process but init sleeps in `wait` while it has an exited child. -/
  awake : ∀ slot, slot ≠ machine.initproc → machine.owner slot = none →
    (machine.procs slot).state = .SLEEPING → (machine.procs slot).chan = some (.proc slot) →
    ∀ below, (machine.procs below).parent = some slot → (machine.procs below).state ≠ .ZOMBIE

theorem waitExit_of_invariants {machine : Machine Cpu} (placed : Placed machine)
    (lineage : Lineage machine) (records : Records machine) (asked : Asked machine) :
    WaitExit machine where
  parents := by
    intro slot ordinary inUse
    rcases Option.ne_none_iff_exists'.mp (lineage.child slot ordinary inUse) with ⟨above, parent⟩
    exact ⟨above, parent, lineage.parent slot above parent⟩
  once := ⟨records.bornOnce, records.diedOnce, records.reapedOnce⟩
  returned := by
    intro reaping listed
    rcases records.reaped reaping listed with ⟨parent, death, _⟩
    exact ⟨parent, death, (records.deaths _ death).1, asked.deaths _ death⟩
  freed := by
    intro action next stepped slot inUse isFree
    cases lineage.stepped placed stepped with
    | quiet thread pc quiet => exact absurd ((quiet.kept slot).unused.mp isFree) inUse
    | born thread np _ _ result =>
      rw [result] at isFree
      by_cases isNp : slot = np
      · subst slot
        simp at isFree
      · simp [isNp] at isFree
        exact absurd isFree inUse
    | reap thread np todo _ here zombie dead idle result =>
      rw [result] at isFree ⊢
      by_cases isNp : slot = np
      · subst slot
        refine ⟨zombie, dead, idle, thread, ?_⟩
        rw [← (lineage.fits thread).child np (by rw [here]; rfl)]
        rfl
      · simp [isNp] at isFree
        exact absurd isFree inUse
    | give thread status op pp todo _ _ result =>
      rw [result] at isFree
      by_cases isPp : slot = pp
      · subst slot
        simp at isFree
        exact absurd isFree inUse
      · simp [isPp] at isFree
        exact absurd isFree inUse
    | die thread status op _ _ _ _ result =>
      rw [result] at isFree
      by_cases isThread : slot = thread
      · subst slot
        simp at isFree
      · have kept := kept_update (kept_wakeup (machine.procs op) (.proc op)) slot
        simp [isThread] at isFree
        exact absurd (kept.unused.mp isFree) inUse
  kept := by
    intro cpu thread rest np todo luck next runs plain here zombie failed stepped
    simp only [step, runs] at stepped
    rcases guard_eq_next.mp stepped with ⟨_, stepped⟩
    simp only [run, plain, advance, here, zombie, failed, if_true, Bool.false_eq_true,
      if_false] at stepped
    cases stepped
    exact ⟨by simp, rfl, rfl⟩
  awake := fun slot ordinary _ => lineage.asleep slot ordinary

/-- The protocol of `wait` and `exit` holds in every state that any number of
CPUs reach by any interleaving. -/
theorem wait_exit_protocol (schedule : List (Action Cpu)) (final : Machine Cpu)
    (reached : exec step boot schedule = .next final) : WaitExit final := by
  have sound : Placed final ∧ Lineage final ∧ Records final ∧ Asked final := by
    refine exec_invariant'
      (fun machine => Placed machine ∧ Lineage machine ∧ Records machine ∧ Asked machine) ?_
      ⟨boot_placed, boot_lineage, Records.boot, Asked.boot⟩ reached
    intro machine action next holds stepped
    rcases holds with ⟨placed, lineage, records, asked⟩
    have effect := lineage.stepped placed stepped
    exact ⟨placed.stepped stepped, lineage.after effect, records.after lineage effect,
      asked.stepped (placed.cases stepped)⟩
  exact waitExit_of_invariants sound.1 sound.2.1 sound.2.2.1 sound.2.2.2

/-- Init forks on one CPU.  The child runs on the other one and calls `exit`, and
then init calls `wait`. -/
def forkExitWait : List (Action (Fin 2)) :=
  [.schedule 0, .schedule 0, .advance 0 ⟨.enough, true⟩, .call 0 .fork] ++
    .replicate 5 (.advance 0 ⟨.enough, true⟩) ++ .replicate 4 (.schedule 1) ++
    [.advance 1 ⟨.enough, true⟩, .call 1 (.exit 7)] ++
    .replicate 73 (.advance 1 ⟨.enough, true⟩) ++ [.schedule 1, .call 0 .wait] ++
    .replicate 5 (.advance 0 ⟨.enough, true⟩)

/-- The child is returned with its pid and its status. -/
theorem wait_exit_protocol_fork : ∃ final : Machine (Fin 2),
    exec step boot forkExitWait = .next final ∧ final.births = [⟨1, 2⟩, ⟨0, 1⟩] ∧
      final.exits = [⟨1, 7⟩] ∧ final.reapings = [⟨0, some 0, 1, 2, 7⟩] ∧ WaitExit final := by
  have ran : ∃ final : Machine (Fin 2), exec step boot forkExitWait = .next final ∧
      final.births = [⟨1, 2⟩, ⟨0, 1⟩] ∧ final.exits = [⟨1, 7⟩] ∧
      final.reapings = [⟨0, some 0, 1, 2, 7⟩] := by
    decide +kernel
  rcases ran with ⟨final, reached, births, exits, reapings⟩
  exact ⟨final, reached, births, exits, reapings, wait_exit_protocol _ final reached⟩

end Sched
end Process
end Xv6
