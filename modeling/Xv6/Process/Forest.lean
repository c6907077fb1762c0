import Xv6.Foundation.LockOrder
import Xv6.Process.WaitExit

namespace Xv6
namespace Process
namespace Sched

open Foundation Function

/-!
# Ancestors, and the panics of the scheduler

A process is younger than its parent, and init is older than everybody it
adopts.  So the `parent` fields form a tree with init at its root, which is
what the locking of `wait` and `exit` relies on: a process locks its child
while it holds its own lock, and an exiting one locks its children while it
also holds the lock of the parent it has read before.  With a cycle, it would
acquire a lock that its CPU already holds.
-/

variable {Cpu : Type} {machine next : Machine Cpu} {slot thread op : Slot} {pc : Pc}

/-! ## Parents are older than their children -/

/-- The positions of a process that has ended. -/
@[simp] def finished : Pc → Bool
  | .exitSched | .dead => true
  | _ => false

/-- The numbers of the processes decrease towards init, a process that has ended
does not run, and the parent that an exiting one remembers is neither itself nor
one of its children. -/
structure Descends (machine : Machine Cpu) : Prop where
  first : machine.serial machine.initproc = 0
  older : ∀ slot above, (machine.procs slot).parent = some above →
    machine.serial above < machine.serial slot
  ended : ∀ slot, finished (machine.pc slot) = true →
    (machine.procs slot).state = .ZOMBIE ∨ (machine.procs slot).state = .UNUSED
  stale : ∀ slot op, remembered (machine.pc slot) = some op →
    op ≠ slot ∧ (machine.procs op).parent ≠ some slot

/-- What the new position of a process says about the old one. -/
structure Comes (machine next : Machine Cpu) (slot : Slot) : Prop where
  known : ∀ op, remembered (next.pc slot) = some op →
    remembered (machine.pc slot) = some op ∨ (machine.procs slot).parent = some op
  ended : finished (next.pc slot) = true →
    finished (machine.pc slot) = true ∨ (next.procs slot).state = .ZOMBIE

theorem Comes.stays (same : next.pc slot = machine.pc slot) : Comes machine next slot := by
  constructor
  · rw [same]
    exact fun _ => Or.inl
  · rw [same]
    exact Or.inl

/-- One process moves, and does not become a zombie. -/
theorem Comes.moves (known : ∀ op, remembered pc = some op →
      remembered (machine.pc thread) = some op ∨ (machine.procs thread).parent = some op)
    (goesOn : finished pc = true → finished (machine.pc thread) = true)
    (pcs : next.pc = update machine.pc thread pc) (slot : Slot) :
    Comes machine next slot := by
  by_cases isThread : slot = thread
  · subst slot
    rw [← update_self thread pc machine.pc, ← pcs] at known goesOn
    exact ⟨known, fun ended => Or.inl (goesOn ended)⟩
  · exact .stays (by rw [pcs, update_of_ne isThread])

section

variable {procs : Slot → Proc} {initproc lock : Slot} {here : Pc}

theorem continues (goesOn : finished pc = false) (isOver : finished pc = true) : finished here = true :=
  absurd (goesOn.symm.trans isOver) Bool.false_ne_true

theorem remembered_wanted (wants : wanted initproc thread here = some (lock, pc)) :
    remembered pc = remembered here ∧ finished pc = false := by
  cases here with
  | killScan pid todo | forkScan todo =>
    cases todo with
    | nil => cases wants
    | cons slot todo =>
      cases wants
      exact ⟨rfl, rfl⟩
  | _ =>
    cases wants
    all_goals exact ⟨rfl, rfl⟩

theorem remembered_looks (looks : Looks procs thread here pc) :
    remembered pc = remembered here ∧ finished pc = false := by
  cases looks <;> exact ⟨rfl, rfl⟩

theorem remembered_unlocks (unlocks : Unlocks procs thread here lock pc) :
    (∀ op, remembered pc = some op → (procs thread).parent = some op) ∧ finished pc = false := by
  cases unlocks with
  | parent status op above =>
    refine ⟨fun known same => ?_, rfl⟩
    cases same
    exact above
  | _ => exact ⟨nofun, rfl⟩

end

theorem comes [DecidableEq Cpu] (cases : Cases machine next) (slot : Slot) :
    Comes machine next slot := by
  cases cases with
  | background background => exact .stays (by rw [background.pc])
  | entered cpu thread rest pc exits runs here entry after =>
    subst after
    cases entry <;> exact .moves (by simp) (by simp) rfl slot
  | advanced cpu thread rest runs calm plain stepped =>
    cases stepped with
    | lock lock pc wants free =>
      rcases remembered_wanted wants with ⟨same, goesOn⟩
      exact .moves (fun op known => Or.inl (same ▸ known)) (continues goesOn) rfl slot
    | look pc looks =>
      rcases remembered_looks looks with ⟨same, goesOn⟩
      exact .moves (fun op known => Or.inl (same ▸ known)) (continues goesOn) rfl slot
    | unlock lock pc unlocks =>
      rcases remembered_unlocks unlocks with ⟨above, goesOn⟩
      exact .moves (fun op known => Or.inr (above op known)) (continues goesOn) rfl slot
    | park parked parks stopped =>
      cases parks with
      | sleep _ here | wait here => exact .moves (by simp) (by simp) rfl slot
      | exit here => exact .moves (by simp) (by simp [here]) rfl slot
    | give status op pp todo here => exact .moves (by simp [here]) (by simp) rfl slot
    | die status op here =>
      by_cases isThread : slot = thread
      · subst slot
        exact ⟨by simp, by simp⟩
      · exact .stays (by simp [isThread])
    | born np here =>
      by_cases isThread : slot = thread
      · subst slot
        exact ⟨by simp, by simp⟩
      · by_cases isNp : slot = np
        · subst slot
          exact ⟨by simp [isThread], by simp [isThread]⟩
        · exact .stays (by simp [isThread, isNp])
    | _ => exact .moves (by simp) (by simp) rfl slot

/-- What a step does to the tree. -/
structure Grafts (machine next : Machine Cpu) : Prop where
  initproc : next.initproc = machine.initproc
  first : next.serial machine.initproc = machine.serial machine.initproc
  /-- A new child is younger than its parent, and init adopts. -/
  parent : ∀ slot above, (next.procs slot).parent = some above →
    (machine.procs slot).parent = some above ∧ next.serial above = machine.serial above ∧
      next.serial slot = machine.serial slot ∨
    above = machine.initproc ∧ (∃ old, (machine.procs slot).parent = some old) ∧
      next.serial slot = machine.serial slot ∨
    next.pc above = .user ∧ next.serial above < next.serial slot
  ended : ∀ slot, (machine.procs slot).state = .ZOMBIE ∨ (machine.procs slot).state = .UNUSED →
    finished (next.pc slot) = true →
      (next.procs slot).state = .ZOMBIE ∨ (next.procs slot).state = .UNUSED

theorem grafts [DecidableEq Cpu] (lineage : Lineage machine) (records : Records machine)
    (effect : Effect machine next) : Grafts machine next := by
  cases effect with
  | quiet thread pc quiet =>
    refine ⟨quiet.initproc, by rw [quiet.serial], fun slot above parent => Or.inl ?_, ?_⟩
    · rw [quiet.serial]
      exact ⟨(quiet.kept slot).parent ▸ parent, rfl, rfl⟩
    · intro slot isEnded _
      exact isEnded.imp (quiet.kept slot).zombie.mpr (quiet.kept slot).unused.mpr
  | born thread np running unused after =>
    subst after
    have ofInit : machine.initproc ≠ np := by
      rintro rfl
      exact lineage.initLive.1 unused
    have alive : (machine.procs thread).state ≠ .UNUSED := by simp [running]
    have notSelf : thread ≠ np := by
      rintro rfl
      exact alive unused
    refine ⟨rfl, by simp [ofInit], fun slot above parent => ?_, fun slot isEnded isOver => ?_⟩
    · by_cases isNp : slot = np
      · subst slot
        simp at parent
        subst parent
        have born := records.numbered _ (records.recorded thread alive)
        exact Or.inr (Or.inr (by simpa [notSelf] using born))
      · simp [isNp] at parent
        have used := (lineage.parent slot above parent).1
        have other : above ≠ np := by
          rintro rfl
          exact used unused
        exact Or.inl (by simpa [isNp, other] using parent)
    · have other : slot ≠ np := by
        rintro rfl
        simp [notSelf.symm] at isOver
      simpa [other] using isEnded
  | reap thread np todo running here zombie dead idle after =>
    subst after
    refine ⟨rfl, rfl, fun slot above parent => Or.inl ?_, fun slot isEnded _ => ?_⟩
    · by_cases isNp : slot = np
      · subst slot
        simp [Proc.free, Process.Proc.free] at parent
      · simpa [isNp] using parent
    · by_cases isNp : slot = np
      · subst slot
        simp [Proc.free, Process.Proc.free]
      · simpa [isNp] using isEnded
  | give thread status op pp todo running here after =>
    subst after
    have mine : (machine.procs pp).parent = some thread :=
      (lineage.fits thread).child pp (by rw [here]; rfl)
    refine ⟨rfl, rfl, fun slot above parent => ?_, fun slot isEnded _ => ?_⟩
    · by_cases isPp : slot = pp
      · subst slot
        simp at parent
        exact Or.inr (Or.inl ⟨parent.symm, ⟨thread, mine⟩, rfl⟩)
      · exact Or.inl (by simpa [isPp] using parent)
    · by_cases isPp : slot = pp
      · subst slot
        simpa using isEnded
      · simpa [isPp] using isEnded
  | die thread status op running here different unscanned after =>
    subst after
    have others := fun slot => kept_update (kept_wakeup (machine.procs op) (.proc op)) slot
    refine ⟨rfl, rfl, fun slot above parent => Or.inl ?_, fun slot isEnded _ => ?_⟩
    · by_cases isThread : slot = thread
      · subst slot
        simpa [different.symm] using parent
      · simp [isThread] at parent
        exact ⟨(others slot).parent ▸ parent, rfl, rfl⟩
    · have other : slot ≠ thread := by
        rintro rfl
        simp [running] at isEnded
      simpa [other] using isEnded.imp (others slot).zombie.mpr (others slot).unused.mpr

theorem exiting_of_remembered (known : remembered pc = some op) : exiting pc = true := by
  cases pc <;> first | rfl | cases known

theorem Descends.stepped [DecidableEq Cpu] {action : Action Cpu} (descends : Descends machine)
    (placed : Placed machine) (lineage : Lineage machine) (records : Records machine)
    (stepped : step machine action = .next next) : Descends next := by
  have effect := lineage.stepped placed stepped
  have grafts := grafts lineage records effect
  have comes := comes (placed.cases stepped)
  refine ⟨?_, ?_, ?_, ?_⟩
  · rw [grafts.initproc, grafts.first, descends.first]
  · intro slot above parent
    rcases grafts.parent slot above parent with
      ⟨same, ofAbove, ofSlot⟩ | ⟨rfl, ⟨old, before⟩, ofSlot⟩ | ⟨_, younger⟩
    · rw [ofAbove, ofSlot]
      exact descends.older slot above same
    · rw [grafts.first, descends.first, ofSlot]
      exact Nat.zero_lt_of_lt (descends.older slot old before)
    · exact younger
  · intro slot isOver
    rcases (comes slot).ended isOver with wasOver | isZombie
    · exact grafts.ended slot (descends.ended slot wasOver) isOver
    · exact Or.inl isZombie
  · intro slot op known
    have before : op ≠ slot ∧ (machine.procs op).parent ≠ some slot := by
      rcases (comes slot).known op known with same | parent
      · exact descends.stale slot op same
      · have younger := descends.older slot op parent
        refine ⟨fun same => ?_, fun cycle => ?_⟩
        · rw [same] at younger
          exact Nat.lt_irrefl _ younger
        · exact Nat.lt_asymm younger (descends.older op slot cycle)
    refine ⟨before.1, fun parent => ?_⟩
    rcases grafts.parent op slot parent with ⟨same, _⟩ | ⟨isInit, _⟩ | ⟨here, _⟩
    · exact before.2 same
    · have ordinary := ((lineage.after effect).fits slot).ordinary (exiting_of_remembered known)
      rw [grafts.initproc] at ordinary
      exact ordinary isInit
    · rw [here] at known
      cases known

theorem boot_descends : Descends (boot : Machine Cpu) := by
  refine ⟨rfl, ?_, ?_, ?_⟩
  · intro slot above parent
    by_cases isFirst : slot = 0 <;> simp [boot, isFirst, Proc.free, Process.Proc.free] at parent
  · intro slot isOver
    by_cases isFirst : slot = 0
    · simp [boot, isFirst] at isOver
    · exact Or.inr (by simp [boot, isFirst, Proc.free, Process.Proc.free])
  · intro slot op known
    by_cases isFirst : slot = 0 <;> simp [boot, isFirst] at known

/-! ## Interrupts in `sleep` -/

/-- The timer does not interrupt a process that holds the lock `lk` of `sleep`. -/
def Uninterrupted (machine : Machine Cpu) : Prop :=
  ∀ slot, machine.trap slot ≠ .none → (machine.pc slot).lk = 0

theorem Advanced.trapped [DecidableEq Cpu] {cpu : Cpu} {rest : List Slot}
    (stepped : Advanced machine cpu thread rest next) (plain : machine.trap thread = .none)
    (isTrapped : next.trap slot ≠ .none) :
    machine.trap slot ≠ .none ∧ next.pc slot = machine.pc slot := by
  have other : next.trap slot = machine.trap slot → next.pc slot = machine.pc slot ∨ slot = thread →
      machine.trap slot ≠ .none ∧ next.pc slot = machine.pc slot := by
    rintro sameTrap (samePc | rfl)
    · exact ⟨sameTrap ▸ isTrapped, samePc⟩
    · exact absurd (sameTrap.trans plain) isTrapped
  have moved : ∀ pc, update machine.pc thread pc slot = machine.pc slot ∨ slot = thread := by
    intro pc
    by_cases isThread : slot = thread
    · exact Or.inr isThread
    · exact Or.inl (update_of_ne isThread _ _)
  cases stepped with
  | park parked parks stopped => cases parks <;> exact other rfl (moved _)
  | born np here =>
    by_cases isNp : slot = np
    · subst slot
      simp at isTrapped
    · refine other (by simp [isNp]) ?_
      by_cases isThread : slot = thread
      · exact Or.inr isThread
      · exact Or.inl (by simp [isThread, isNp])
  | _ => exact other rfl (moved _)

theorem Uninterrupted.stepped [DecidableEq Cpu] {action : Action Cpu}
    (uninterrupted : Uninterrupted machine) (stepped : step machine action = .next next) :
    Uninterrupted next := by
  have same : next.trap = machine.trap → next.pc = machine.pc → Uninterrupted next := by
    intro sameTrap samePc slot
    rw [sameTrap, samePc]
    exact uninterrupted slot
  cases action with
  | schedule cpu =>
    rcases guard_eq_next.mp stepped with ⟨_, stepped⟩
    unfold schedule at stepped
    split at stepped
    · cases stepped
      exact same rfl rfl
    · rcases acquire_andThen_eq_next.mp stepped with ⟨_, moved⟩
      cases moved
      exact same rfl rfl
    · split at stepped
      · cases stepped
        exact same rfl rfl
      · cases stepped
        exact same rfl rfl
    · cases stepped
    · cases stepped
      exact same rfl rfl
  | call cpu call =>
    simp only [step] at stepped
    split at stepped
    · rename_i thread todo runs
      rcases guard_eq_next.mp stepped with ⟨⟨_, plain, _⟩, stepped⟩
      have entered : ∀ pc exits, Uninterrupted ({ machine with exits := exits }.goto thread pc) := by
        intro pc exits slot isTrapped
        have different : slot ≠ thread := by
          rintro rfl
          exact isTrapped plain
        simp only [Machine.goto, update_of_ne different]
        exact uninterrupted slot isTrapped
      cases call with
      | exit status =>
        rcases check_eq_next.mp stepped with ⟨_, stepped⟩
        cases stepped
        exact entered _ _
      | sleep _ | kill _ | fork | wait =>
        cases stepped
        exact entered _ _
    · cases stepped
  | advance cpu luck =>
    simp only [step] at stepped
    split at stepped
    · rename_i thread todo runs
      rcases guard_eq_next.mp stepped with ⟨_, stepped⟩
      have yields : ∀ trap, machine.trap thread ≠ .none → next.trap = update machine.trap thread trap →
          next.pc = machine.pc → Uninterrupted next := by
        intro trap isTrapped traps samePc slot isTrappedStill
        rw [samePc]
        by_cases isThread : slot = thread
        · rw [isThread]
          exact uninterrupted thread isTrapped
        · rw [traps, update_of_ne isThread] at isTrappedStill
          exact uninterrupted slot isTrappedStill
      unfold run at stepped
      generalize trap : machine.trap thread = kind at stepped
      cases kind with
      | none =>
        intro slot isTrapped
        rcases (advanced_of_advance stepped).trapped trap isTrapped with ⟨before, samePc⟩
        rw [samePc]
        exact uninterrupted slot before
      | lock =>
        rcases acquire_andThen_eq_next.mp stepped with ⟨_, moved⟩
        cases moved
        exact yields _ (by simp [trap]) rfl rfl
      | set =>
        rcases sched_eq_next stepped with ⟨_, rfl⟩
        exact yields _ (by simp [trap]) rfl rfl
      | back =>
        cases stepped
        exact yields _ (by simp [trap]) rfl rfl
    · cases stepped
  | timer cpu =>
    simp only [step] at stepped
    split at stepped
    · rename_i thread todo runs
      rcases guard_eq_next.mp stepped with ⟨⟨_, free, _⟩, stepped⟩
      cases stepped
      intro slot isTrapped
      by_cases isThread : slot = thread
      · have noLk := (Nat.add_eq_zero_iff.mp free).2
        rw [runs] at noLk
        rw [isThread]
        exact noLk
      · simp only [Machine.trapTo, update_of_ne isThread] at isTrapped
        exact uninterrupted slot isTrapped
    · cases stepped
  | wakeup cpu address =>
    rcases guard_eq_next.mp stepped with ⟨_, stepped⟩
    cases stepped
    exact same rfl rfl
  | wake cpu =>
    simp only [step] at stepped
    unfold wake at stepped
    split at stepped
    · cases stepped
    · cases stepped
      exact same rfl rfl
    · rcases acquire_andThen_eq_next.mp stepped with ⟨_, moved⟩
      cases moved
      exact same rfl rfl
    · cases stepped
      exact same rfl rfl

/-! ## Every state that is reached -/

/-- The invariants of this module and the two before it. -/
structure Sound (machine : Machine Cpu) : Prop where
  placed : Placed machine
  lineage : Lineage machine
  records : Records machine
  descends : Descends machine
  uninterrupted : Uninterrupted machine

theorem Sound.reached [DecidableEq Cpu] {schedule : List (Action Cpu)} {final : Machine Cpu}
    (reached : exec step boot schedule = .next final) : Sound final := by
  refine exec_invariant' Sound ?_ ⟨boot_placed, boot_lineage, Records.boot, boot_descends,
    fun _ impossible => absurd rfl impossible⟩ reached
  rintro machine action next ⟨placed, lineage, records, descends, uninterrupted⟩ stepped
  have effect := lineage.stepped placed stepped
  exact ⟨placed.stepped stepped, lineage.after effect, records.after lineage effect,
    descends.stepped placed lineage records stepped, uninterrupted.stepped stepped⟩

/-- Going up from a process, through its parents. -/
abbrev Machine.Above (machine : Machine Cpu) (slot above : Slot) : Prop :=
  (machine.procs slot).parent = some above

/-- In every state that any number of CPUs reach, the processes form a tree:
no process is among its own ancestors, and the ancestors of every process in
use lead to init. -/
theorem processes_form_tree [DecidableEq Cpu] (schedule : List (Action Cpu)) (final : Machine Cpu)
    (reached : exec step boot schedule = .next final) :
    Acyclic final.Above ∧ ∀ slot, (final.procs slot).state ≠ .UNUSED →
      Relation.ReflTransGen final.Above slot final.initproc := by
  have sound := Sound.reached reached
  have younger : ∀ slot above, Relation.TransGen final.Above slot above →
      final.serial above < final.serial slot := by
    intro slot above path
    induction path with
    | single parent => exact sound.descends.older _ _ parent
    | tail _ parent ih => exact Nat.lt_trans (sound.descends.older _ _ parent) ih
  refine ⟨fun slot cycle => Nat.lt_irrefl _ (younger slot slot cycle), fun slot inUse => ?_⟩
  induction number : final.serial slot using Nat.strong_induction_on generalizing slot with
  | _ n ih =>
    by_cases isInit : slot = final.initproc
    · rw [isInit]
    · rcases Option.ne_none_iff_exists'.mp (sound.lineage.child slot isInit inUse) with
        ⟨above, parent⟩
      have older := sound.descends.older slot above parent
      exact .head parent
        (ih _ (number ▸ older) above (sound.lineage.parent slot above parent).1 rfl)

theorem processes_form_tree_fork : ∃ final : Machine (Fin 2),
    exec step boot ([.schedule 0, .schedule 0, .advance 0 ⟨.enough, true⟩, .call 0 .fork] ++
      .replicate 5 (.advance 0 ⟨.enough, true⟩)) = .next final ∧
      Relation.ReflTransGen final.Above 1 final.initproc := by
  refine Outcome.next_and ⟨_, rfl⟩ fun final reached => ?_
  exact (processes_form_tree _ final reached).2 1 (by cases reached; decide)

/-! ## The panics -/

section

variable [DecidableEq Cpu] {cpu : Cpu} {lock : Slot} {rest : List Slot} {reason : Panic}
  (placed : Placed machine)
include placed

theorem acquire_ne_halted (missing : lock ∉ held machine cpu) {rest : Machine Cpu → Machine Cpu} :
    ((machine.acquire cpu lock).andThen fun machine => .next (rest machine)) ≠ .halted reason := by
  unfold Machine.acquire
  split
  · nofun
  · rename_i other taken
    have different : other ≠ cpu := by
      rintro rfl
      exact missing ((placed.locks.owned lock other).mp taken)
    rw [if_neg different]
    nofun

theorem wakeup1_ne_halted (locked : slot ∈ held machine cpu) {rest : Machine Cpu → Machine Cpu} :
    ((machine.wakeup1 cpu slot).andThen fun machine => .next (rest machine)) ≠ .halted reason := by
  unfold Machine.wakeup1
  rw [if_neg (not_not_intro ((placed.locks.owned slot cpu).mpr locked))]
  nofun

theorem sched_ne_halted {parked : Machine Cpu} (owner : parked.owner = machine.owner)
    (position : parked.position = machine.position) (runs : machine.position cpu = .run thread rest)
    (released : (parked.pc thread).lk = 0)
    (single : held machine cpu = [thread]) (stopped : (parked.procs thread).state ≠ .RUNNING) :
    parked.sched cpu thread rest ≠ .halted reason := by
  have owned : ∀ slot, parked.owner slot = some cpu ↔ slot = thread := by
    intro slot
    rw [owner, placed.locks.owned, single, List.mem_singleton]
  have one : parked.noff cpu = 1 := by
    have counted : slots.count thread = 1 :=
      List.count_eq_one_of_mem (List.nodup_finRange _) (List.mem_finRange thread)
    simp only [Machine.noff, owned, position, runs, released]
    exact counted
  unfold Machine.sched
  rw [if_neg (not_not_intro ((owned thread).mpr rfl)), if_neg (not_not_intro one), if_neg stopped]
  nofun

end

namespace Sound

variable (sound : Sound machine)
include sound

/-- Nobody acquires a lock that it holds: a child is not its own parent, and
the parent that `exit` remembers is not one of the children. -/
theorem not_held {lock : Slot}
    (wants : wanted machine.initproc thread (machine.pc thread) = some (lock, pc)) :
    lock ∉ heldAt machine.initproc thread (machine.pc thread) := by
  have fits := sound.lineage.fits thread
  have stale := sound.descends.stale thread
  have notSelf : ∀ slot, (machine.procs slot).parent = some thread → slot ≠ thread := by
    rintro slot parent rfl
    exact Nat.lt_irrefl _ (sound.descends.older slot slot parent)
  generalize machine.pc thread = here at wants fits stale
  cases here with
  | killScan pid todo | forkScan todo => simp [heldAt]
  | waitChild np todo =>
    cases wants
    simpa [heldAt] using notSelf lock (fits.child lock rfl)
  | exitSelf status op =>
    cases wants
    simpa [heldAt] using (stale op rfl).1.symm
  | reparentChild status op pp todo =>
    cases wants
    have mine := fits.child lock rfl
    have other : lock ≠ op := by
      rintro rfl
      exact (stale lock rfl).2 mine
    simpa [heldAt] using ⟨notSelf lock mine, other⟩
  | _ =>
    cases wants
    all_goals simp [heldAt]

variable [DecidableEq Cpu] {cpu : Cpu} {rest : List Slot} {reason : Panic} {luck : Luck}

theorem advance_ne_halted (runs : machine.position cpu = .run thread rest)
    (calm : machine.waker cpu = .off) (plain : machine.trap thread = .none) :
    advance machine cpu thread rest luck ≠ .halted reason := by
  have placed := sound.placed
  have hold := Placed.held_here calm runs plain
  have acquires : ∀ lock pc, wanted machine.initproc thread (machine.pc thread) = some (lock, pc) →
      ((machine.acquire cpu lock).andThen fun machine => .next (machine.goto thread pc)) ≠
        .halted reason := fun lock pc wants =>
    acquire_ne_halted placed (hold ▸ sound.not_held wants)
  intro halts
  unfold advance at halts
  generalize here : machine.pc thread = pc at halts
  rw [here] at hold
  cases pc with
  | user | forkret | sleepBack | waitBack | reparentGive _ _ _ _ => cases halts
  | dead =>
    have isEnded := sound.descends.ended thread (by rw [here]; rfl)
    rcases placed.running cpu thread rest runs with running | ⟨_, _, exiting⟩
    · simp [running] at isEnded
    · rw [here] at exiting
      cases exiting
  | sleepLock _ | waitEnter | waitChild _ _ | exitInit _ | exitEnter _ | exitParent _ _
  | exitSelf _ _ | reparentChild _ _ _ _ => exact acquires _ _ (by rw [here]; rfl) halts
  | killScan pid todo | forkScan todo =>
    cases todo with
    | nil => cases halts
    | cons slot todo => exact acquires _ _ (by rw [here]; rfl) halts
  | killTest _ _ _ | forkTest _ _ | forkFill _ | waitLook _ _ =>
    dsimp only at halts
    split at halts <;> cases halts
  | sleepSet address =>
    exact sched_ne_halted placed (by rfl) (by rfl) runs (by simp [Pc.lk]) hold (by simp) halts
  | waitScan todo havekids =>
    cases todo with
    | nil =>
      dsimp only at halts
      split at halts
      · cases halts
      · exact sched_ne_halted placed (by rfl) (by rfl) runs (by simp [Pc.lk]) hold (by simp) halts
    | cons np todo =>
      dsimp only at halts
      split at halts <;> cases halts
  | exitWakeInit status => exact wakeup1_ne_halted placed (by rw [hold]; simp [heldAt]) halts
  | exitRead status =>
    dsimp only at halts
    split at halts
    · rename_i orphan
      have ordinary := (sound.lineage.fits thread).ordinary (by rw [here]; rfl)
      exact sound.lineage.child thread ordinary (placed.not_idle runs).1 orphan
    · cases halts
  | reparentScan status op todo =>
    cases todo with
    | nil => cases halts
    | cons pp todo =>
      dsimp only at halts
      split at halts <;> cases halts
  | exitZombie status op => exact wakeup1_ne_halted placed (by rw [hold]; simp [heldAt]) halts
  | exitSched =>
    have isEnded := sound.descends.ended thread (by rw [here]; rfl)
    refine sched_ne_halted placed (by rfl) (by rfl) runs (by simp [Pc.lk]) hold ?_ halts
    rcases isEnded with isZombie | isUnused
    · simp [isZombie]
    · simp [isUnused]

theorem halted {action : Action Cpu} (halts : step machine action = .halted reason) :
    reason = .initExiting := by
  have placed := sound.placed
  cases action with
  | schedule cpu =>
    simp only [step, schedule] at halts
    split at halts
    · rename_i calm
      split at halts
      case h_2 slot rest position =>
        refine absurd halts (acquire_ne_halted placed ?_)
        simp [Placed.held_eq calm, baseHeld, position]
      case h_3 => split at halts <;> cases halts
      all_goals cases halts
    · cases halts
  | call cpu call =>
    simp only [step] at halts
    split at halts
    · split at halts
      · cases call with
        | exit status =>
          simp only [enter] at halts
          split at halts
          · cases halts
            rfl
          · cases halts
        | _ => cases halts
      · cases halts
    · cases halts
  | advance cpu luck =>
    simp only [step] at halts
    split at halts
    · rename_i thread rest runs
      split at halts
      · rename_i calm
        have hold := Placed.held_run calm runs
        simp only [run] at halts
        split at halts
        · exact absurd halts (sound.advance_ne_halted runs calm ‹_›)
        · refine absurd halts (acquire_ne_halted placed ?_)
          simp [threadHeld, *]
        · have noLk := sound.uninterrupted thread (by simp [*])
          refine absurd halts (sched_ne_halted placed (by rfl) (by rfl) runs noLk ?_ (by simp))
          simp [threadHeld, *]
        · cases halts
      · cases halts
    · cases halts
  | timer cpu =>
    simp only [step] at halts
    split at halts
    · split at halts <;> cases halts
    · cases halts
  | wakeup cpu address =>
    simp only [step] at halts
    split at halts <;> cases halts
  | wake cpu =>
    simp only [step, wake] at halts
    split at halts
    case h_3 address slot todo waker =>
      refine absurd halts (acquire_ne_halted placed ?_)
      simp [held, waker, placed.quiet cpu (by simp [waker])]
    all_goals cases halts

end Sound

/-- No interleaving of any number of CPUs reaches a panic of `acquire`, `sched`
or `wakeup1`, follows the missing parent of an exiting process or runs a process
that has exited.  The one way to stop the kernel is that init itself exits. -/
theorem only_init_exiting [DecidableEq Cpu] (schedule : List (Action Cpu)) (reason : Panic)
    (halts : exec step boot schedule = .halted reason) : reason = .initExiting := by
  rcases exec_eq_halted halts with ⟨before, action, after, middle, _, reached, halts⟩
  exact (Sound.reached reached).halted halts

/-- Init starts and exits. -/
def exitFirst : List (Action (Fin 2)) :=
  [.schedule 0, .schedule 0, .advance 0 ⟨.enough, true⟩, .call 0 (.exit 0)]

theorem only_init_exiting_exitFirst : ∃ reason,
    exec step boot exitFirst = .halted reason ∧ reason = .initExiting :=
  ⟨_, rfl, only_init_exiting exitFirst _ rfl⟩

end Sched
end Process
end Xv6
