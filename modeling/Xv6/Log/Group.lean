import Mathlib.Algebra.Order.BigOperators.Group.Finset
import Mathlib.Data.Finset.Basic
import Mathlib.Data.Int.Order.Basic
import Xv6.Foundation.Run
import Xv6.Foundation.Tally
import Xv6.Log.State

namespace Xv6
namespace Log
namespace Group

open Foundation Function

/-!
# Group commit

Any number of processes bracket their operations with `begin_op` and
`end_op`.  The last operation to end commits for all of them, without holding
`log.lock`, while others may arrive and go to sleep.  Every critical section
of `kernel/log.c` is one step here, and so is what runs between two of them:
the bound check of `log_write` and the body of `commit`.

The operations are not limited to `MAXOPBLOCKS` blocks.  How long the header
can then become is a question about `log_write`'s bound check, which is
studied with the log region; here the header is a list of any length.

Two history variables record what no field of `struct log` does: the headers
written by the commits so far, and the operations that have ended, with the
blocks they logged and the numbers of the commits done when they began and
when they ended.
-/

/-- An operation between its `begin_op` and its `end_op`: how many commits
had been done when it began, and what it has logged. -/
structure Operation where
  began : Nat
  logged : List Nat
deriving DecidableEq, Repr

/-- An operation that has ended, with the number of commits done by then. -/
structure Ended extends Operation where
  ended : Nat
deriving DecidableEq, Repr

/-- What a process is doing with the log.  `woken` is a process that will run
the loop of `begin_op` once more; `pending` is the block of a `log_write`
that has passed its bound check. -/
inductive Phase where
  | outside
  | woken
  | asleep
  | inside (op : Operation) (pending : Option Nat)
  | committing
  | committed
deriving DecidableEq, Repr

/-- The log, the pins that `log_write` has taken on each block's buffer, and
the processes. -/
structure System (Pid : Type) where
  log : LogState
  pins : Nat → Int
  phase : Pid → Phase
  commits : List (List Nat)
  closed : List Ended

variable {Pid : Type}

/-- After `initlog` has recovered from the disk, no block is logged. -/
def System.boot (dev : Nat) (sb : Superblock) : System Pid where
  log := initlog dev sb
  pins := fun _ => 0
  phase := fun _ => .outside
  commits := []
  closed := []

/-- `wakeup(&log)`. -/
def wakeup (phase : Pid → Phase) : Pid → Phase :=
  fun pid => if phase pid = .asleep then .woken else phase pid

/-- The steps of a process at the granularity of `log.lock`.  A process that
is killed in its sleep wakes up like any other and runs the loop again. -/
inductive Action (Pid : Type) where
  | beginOp (pid : Pid)
  | kill (pid : Pid)
  | check (pid : Pid) (blockno : Nat)
  | append (pid : Pid)
  | endOp (pid : Pid)
  | commit (pid : Pid)
  | finish (pid : Pid)

variable [DecidableEq Pid]

/-- One step.  It is blocked if the process is not at the point of its
operation at which the step may be taken. -/
def step (system : System Pid) : Action Pid → Outcome Panic (System Pid)
  | .beginOp pid =>
    if system.phase pid = .outside ∨ system.phase pid = .woken then
      match Log.beginOp system.log with
      | none => .next { system with phase := update system.phase pid .asleep }
      | some log =>
        .next { system with
          log := log
          phase := update system.phase pid (.inside ⟨system.commits.length, []⟩ none) }
    else .blocked
  | .kill pid =>
    if system.phase pid = .asleep then
      .next { system with phase := update system.phase pid .woken }
    else .blocked
  | .check pid blockno =>
    match system.phase pid with
    | .inside op none =>
      match logWriteCheck system.log with
      | some panic => .halted panic
      | none =>
        .next { system with
          phase := update system.phase pid (.inside op (some blockno)) }
    | _ => .blocked
  | .append pid =>
    match system.phase pid with
    | .inside op (some blockno) =>
      .next { system with
        log := logWriteAppend system.log blockno
        pins := if blockno ∈ system.log.lh then system.pins
          else update system.pins blockno (system.pins blockno + 1)
        phase := update system.phase pid (.inside { op with logged := blockno :: op.logged } none) }
    | _ => .blocked
  | .endOp pid =>
    match system.phase pid with
    | .inside op none =>
      match Log.endOp system.log with
      | .error panic => .halted panic
      | .ok (log, doCommit) =>
        .next { system with
          log := log
          phase := if doCommit then update system.phase pid .committing
            else wakeup (update system.phase pid .outside)
          closed := { op with ended := system.commits.length } :: system.closed }
    | _ => .blocked
  | .commit pid =>
    if system.phase pid = .committing then
      .next { system with
        log := { system.log with lh := [] }
        pins := fun blockno => system.pins blockno - system.log.lh.count blockno
        phase := update system.phase pid .committed
        commits := system.commits ++ [system.log.lh] }
    else .blocked
  | .finish pid =>
    if system.phase pid = .committed then
      .next { system with
        log := { system.log with committing := false }
        phase := wakeup (update system.phase pid .outside) }
    else .blocked

/-! ## What the protocol promises -/

/-- All that the operation logged is written by the first commit after its
begin: by then nothing else has been committed in between, and until then all
of it stands in the header. -/
def WrittenTogether (system : System Pid) (op : Operation) : Prop :=
  (∃ blocks, system.commits[op.began]? = some blocks ∧ op.logged ⊆ blocks) ∨
    (system.commits.length = op.began ∧ op.logged ⊆ system.log.lh)

/-- What holds of the log whenever `log.lock` is free. -/
structure Protocol (system : System Pid) : Prop where
  /-- No operation is open during a commit, and no `log_write` can happen. -/
  exclusive : system.log.committing = true →
    system.log.outstanding = 0 ∧
      ∀ pid, (∀ blockno, step system (.check pid blockno) = .blocked) ∧
        step system (.append pid) = .blocked
  /-- Whoever is waited for is there: some process is committing. -/
  committer : system.log.committing = true →
    ∃ pid, system.phase pid = .committing ∨ system.phase pid = .committed
  /-- No commit is done while an operation is open. -/
  undivided : ∀ pid op pending, system.phase pid = .inside op pending →
    op.began = system.commits.length ∧ op.logged ⊆ system.log.lh
  together : ∀ op ∈ system.closed, op.ended = op.began ∧ WrittenTogether system op.toOperation
  /-- With no operation open and no commit running, all of them are committed. -/
  drained : system.log.outstanding = 0 → system.log.committing = false → system.log.lh = [] ∧
    ∀ op ∈ system.closed, ∃ blocks, system.commits[op.began]? = some blocks ∧ op.logged ⊆ blocks
  nodup : system.log.lh.Nodup
  pinned : ∀ blockno, system.pins blockno = if blockno ∈ system.log.lh then 1 else 0
  /-- A sleeper has a reason to sleep. -/
  sleeping : ∀ pid, system.phase pid = .asleep → system.log.committing = true ∨
    (system.log.lh.length : Int) + (system.log.outstanding + 1) * MAXOPBLOCKS > LOGSIZE

/-! ## Phases after an update -/

namespace Phase

/-- One for a process that `log.outstanding` counts. -/
def weight : Phase → Int
  | .inside _ _ => 1
  | _ => 0

/-- The process is between the two critical sections of the last `end_op`. -/
def Busy (phase : Phase) : Prop :=
  phase = .committing ∨ phase = .committed

theorem weight_nonneg (phase : Phase) : 0 ≤ phase.weight := by
  cases phase <;> simp [weight]

end Phase

variable {phase : Pid → Phase} {pid : Pid}

section

omit [DecidableEq Pid]

theorem wakeup_ne_asleep (phase : Pid → Phase) (pid : Pid) : wakeup phase pid ≠ .asleep := by
  unfold wakeup
  split
  · intro impossible
    cases impossible
  · assumption

theorem wakeup_eq_self (awake : ∀ pid, phase pid ≠ .asleep) : wakeup phase = phase := by
  funext pid
  rw [wakeup, if_neg (awake pid)]

theorem wakeup_eq_iff {value : Phase} (notWoken : value ≠ .woken)
    (notAsleep : value ≠ .asleep) : wakeup phase pid = value ↔ phase pid = value := by
  unfold wakeup
  split
  · rename_i sleeping
    rw [sleeping]
    exact ⟨fun same => absurd same.symm notWoken, fun same => absurd same.symm notAsleep⟩
  · rfl

theorem wakeup_weight (phase : Pid → Phase) (pid : Pid) :
    (wakeup phase pid).weight = (phase pid).weight := by
  unfold wakeup
  split
  · rename_i sleeping
    rw [sleeping]
    rfl
  · rfl

theorem wakeup_busy : (wakeup phase pid).Busy ↔ (phase pid).Busy := by
  unfold Phase.Busy
  rw [wakeup_eq_iff (by simp) (by simp), wakeup_eq_iff (by simp) (by simp)]

end

/-! ## Inversion of a step -/

/-- Everything a step can do, guards included. -/
inductive Stepped (system : System Pid) : Action Pid → System Pid → Prop where
  | sleep (pid : Pid) (ready : system.phase pid = .outside ∨ system.phase pid = .woken)
      (reason : system.log.committing = true ∨
        (system.log.lh.length : Int) + (system.log.outstanding + 1) * MAXOPBLOCKS > LOGSIZE) :
      Stepped system (.beginOp pid) { system with phase := update system.phase pid .asleep }
  | enter (pid : Pid) (ready : system.phase pid = .outside ∨ system.phase pid = .woken)
      (idle : system.log.committing = false) :
      Stepped system (.beginOp pid)
        { system with
          log := { system.log with outstanding := system.log.outstanding + 1 }
          phase := update system.phase pid (.inside ⟨system.commits.length, []⟩ none) }
  | kill (pid : Pid) (sleeping : system.phase pid = .asleep) :
      Stepped system (.kill pid) { system with phase := update system.phase pid .woken }
  | check (pid : Pid) (blockno : Nat) (op : Operation)
      (open' : system.phase pid = .inside op none) :
      Stepped system (.check pid blockno)
        { system with phase := update system.phase pid (.inside op (some blockno)) }
  | append (pid : Pid) (blockno : Nat) (op : Operation)
      (open' : system.phase pid = .inside op (some blockno)) :
      Stepped system (.append pid)
        { system with
          log := logWriteAppend system.log blockno
          pins := if blockno ∈ system.log.lh then system.pins
            else update system.pins blockno (system.pins blockno + 1)
          phase := update system.phase pid
            (.inside { op with logged := blockno :: op.logged } none) }
  | leave (pid : Pid) (op : Operation) (open' : system.phase pid = .inside op none)
      (idle : system.log.committing = false) (others : system.log.outstanding ≠ 1) :
      Stepped system (.endOp pid)
        { system with
          log := { system.log with outstanding := system.log.outstanding - 1 }
          phase := wakeup (update system.phase pid .outside)
          closed := { op with ended := system.commits.length } :: system.closed }
  | last (pid : Pid) (op : Operation) (open' : system.phase pid = .inside op none)
      (idle : system.log.committing = false) (alone : system.log.outstanding = 1) :
      Stepped system (.endOp pid)
        { system with
          log := { system.log with outstanding := 0, committing := true }
          phase := update system.phase pid .committing
          closed := { op with ended := system.commits.length } :: system.closed }
  | commit (pid : Pid) (busy : system.phase pid = .committing) :
      Stepped system (.commit pid)
        { system with
          log := { system.log with lh := [] }
          pins := fun blockno => system.pins blockno - system.log.lh.count blockno
          phase := update system.phase pid .committed
          commits := system.commits ++ [system.log.lh] }
  | finish (pid : Pid) (busy : system.phase pid = .committed) :
      Stepped system (.finish pid)
        { system with
          log := { system.log with committing := false }
          phase := wakeup (update system.phase pid .outside) }

variable {system next : System Pid} {action : Action Pid}

theorem stepped_of_step
    (stepped : step system action = .next next) : Stepped system action next := by
  cases action with
  | beginOp pid =>
    rcases guard_eq_next.mp stepped with ⟨ready, stepped⟩
    split at stepped
    · rename_i refused
      cases stepped
      refine .sleep pid ready ?_
      by_contra fits
      rw [not_or, Bool.not_eq_true] at fits
      have admitted := beginOp_eq_some.mpr ⟨fits.1, Int.not_lt.mp fits.2, rfl⟩
      rw [refused] at admitted
      cases admitted
    · rename_i log admitted
      cases stepped
      rcases beginOp_eq_some.mp admitted with ⟨idle, _, rfl⟩
      exact .enter pid ready idle
  | kill pid =>
    rcases guard_eq_next.mp stepped with ⟨guard, stepped⟩
    cases stepped
    exact .kill pid guard
  | check pid blockno =>
    simp only [step] at stepped
    split at stepped
    · rename_i op isOpen
      split at stepped
      · cases stepped
      · cases stepped
        exact .check pid blockno op isOpen
    · cases stepped
  | append pid =>
    simp only [step] at stepped
    split at stepped
    · rename_i op blockno isOpen
      cases stepped
      exact .append pid blockno op isOpen
    · cases stepped
  | endOp pid =>
    simp only [step] at stepped
    split at stepped
    · rename_i op isOpen
      cases idle : system.log.committing with
      | true =>
        simp only [Log.endOp, idle, if_true] at stepped
        cases stepped
      | false =>
        rw [endOp_of_idle idle] at stepped
        by_cases alone : system.log.outstanding = 1
        · simp only [alone, if_true] at stepped
          cases stepped
          exact .last pid op isOpen idle alone
        · simp only [alone, if_false] at stepped
          cases stepped
          exact .leave pid op isOpen idle alone
    · cases stepped
  | commit pid =>
    rcases guard_eq_next.mp stepped with ⟨guard, stepped⟩
    cases stepped
    exact .commit pid guard
  | finish pid =>
    rcases guard_eq_next.mp stepped with ⟨guard, stepped⟩
    cases stepped
    exact .finish pid guard

/-! ## Who is inside, and who commits -/

variable [Fintype Pid]

/-- The counter and the flag agree with the phases of the processes: only the
process that set the flag is busy, and it is alone. -/
structure Counted (system : System Pid) : Prop where
  outstanding : system.log.outstanding = ∑ pid, (system.phase pid).weight
  quiet : system.log.committing = true → system.log.outstanding = 0
  busy : ∀ pid, (system.phase pid).Busy → system.log.committing = true
  single : ∀ pid other, (system.phase pid).Busy → (system.phase other).Busy → pid = other
  committer : system.log.committing = true → ∃ pid, (system.phase pid).Busy

variable {op : Operation} {pending : Option Nat}

namespace Counted

section

omit [DecidableEq Pid]

theorem boot (dev : Nat) (sb : Superblock) : Counted (System.boot dev sb : System Pid) where
  outstanding := by simp [System.boot, initlog, Phase.weight]
  quiet := fun _ => rfl
  busy := by
    rintro pid (impossible | impossible) <;> cases impossible
  single := by
    rintro pid other (impossible | impossible) <;> cases impossible
  committer := by
    intro impossible
    cases impossible

variable (counted : Counted system)
include counted

theorem outstanding_pos (isOpen : system.phase pid = .inside op pending) :
    1 ≤ system.log.outstanding := by
  rw [counted.outstanding]
  have bound := Finset.single_le_sum
    (fun other _ => (system.phase other).weight_nonneg) (Finset.mem_univ pid)
  rwa [isOpen] at bound

theorem not_inside (committing : system.log.committing = true)
    (pid : Pid) (op : Operation) (pending : Option Nat) :
    system.phase pid ≠ .inside op pending := by
  intro isOpen
  have positive := counted.outstanding_pos isOpen
  have zero := counted.quiet committing
  omega

theorem idle_of_inside (isOpen : system.phase pid = .inside op pending) :
    system.log.committing = false := by
  cases committing : system.log.committing with
  | true => exact absurd isOpen (counted.not_inside committing pid op pending)
  | false => rfl

end

omit [Fintype Pid] in
theorem busy_update {other : Pid} {value : Phase}
    (notBusy : ¬ value.Busy) (busy : (update phase pid value other).Busy) :
    other ≠ pid ∧ (phase other).Busy := by
  by_cases same : other = pid
  · subst other
    rw [update_self] at busy
    exact absurd busy notBusy
  · rw [update_of_ne same] at busy
    exact ⟨same, busy⟩

variable (counted : Counted system)
include counted

/-- A step of a process that is not busy before or after it, with the flag
left alone. -/
theorem calm (pid : Pid) (value : Phase) (wasCalm : ¬ (system.phase pid).Busy) (calm : ¬ value.Busy)
    (flag : next.log.committing = system.log.committing)
    (moved : phase = update system.phase pid value)
    (busy : ∀ other, (next.phase other).Busy ↔ (phase other).Busy)
    (weights : ∀ other, (next.phase other).weight = (phase other).weight)
    (count : next.log.outstanding + (system.phase pid).weight =
      system.log.outstanding + value.weight)
    (quiet : system.log.committing = true → next.log.outstanding = 0) : Counted next := by
  subst phase
  refine ⟨?_, ?_, ?_, ?_, ?_⟩
  · have total := sum_update Phase.weight system.phase pid value
    rw [Finset.sum_congr rfl fun other _ => weights other]
    have before := counted.outstanding
    omega
  · rw [flag]
    exact quiet
  · intro other isBusy
    rw [flag]
    exact counted.busy other (busy_update calm ((busy other).mp isBusy)).2
  · intro one other oneBusy otherBusy
    exact counted.single one other (busy_update calm ((busy one).mp oneBusy)).2
      (busy_update calm ((busy other).mp otherBusy)).2
  · intro committing
    rw [flag] at committing
    rcases counted.committer committing with ⟨other, isBusy⟩
    refine ⟨other, (busy other).mpr ?_⟩
    rw [update_of_ne]
    · exact isBusy
    · rintro rfl
      exact wasCalm isBusy

theorem retire (busy : (system.phase pid).Busy) (flag : next.log.committing = false)
    (outstanding : next.log.outstanding = system.log.outstanding)
    (phases : ∀ other, (next.phase other).Busy →
      (update system.phase pid .outside other).Busy) (weights : ∀ other, (next.phase other).weight =
      (update system.phase pid .outside other).weight) : Counted next := by
  have nobody : ∀ other, ¬ (next.phase other).Busy := by
    intro other isBusy
    rcases busy_update (by simp [Phase.Busy]) (phases other isBusy) with ⟨different, wasBusy⟩
    exact different (counted.single other pid wasBusy busy)
  refine ⟨?_, ?_, fun other isBusy => absurd isBusy (nobody other),
    fun one _ isBusy => absurd isBusy (nobody one), ?_⟩
  · have total := sum_update Phase.weight system.phase pid .outside
    have nothing : (system.phase pid).weight = 0 := by
      rcases busy with busy | busy <;> rw [busy] <;> rfl
    rw [← counted.outstanding, nothing] at total
    rw [outstanding, Finset.sum_congr rfl fun other _ => weights other]
    exact (add_right_cancel total).symm
  · intro impossible
    rw [flag] at impossible
    cases impossible
  · intro impossible
    rw [flag] at impossible
    cases impossible

/-- No step upsets the count. -/
theorem after (stepped : Stepped system action next) : Counted next := by
  cases stepped with
  | sleep pid ready _ =>
    refine counted.calm pid .asleep ?_ ?_ rfl rfl (fun _ => Iff.rfl) (fun _ => rfl) ?_ counted.quiet
    all_goals rcases ready with ready | ready <;> simp [Phase.Busy, Phase.weight, ready]
  | enter pid ready idle =>
    refine counted.calm pid (.inside ⟨system.commits.length, []⟩ none) ?_ ?_
      rfl rfl (fun _ => Iff.rfl) (fun _ => rfl) ?_ ?_
    · rcases ready with ready | ready <;> simp [Phase.Busy, ready]
    · simp [Phase.Busy]
    · rcases ready with ready | ready <;> simp [Phase.weight, ready]
    · intro committing
      rw [idle] at committing
      cases committing
  | kill pid sleeping =>
    refine counted.calm pid .woken ?_ ?_ rfl rfl (fun _ => Iff.rfl) (fun _ => rfl) ?_ counted.quiet
    all_goals simp [Phase.Busy, Phase.weight, sleeping]
  | check pid blockno op isOpen =>
    refine counted.calm pid (.inside op (some blockno)) ?_ ?_ rfl rfl
      (fun _ => Iff.rfl) (fun _ => rfl) ?_ counted.quiet
    all_goals simp [Phase.Busy, Phase.weight, isOpen]
  | append pid blockno op isOpen =>
    refine counted.calm pid (.inside { op with logged := blockno :: op.logged } none) ?_ ?_
      (logWriteAppend_committing _ _) rfl (fun _ => Iff.rfl) (fun _ => rfl) ?_ ?_
    · simp [Phase.Busy, isOpen]
    · simp [Phase.Busy]
    · simp [Phase.weight, isOpen]
    · simpa using counted.quiet
  | leave pid op isOpen idle _ =>
    refine counted.calm pid .outside ?_ ?_ rfl rfl (fun _ => wakeup_busy) (wakeup_weight _) ?_ ?_
    · simp [Phase.Busy, isOpen]
    · simp [Phase.Busy]
    · simp [Phase.weight, isOpen]
    · intro committing
      rw [idle] at committing
      cases committing
  | last pid op isOpen idle alone =>
    have only : ∀ other, (update system.phase pid .committing other).Busy → other = pid := by
      intro other isBusy
      by_contra different
      rw [update_of_ne different] at isBusy
      have committing := counted.busy other isBusy
      rw [idle] at committing
      cases committing
    refine ⟨?_, fun _ => rfl, fun _ _ => rfl, ?_, fun _ => ⟨pid, ?_⟩⟩
    · have total := sum_update Phase.weight system.phase pid .committing
      rw [← counted.outstanding, alone, isOpen] at total
      simp only [Phase.weight] at total ⊢
      omega
    · intro one other oneBusy otherBusy
      rw [only one oneBusy, only other otherBusy]
    · exact Or.inl (update_self pid Phase.committing system.phase)
  | commit pid busy =>
    have committing := counted.busy pid (Or.inl busy)
    have busyBefore : ∀ other, (update system.phase pid .committed other).Busy →
        (system.phase other).Busy := by
      intro other isBusy
      by_cases same : other = pid
      · rw [same]
        exact Or.inl busy
      · rwa [update_of_ne same] at isBusy
    refine ⟨?_, counted.quiet, fun _ _ => committing, ?_, fun _ => ⟨pid, ?_⟩⟩
    · have total := sum_update Phase.weight system.phase pid .committed
      rw [← counted.outstanding, busy] at total
      exact (add_right_cancel total).symm
    · intro one other oneBusy otherBusy
      exact counted.single one other (busyBefore one oneBusy) (busyBefore other otherBusy)
    · exact Or.inr (update_self pid Phase.committed system.phase)
  | finish pid busy =>
    exact counted.retire (Or.inr busy) rfl rfl (fun _ => wakeup_busy.mp) (wakeup_weight _)

end Counted

/-! ## The header and the operations -/

/-- The part of the promise that is about the header: what it lists, who is
pinned, and which operations it belongs to. -/
structure Gathered (system : System Pid) : Prop where
  emptied : ∀ pid, system.phase pid = .committed → system.log.lh = []
  nodup : system.log.lh.Nodup
  pinned : ∀ blockno, system.pins blockno = if blockno ∈ system.log.lh then 1 else 0
  undivided : ∀ pid op pending, system.phase pid = .inside op pending →
    op.began = system.commits.length ∧ op.logged ⊆ system.log.lh
  together : ∀ op ∈ system.closed, op.ended = op.began ∧ WrittenTogether system op.toOperation

/-- Nobody sleeps without a reason. -/
def Excused (system : System Pid) : Prop :=
  ∀ pid, system.phase pid = .asleep → system.log.committing = true ∨
    (system.log.lh.length : Int) + (system.log.outstanding + 1) * MAXOPBLOCKS > LOGSIZE

namespace Gathered

omit [DecidableEq Pid] [Fintype Pid] in
theorem boot (dev : Nat) (sb : Superblock) : Gathered (System.boot dev sb : System Pid) where
  emptied := fun _ _ => rfl
  nodup := List.nodup_nil
  pinned := fun _ => rfl
  undivided := by
    intro pid op pending impossible
    cases impossible
  together := by
    intro op impossible
    cases impossible

omit [Fintype Pid] in
/-- A step that leaves the header, the pins and the history alone, and whose
process does not commit. -/
theorem quiet (gathered : Gathered system) (pid : Pid) (value : Phase)
    (moved : phase = update system.phase pid value)
    (phases : ∀ other, next.phase other = phase other ∨
      (phase other = .asleep ∧ next.phase other = .woken))
    (header : next.log.lh = system.log.lh) (pins : next.pins = system.pins)
    (commits : next.commits = system.commits) (calm : value ≠ .committed)
    (inside : ∀ op pending, value = .inside op pending →
      op.began = system.commits.length ∧ op.logged ⊆ system.log.lh)
    (together : ∀ op ∈ next.closed, op.ended = op.began ∧ WrittenTogether system op.toOperation) :
    Gathered next := by
  subst phase
  have known : ∀ other kept, kept ≠ .woken → next.phase other = kept →
      value = kept ∨ system.phase other = kept := by
    intro other kept notWoken isKept
    rcases phases other with same | ⟨_, woken⟩
    · rw [same] at isKept
      exact (update_eq_cases isKept).imp And.right And.right
    · exact absurd (isKept.symm.trans woken) notWoken
  refine ⟨?_, header ▸ gathered.nodup, ?_, ?_, ?_⟩
  · intro other committed
    rw [header]
    rcases known other _ (by simp) committed with impossible | before
    · exact absurd impossible calm
    · exact gathered.emptied other before
  · rw [header, pins]
    exact gathered.pinned
  · intro other op pending isOpen
    rw [header, commits]
    rcases known other _ (by simp) isOpen with entered | before
    · exact inside op pending entered
    · exact gathered.undivided other op pending before
  · intro op ended
    rcases together op ended with ⟨same, written⟩
    refine ⟨same, ?_⟩
    rw [WrittenTogether, commits, header]
    exact written

omit [DecidableEq Pid] [Fintype Pid] in
theorem phases_wakeup (phase : Pid → Phase) (other : Pid) :
    wakeup phase other = phase other ∨ (phase other = .asleep ∧ wakeup phase other = .woken) := by
  unfold wakeup
  split
  · exact Or.inr ⟨‹_›, rfl⟩
  · exact Or.inl rfl

omit [DecidableEq Pid] [Fintype Pid] in
/-- Ending an operation files it with what it has logged. -/
theorem filed (gathered : Gathered system) (isOpen : system.phase pid = .inside op none) :
    ∀ ended ∈ ({ op with ended := system.commits.length } : Ended) :: system.closed,
      ended.ended = ended.began ∧ WrittenTogether system ended.toOperation := by
  rcases gathered.undivided pid op none isOpen with ⟨began, logged⟩
  intro ended member
  rcases List.mem_cons.mp member with rfl | earlier
  · exact ⟨began.symm, Or.inr ⟨began.symm, logged⟩⟩
  · exact gathered.together ended earlier

omit [Fintype Pid] in
/-- `log_write` adds its block to the header and to its own operation. -/
theorem append (gathered : Gathered system) {blockno : Nat}
    (isOpen : system.phase pid = .inside op (some blockno))
    (nobody : ∀ other, system.phase other ≠ .committed) :
    Gathered { system with
      log := logWriteAppend system.log blockno
      pins := if blockno ∈ system.log.lh then system.pins
        else update system.pins blockno (system.pins blockno + 1)
      phase := update system.phase pid
        (.inside { op with logged := blockno :: op.logged } none) } := by
  have grows : system.log.lh ⊆ (logWriteAppend system.log blockno).lh := fun other member =>
    (mem_logWriteAppend system.log blockno other).mpr (Or.inr member)
  refine ⟨?_, logWriteAppend_nodup gathered.nodup blockno, ?_, ?_, ?_⟩
  · intro other committed
    rcases update_eq_cases committed with ⟨_, impossible⟩ | ⟨_, before⟩
    · cases impossible
    · exact absurd before (nobody other)
  · intro other
    simp only [mem_logWriteAppend]
    by_cases present : blockno ∈ system.log.lh
    · rw [if_pos present, gathered.pinned]
      by_cases same : other = blockno
      · simp [same, present]
      · simp [same]
    · rw [if_neg present]
      by_cases same : other = blockno
      · subst other
        rw [update_self, gathered.pinned]
        simp [present]
      · rw [update_of_ne same, gathered.pinned]
        simp [same]
  · intro other opened pending inside
    rcases update_eq_cases inside with ⟨rfl, same⟩ | ⟨_, before⟩
    · cases same
      rcases gathered.undivided other op _ isOpen with ⟨began, logged⟩
      refine ⟨began, List.cons_subset.mpr ⟨?_, List.Subset.trans logged grows⟩⟩
      exact (mem_logWriteAppend system.log blockno blockno).mpr (Or.inl rfl)
    · rcases gathered.undivided other opened pending before with ⟨began, logged⟩
      exact ⟨began, List.Subset.trans logged grows⟩
  · intro ended member
    rcases gathered.together ended member with ⟨sameTime, written | ⟨later, logged⟩⟩
    · exact ⟨sameTime, Or.inl written⟩
    · exact ⟨sameTime, Or.inr ⟨later, List.Subset.trans logged grows⟩⟩

omit [Fintype Pid] in
/-- A commit writes the whole header: every operation that was waiting for it
is written by this one commit. -/
theorem commit (gathered : Gathered system) (pid : Pid)
    (nobody : ∀ other op pending, system.phase other ≠ .inside op pending) :
    Gathered { system with
      log := { system.log with lh := [] }
      pins := fun blockno => system.pins blockno - system.log.lh.count blockno
      phase := update system.phase pid .committed
      commits := system.commits ++ [system.log.lh] } := by
  refine ⟨fun _ _ => rfl, List.nodup_nil, ?_, ?_, ?_⟩
  · intro blockno
    simp only [gathered.pinned, List.Nodup.count gathered.nodup, List.not_mem_nil, if_false]
    split <;> rfl
  · intro other op pending isOpen
    rcases update_eq_cases isOpen with ⟨_, impossible⟩ | ⟨_, before⟩
    · cases impossible
    · exact absurd before (nobody other op pending)
  · intro ended member
    rcases gathered.together ended member with ⟨sameTime, ⟨blocks, number, logged⟩ | ⟨later, logged⟩⟩
    · refine ⟨sameTime, Or.inl ⟨blocks, ?_, logged⟩⟩
      rw [← number]
      exact List.getElem?_append_left (List.getElem?_eq_some_iff.mp number).1
    · refine ⟨sameTime, Or.inl ⟨system.log.lh, ?_, logged⟩⟩
      rw [← later]
      exact List.getElem?_concat_length

theorem after (gathered : Gathered system) (counted : Counted system)
    (stepped : Stepped system action next) : Gathered next := by
  cases stepped with
  | sleep pid _ _ =>
    refine gathered.quiet pid .asleep rfl (fun _ => Or.inl rfl) rfl rfl rfl (by simp) ?_
      gathered.together
    intro op pending impossible
    cases impossible
  | enter pid _ _ =>
    refine gathered.quiet pid (.inside ⟨system.commits.length, []⟩ none) rfl
      (fun _ => Or.inl rfl) rfl rfl rfl (by simp) ?_ gathered.together
    intro op pending entered
    cases entered
    exact ⟨rfl, List.nil_subset _⟩
  | kill pid _ =>
    refine gathered.quiet pid .woken rfl (fun _ => Or.inl rfl) rfl rfl rfl (by simp) ?_
      gathered.together
    intro op pending impossible
    cases impossible
  | check pid blockno op isOpen =>
    refine gathered.quiet pid (.inside op (some blockno)) rfl (fun _ => Or.inl rfl) rfl rfl rfl
      (by simp) ?_ gathered.together
    intro opened pending same
    cases same
    exact gathered.undivided pid op none isOpen
  | append pid blockno op isOpen =>
    refine gathered.append isOpen fun other committed => ?_
    have committing := counted.busy other (Or.inr committed)
    rw [counted.idle_of_inside isOpen] at committing
    cases committing
  | leave pid op isOpen _ _ =>
    refine gathered.quiet pid .outside rfl (phases_wakeup _) rfl rfl rfl (by simp) ?_
      (gathered.filed isOpen)
    intro opened pending impossible
    cases impossible
  | last pid op isOpen _ _ =>
    refine gathered.quiet pid .committing rfl (fun _ => Or.inl rfl) rfl rfl rfl (by simp) ?_
      (gathered.filed isOpen)
    intro opened pending impossible
    cases impossible
  | commit pid busy =>
    exact gathered.commit pid (counted.not_inside (counted.busy pid (Or.inl busy)))
  | finish pid _ =>
    refine gathered.quiet pid .outside rfl (phases_wakeup _) rfl rfl rfl (by simp) ?_
      gathered.together
    intro op pending impossible
    cases impossible

end Gathered

/-- Every way to lower what `begin_op` compares with `LOGSIZE` either wakes
all sleepers or happens during a commit. -/
theorem Excused.after (excused : Excused system)
    (counted : Counted system) (stepped : Stepped system action next) : Excused next := by
  have kept : ∀ {pid : Pid} {value : Phase} {other : Pid}, value ≠ .asleep →
      update system.phase pid value other = .asleep → system.phase other = .asleep := by
    intro pid value other awake sleeping
    rcases update_eq_cases sleeping with ⟨_, impossible⟩ | ⟨_, before⟩
    · exact absurd impossible awake
    · exact before
  cases stepped with
  | sleep pid _ reason => exact fun _ _ => reason
  | enter pid _ _ =>
    intro other sleeping
    have before := excused other (kept (by simp) sleeping)
    refine before.imp_right fun full => ?_
    have ten : (MAXOPBLOCKS : Int) = 10 := rfl
    simp only [ten] at full ⊢
    omega
  | kill pid _ | check pid blockno op _ =>
    exact fun other sleeping => excused other (kept (by simp) sleeping)
  | append pid blockno op _ =>
    intro other sleeping
    have before := excused other (kept (by simp) sleeping)
    have longer : system.log.lh.length ≤ (logWriteAppend system.log blockno).lh.length := by
      unfold logWriteAppend
      split <;> simp
    rw [logWriteAppend_committing, logWriteAppend_outstanding]
    refine before.imp_right fun full => ?_
    show ((logWriteAppend system.log blockno).lh.length : Int) +
      (system.log.outstanding + 1) * MAXOPBLOCKS > LOGSIZE
    omega
  | leave pid op _ _ _ | finish pid _ =>
    exact fun other sleeping => absurd sleeping (wakeup_ne_asleep _ other)
  | last pid op _ _ _ => exact fun _ _ => Or.inl rfl
  | commit pid busy => exact fun _ _ => Or.inl (counted.busy pid (Or.inl busy))

/-! ## Every interleaving -/

/-- Once a commit is done, and while neither an operation is open nor a commit
running, the header is empty and every operation that has ended is committed. -/
def Drained (system : System Pid) : Prop :=
  (∃ pid, system.phase pid = .committed) ∨
      (system.log.outstanding = 0 ∧ system.log.committing = false) →
    system.log.lh = [] ∧ ∀ op ∈ system.closed, op.began < system.commits.length

omit [DecidableEq Pid] in
theorem Counted.drained {pid : Pid} {op : Operation} {pending : Option Nat} (counted : Counted next)
    (inside : next.phase pid = .inside op pending) : Drained next := by
  rintro (⟨other, committed⟩ | ⟨none, _⟩)
  · exact absurd inside (counted.not_inside (counted.busy other (Or.inr committed)) pid op pending)
  · have positive := counted.outstanding_pos inside
    omega

theorem Drained.after (drained : Drained system) (counted : Counted system)
    (gathered : Gathered system) (stepped : Stepped system action next) : Drained next := by
  have earlier : ∀ {pid other : Pid} {value : Phase},
      update system.phase pid value other = .committed → value ≠ .committed →
        system.phase other = .committed := by
    intro pid other value committed isNot
    rcases update_eq_cases committed with ⟨_, same⟩ | ⟨_, before⟩
    · exact absurd same isNot
    · exact before
  have busy : ∀ pid, system.phase pid = .committed → system.log.committing ≠ false := by
    intro pid committed
    simp [counted.busy pid (Or.inr committed)]
  have countedNext := counted.after stepped
  cases stepped with
  | sleep pid _ _ =>
    rintro (⟨other, committed⟩ | quiet)
    · exact drained (Or.inl ⟨other, earlier committed nofun⟩)
    · exact drained (Or.inr quiet)
  | kill pid _ =>
    rintro (⟨other, committed⟩ | quiet)
    · exact drained (Or.inl ⟨other, earlier committed nofun⟩)
    · exact drained (Or.inr quiet)
  | enter pid _ _ => exact countedNext.drained (update_self pid _ _)
  | check pid _ _ _ => exact countedNext.drained (update_self pid _ _)
  | append pid _ _ _ => exact countedNext.drained (update_self pid _ _)
  | leave pid op isOpen idle others =>
    rintro (⟨other, committed⟩ | ⟨none, _⟩)
    · rw [wakeup_eq_iff (by simp) (by simp)] at committed
      exact absurd idle (busy other (earlier committed nofun))
    · exact absurd (Int.sub_eq_zero.mp none) others
  | last pid op isOpen idle alone =>
    rintro (⟨other, committed⟩ | ⟨_, impossible⟩)
    · exact absurd idle (busy other (earlier committed nofun))
    · cases impossible
  | commit pid isBusy =>
    refine fun _ => ⟨rfl, fun op member => ?_⟩
    rw [List.length_append, List.length_singleton]
    rcases (gathered.together op member).2 with ⟨blocks, isCommitted, _⟩ | ⟨isLast, _⟩
    · exact Nat.lt_succ_of_lt (List.getElem?_eq_some_iff.mp isCommitted).1
    · exact isLast ▸ Nat.lt_succ_self _
  | finish pid isBusy => exact fun _ => drained (Or.inl ⟨pid, isBusy⟩)

/-- The invariant of every interleaving. -/
structure Sound (system : System Pid) : Prop where
  counted : Counted system
  gathered : Gathered system
  excused : Excused system
  drained : Drained system

theorem Sound.reached {dev : Nat} {sb : Superblock} {schedule : List (Action Pid)}
    {final : System Pid} (reached : exec step (System.boot dev sb) schedule = .next final) :
    Sound final := by
  refine exec_invariant' Sound ?_ ⟨Counted.boot dev sb, Gathered.boot dev sb, ?_, ?_⟩ reached
  · intro system action next sound stepped
    have inverted := stepped_of_step stepped
    exact ⟨sound.counted.after inverted, sound.gathered.after sound.counted inverted,
      sound.excused.after sound.counted inverted,
      sound.drained.after sound.counted sound.gathered inverted⟩
  · intro pid impossible
    cases impossible
  · exact fun _ => ⟨rfl, nofun⟩

theorem Sound.protocol (sound : Sound system) : Protocol system where
  exclusive := by
    intro committing
    have nobody := sound.counted.not_inside committing
    refine ⟨sound.counted.quiet committing, fun pid => ⟨fun blockno => ?_, ?_⟩⟩
    · simp only [step]
      split
      · exact absurd ‹_› (nobody pid _ _)
      · rfl
    · simp only [step]
      split
      · exact absurd ‹_› (nobody pid _ _)
      · rfl
  committer := sound.counted.committer
  undivided := sound.gathered.undivided
  together := sound.gathered.together
  drained := by
    intro quiet idle
    rcases sound.drained (Or.inr ⟨quiet, idle⟩) with ⟨empty, earlier⟩
    refine ⟨empty, fun op member => ?_⟩
    rcases (sound.gathered.together op member).2 with written | ⟨isLast, _⟩
    · exact written
    · exact absurd (earlier op member) (isLast ▸ Nat.lt_irrefl _)
  nodup := sound.gathered.nodup
  pinned := sound.gathered.pinned
  sleeping := sound.excused

theorem Sound.not_committing (sound : Sound system) (action : Action Pid) :
    step system action ≠ .halted .logCommitting := by
  intro halted
  cases action with
  | check pid blockno =>
    simp only [step] at halted
    split at halted
    · simp only [logWriteCheck] at halted
      split at halted
      · rename_i panic failed
        cases halted
        split at failed
        · cases failed
        · split at failed <;> cases failed
      · cases halted
    · cases halted
  | endOp pid =>
    simp only [step] at halted
    split at halted
    · rename_i op isOpen
      rw [endOp_of_idle (sound.counted.idle_of_inside isOpen)] at halted
      by_cases alone : system.log.outstanding = 1 <;>
        simp only [alone, if_true, if_false] at halted <;> cases halted
    · cases halted
  | beginOp pid =>
    simp only [step] at halted
    split at halted
    · split at halted <;> cases halted
    · cases halted
  | append pid | kill pid | commit pid | finish pid =>
    simp only [step] at halted
    split at halted <;> cases halted

/-- The group-commit protocol, for any number of processes and every
interleaving of their critical sections: whatever has been reached, the
promise holds, and the panic of `end_op` never happens. -/
theorem group_commit_protocol (dev : Nat) (sb : Superblock) (schedule : List (Action Pid)) :
    exec step (System.boot dev sb) schedule ≠ .halted .logCommitting ∧
      ∀ final, exec step (System.boot dev sb) schedule = .next final → Protocol final := by
  refine ⟨fun halted => ?_, fun final reached => (Sound.reached reached).protocol⟩
  rcases exec_eq_halted halted with ⟨before, action, after, middle, _, reached, stopped⟩
  exact (Sound.reached reached).not_committing action stopped

/-- Two operations log one block each; the second `end_op` commits for both. -/
theorem group_commit_protocol_two : ∃ final : System (Fin 2),
    exec step (System.boot ROOTDEV Mkfs.superblock) [.beginOp 0, .beginOp 1, .check 0 100, .append 0,
      .check 1 100, .append 1, .endOp 0, .endOp 1, .commit 1, .finish 1] = .next final ∧
      Protocol final := by
  refine Outcome.next_and ⟨_, rfl⟩ fun final reached => ?_
  exact (group_commit_protocol ROOTDEV Mkfs.superblock _).2 final reached

end Group
end Log
end Xv6
