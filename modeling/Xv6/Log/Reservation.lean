import Mathlib.Data.Finset.Card
import Xv6.Foundation.Run
import Xv6.Log.State

namespace Xv6
namespace Log

open Foundation

/-!
# The reservation made by `begin_op`

Operations are bracketed by `begin_op` and `end_op` and call `log_write` on
at most `MAXOPBLOCKS` distinct blocks in between.  `begin_op` admits a caller
while the header's entries and `MAXOPBLOCKS` blocks for each open operation
fit in `LOGSIZE`.  The check of `log_write` is against `log.size - 1`, because
one block of the log region holds the header, and `mkfs` makes `log.size`
equal to `LOGSIZE`.  The two bounds therefore differ by one block.

The client side of the protocol is explicit: the system keeps, for every open
operation, the distinct blocks it has named so far.  A call that the protocol
forbids, or that would sleep, is blocked rather than executed.
-/

/-- An operation between its `begin_op` and its `end_op`.  `used` lists the
distinct blocks it has passed to `log_write`; `pending` is the block of a
`log_write` that has passed its bound check and not yet taken `log.lock`. -/
structure Operation where
  pid : Nat
  used : List Nat
  pending : Option Nat
deriving DecidableEq, Repr

/-- The log together with the operations that are using it. -/
structure System where
  log : LogState
  ops : List Operation
deriving DecidableEq, Repr

/-- The log right after boot from an image written by `mkfs`. -/
def System.boot : System where
  log := initlog ROOTDEV Mkfs.superblock
  ops := []

/-! ## Tables of open operations -/

section

variable (ops : List Operation)

def findOp (pid : Nat) : Option Operation :=
  ops.find? fun op => op.pid == pid

def setOp (new : Operation) : List Operation :=
  ops.map fun op => if op.pid = new.pid then new else op

def dropOp (pid : Nat) : List Operation :=
  ops.filter fun op => op.pid ≠ pid

/-- No process has two open operations. -/
def DistinctPids : Prop :=
  (ops.map Operation.pid).Nodup

end

variable {ops : List Operation} {pid : Nat} {op : Operation}

theorem findOp_eq_some (found : findOp ops pid = some op) : op ∈ ops ∧ op.pid = pid := by
  refine ⟨List.mem_of_find?_eq_some found, ?_⟩
  simpa using List.find?_some found

theorem findOp_eq_none (missing : findOp ops pid = none) : pid ∉ ops.map Operation.pid := by
  intro member
  rcases List.mem_map.mp member with ⟨op, listed, same⟩
  have absent := List.find?_eq_none.mp missing op listed
  simp [same] at absent

@[simp] theorem setOp_length (ops : List Operation) (new : Operation) :
    (setOp ops new).length = ops.length := by
  simp [setOp]

@[simp] theorem setOp_pids (ops : List Operation) (new : Operation) :
    (setOp ops new).map Operation.pid = ops.map Operation.pid := by
  simp only [setOp, List.map_map]
  apply List.map_congr_left
  intro op _
  by_cases same : op.pid = new.pid <;> simp [same]

theorem mem_setOp (new : Operation) (present : new.pid ∈ ops.map Operation.pid) :
    op ∈ setOp ops new ↔ op = new ∨ (op ∈ ops ∧ op.pid ≠ new.pid) := by
  simp only [setOp, List.mem_map]
  constructor
  · rintro ⟨old, listed, rfl⟩
    by_cases same : old.pid = new.pid
    · exact Or.inl (if_pos same)
    · rw [if_neg same]
      exact Or.inr ⟨listed, same⟩
  · rintro (rfl | ⟨listed, different⟩)
    · rcases List.mem_map.mp present with ⟨old, listed, same⟩
      exact ⟨old, listed, if_pos same⟩
    · exact ⟨op, listed, if_neg different⟩

section

variable (distinct : DistinctPids ops)
include distinct

theorem dropOp_length (found : findOp ops pid = some op) :
    (dropOp ops pid).length + 1 = ops.length := by
  induction ops with
  | nil => cases found
  | cons head tail ih =>
    have parts := List.nodup_cons.mp distinct
    by_cases same : head.pid = pid
    · have rest : dropOp tail pid = tail := by
        apply List.filter_eq_self.mpr
        intro other listed
        have different : other.pid ≠ pid := by
          intro equal
          exact parts.1 (List.mem_map.mpr ⟨other, listed, equal.trans same.symm⟩)
        simp [different]
      simp only [dropOp, ne_eq, List.filter_cons, same, not_true_eq_false, decide_false,
        Bool.false_eq_true, if_false, List.length_cons]
      exact congrArg (fun rest => rest.length + 1) rest
    · have later : findOp tail pid = some op := by
        simpa [findOp, List.find?_cons, same] using found
      have counted := ih parts.2 later
      simp only [dropOp, ne_eq, List.filter_cons, same, not_false_eq_true, decide_true,
        if_true, List.length_cons]
      exact congrArg (· + 1) counted

theorem dropOp_distinct (pid : Nat) : DistinctPids (dropOp ops pid) :=
  List.Nodup.sublist (List.Sublist.map _ List.filter_sublist) distinct

theorem setOp_distinct (new : Operation) : DistinctPids (setOp ops new) := by
  unfold DistinctPids
  rw [setOp_pids]
  exact distinct

end

/-! ## Calls as atomic steps -/

/-- The three calls of the protocol, each by a named process. -/
inductive Call where
  | beginOp (pid : Nat)
  | logWrite (pid : Nat) (blockno : Nat)
  | endOp (pid : Nat)
deriving DecidableEq, Repr

/-- One call, run to completion.  A `log_write` beyond the operation's budget
of `MAXOPBLOCKS` distinct blocks is not part of the protocol. -/
def callStep (system : System) : Call → Outcome Panic System
  | .beginOp pid =>
    match findOp system.ops pid, Log.beginOp system.log with
    | none, some log => .next ⟨log, ⟨pid, [], none⟩ :: system.ops⟩
    | _, _ => .blocked
  | .logWrite pid blockno =>
    match findOp system.ops pid with
    | none => .blocked
    | some op =>
      if (op.used.insert blockno).length ≤ MAXOPBLOCKS then
        match Log.logWrite system.log blockno with
        | .error panic => .halted panic
        | .ok log => .next ⟨log, setOp system.ops { op with used := op.used.insert blockno }⟩
      else .blocked
  | .endOp pid =>
    match findOp system.ops pid with
    | none => .blocked
    | some _ =>
      match Log.endOp system.log with
      | .error panic => .halted panic
      | .ok (log, doCommit) =>
        .next ⟨if doCommit then finishCommit log else log, dropOp system.ops pid⟩

/-- What a client can know of a schedule: how many operations are open, and
which distinct blocks were logged since all operations were last closed. -/
structure History where
  opened : Nat
  logged : Finset Nat

def History.start : History where
  opened := 0
  logged := ∅

def History.after (history : History) : Call → History
  | .beginOp _ => { history with opened := history.opened + 1 }
  | .logWrite _ blockno => { history with logged := insert blockno history.logged }
  | .endOp _ =>
    if history.opened = 1 then History.start
    else { history with opened := history.opened - 1 }

/-- The history of a schedule.  It reads the calls only, never the log. -/
def historyOf (schedule : List Call) : History :=
  schedule.foldl History.after History.start

/-- The kernel's counters agree with the clients' history. -/
structure Agrees (system : System) (history : History) : Prop where
  size : system.log.size = LOGSIZE
  idle : system.log.committing = false
  opened : history.opened = system.ops.length
  outstanding : system.log.outstanding = system.ops.length
  distinct : DistinctPids system.ops
  nodup : system.log.lh.Nodup
  logged : history.logged = system.log.lh.toFinset
  empty : system.ops = [] → system.log.lh = []

theorem Agrees.boot : Agrees System.boot History.start where
  size := rfl
  idle := rfl
  opened := rfl
  outstanding := rfl
  distinct := List.nodup_nil
  nodup := List.nodup_nil
  logged := rfl
  empty := fun _ => rfl

variable {history : History} {system next final : System}

theorem Agrees.card (agrees : Agrees system history) :
    history.logged.card = system.log.lh.length := by
  rw [agrees.logged, List.toFinset_card_of_nodup agrees.nodup]

variable {call : Call}

section

variable (agrees : Agrees system history)
include agrees

theorem Agrees.afterCall (stepped : callStep system call = .next next) :
    Agrees next (history.after call) := by
  cases call with
  | beginOp pid =>
    simp only [callStep] at stepped
    split at stepped
    · rename_i log missing admitted
      cases stepped
      rcases beginOp_eq_some.mp admitted with ⟨idle, _, rfl⟩
      refine ⟨agrees.size, idle, ?_, ?_, ?_, agrees.nodup, agrees.logged, ?_⟩
      · simp [History.after, agrees.opened]
      · simp [agrees.outstanding]
      · exact List.nodup_cons.mpr ⟨findOp_eq_none missing, agrees.distinct⟩
      · intro impossible
        cases impossible
    · cases stepped
  | logWrite pid blockno =>
    simp only [callStep] at stepped
    split at stepped
    · cases stepped
    · rename_i op found
      rcases guard_eq_next.mp stepped with ⟨_, stepped⟩
      split at stepped
      · cases stepped
      · rename_i log written
        cases stepped
        have appended : log = logWriteAppend system.log blockno := by
          unfold Log.logWrite at written
          split at written <;> cases written
          rfl
        subst appended
        have listed := (findOp_eq_some found).1
        refine ⟨?_, ?_, ?_, ?_, ?_, ?_, ?_, ?_⟩
        · rw [logWriteAppend_size, agrees.size]
        · rw [logWriteAppend_committing, agrees.idle]
        · simp [History.after, agrees.opened]
        · simp [agrees.outstanding]
        · exact setOp_distinct agrees.distinct _
        · exact logWriteAppend_nodup agrees.nodup blockno
        · ext other
          simp [History.after, agrees.logged, mem_logWriteAppend]
        · intro emptied
          have length := congrArg List.length emptied
          rw [setOp_length] at length
          rw [List.length_eq_zero_iff.mp length] at listed
          exact absurd listed List.not_mem_nil
  | endOp pid =>
    simp only [callStep] at stepped
    split at stepped
    · cases stepped
    · rename_i op found
      have counted := dropOp_length agrees.distinct found
      rw [endOp_of_idle agrees.idle] at stepped
      by_cases last : system.log.outstanding = 1
      · simp only [last, if_true] at stepped
        cases stepped
        have one : system.ops.length = 1 := by
          have := agrees.outstanding
          omega
        have none_left : dropOp system.ops pid = [] := by
          apply List.length_eq_zero_iff.mp
          omega
        have opened : history.opened = 1 := agrees.opened.trans one
        simp only [none_left, History.after, opened, if_true]
        exact { Agrees.boot with size := agrees.size, nodup := List.nodup_nil }
      · simp only [last, if_false] at stepped
        cases stepped
        have more : history.opened ≠ 1 := by
          rw [agrees.opened]
          have := agrees.outstanding
          omega
        simp only [History.after, more, if_false]
        refine ⟨agrees.size, agrees.idle, ?_, ?_, dropOp_distinct agrees.distinct pid,
          agrees.nodup, agrees.logged, ?_⟩
        · show history.opened - 1 = (dropOp system.ops pid).length
          have := agrees.opened
          omega
        · show system.log.outstanding - 1 = (dropOp system.ops pid).length
          have := agrees.outstanding
          omega
        · intro emptied
          have length : (dropOp system.ops pid).length = 0 := congrArg List.length emptied
          have := agrees.opened
          omega

/-- The only panic a protocol-abiding schedule can reach is the bound check
of `log_write`, and it fires exactly when the header holds `LOGSIZE - 1`
blocks, whether or not the block would have been absorbed. -/
theorem Agrees.halts_only_full {panic : Panic} (halted : callStep system call = .halted panic) :
    panic = .tooBigATransaction ∧ (∃ pid blockno, call = .logWrite pid blockno) ∧
      LOGSIZE - 1 ≤ history.logged.card := by
  cases call with
  | beginOp pid =>
    simp only [callStep] at halted
    split at halted <;> cases halted
  | logWrite pid blockno =>
    simp only [callStep] at halted
    split at halted
    · cases halted
    · rename_i op found
      have active : 0 < system.ops.length :=
        List.length_pos_of_mem (findOp_eq_some found).1
      split at halted
      · simp only [Log.logWrite, logWriteCheck] at halted
        have outstanding := agrees.outstanding
        by_cases full : system.log.lh.length ≥ LOGSIZE ∨
            (system.log.lh.length : Int) ≥ (system.log.size : Int) - 1
        · simp only [full, if_true] at halted
          cases halted
          refine ⟨rfl, ⟨pid, blockno, rfl⟩, ?_⟩
          rw [agrees.card]
          rw [agrees.size] at full
          omega
        · have inside : ¬ system.log.outstanding < 1 := by omega
          simp only [full, inside, if_false] at halted
          cases halted
      · cases halted
  | endOp pid =>
    simp only [callStep] at halted
    split at halted
    · cases halted
    · rw [endOp_of_idle agrees.idle] at halted
      by_cases last : system.log.outstanding = 1 <;>
        simp only [last, if_true, if_false] at halted <;> cases halted

theorem Agrees.logWrite_room {blockno : Nat}
    (stepped : callStep system (.logWrite pid blockno) = .next next) :
    history.logged.card < LOGSIZE - 1 := by
  simp only [callStep] at stepped
  split at stepped
  · cases stepped
  · rcases guard_eq_next.mp stepped with ⟨_, stepped⟩
    split at stepped
    · cases stepped
    · rename_i log written
      have passed : logWriteCheck system.log = none := by
        unfold Log.logWrite at written
        split at written
        · cases written
        · assumption
      have room := (logWriteCheck_eq_none.mp passed).2.1
      rw [agrees.card]
      rw [agrees.size] at room
      omega

end

variable {schedule : List Call}

theorem Agrees.afterSchedule
    (agrees : Agrees system history) (reached : exec callStep system schedule = .next final) :
    Agrees final (schedule.foldl History.after history) := by
  induction schedule generalizing system history with
  | nil =>
    cases reached
    exact agrees
  | cons call rest ih =>
    rcases Outcome.andThen_eq_next.mp reached with ⟨next, stepped, continued⟩
    exact ih (agrees.afterCall stepped) continued

theorem agrees_historyOf (reached : exec callStep System.boot schedule = .next final) :
    Agrees final (historyOf schedule) :=
  Agrees.boot.afterSchedule reached

/-! ## When the reservation suffices -/

/-- A schedule of protocol-abiding calls runs without the panic of
`log_write` exactly when no `log_write` comes after `LOGSIZE - 1` distinct
blocks have been logged since all operations were last closed.  `begin_op`
itself grants up to `LOGSIZE` of them. -/
theorem logWrite_never_too_big_iff (schedule : List Call)
    (feasible : exec callStep System.boot schedule ≠ .blocked) :
    exec callStep System.boot schedule ≠ .halted .tooBigATransaction ↔
      ∀ before pid blockno after, schedule = before ++ .logWrite pid blockno :: after →
        (historyOf before).logged.card < LOGSIZE - 1 := by
  constructor
  · intro unharmed before pid blockno after split
    cases outcome : exec callStep System.boot schedule with
    | blocked => exact absurd outcome feasible
    | halted panic =>
      rcases exec_eq_halted outcome with ⟨_, _, _, middle, _, reached, halted⟩
      have tooBig := ((agrees_historyOf reached).halts_only_full halted).1
      rw [tooBig] at outcome
      exact absurd outcome unharmed
    | next final =>
      rw [split] at outcome
      rcases exec_append_eq_next.mp outcome with ⟨middle, reached, continued⟩
      rcases Outcome.andThen_eq_next.mp continued with ⟨next, stepped, _⟩
      exact (agrees_historyOf reached).logWrite_room stepped
  · intro room outcome
    rcases exec_eq_halted outcome with ⟨before, call, after, middle, split, reached, halted⟩
    rcases (agrees_historyOf reached).halts_only_full halted with ⟨_, ⟨pid, blockno, rfl⟩, full⟩
    have := room before pid blockno after split
    omega

/-- Three operations that each use their whole budget of ten fresh blocks. -/
def threeFullOperations : List Call :=
  (List.range 3).map Call.beginOp ++
    (List.range LOGSIZE).map fun i => Call.logWrite (i / MAXOPBLOCKS) (100 + i)

theorem logWrite_never_too_big_iff_two :
    exec callStep System.boot [.beginOp 0, .logWrite 0 100] ≠ .blocked ∧
      (exec callStep System.boot [.beginOp 0, .logWrite 0 100] ≠ .halted .tooBigATransaction ↔
        ∀ before pid blockno after,
          [Call.beginOp 0, .logWrite 0 100] = before ++ .logWrite pid blockno :: after →
            (historyOf before).logged.card < LOGSIZE - 1) := by
  have feasible : exec callStep System.boot [.beginOp 0, .logWrite 0 100] ≠ .blocked := by
    intro blocked
    cases blocked
  exact ⟨feasible, logWrite_never_too_big_iff _ feasible⟩

/-- The three operations were all admitted and stay within their budgets, yet
the last of their thirty `log_write` calls stops the kernel. -/
theorem threeFullOperations_too_big :
    exec callStep System.boot threeFullOperations = .halted .tooBigATransaction := by
  rfl

end Log
end Xv6
