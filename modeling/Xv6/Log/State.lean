import Mathlib.Data.List.Nodup
import Xv6.Layout
import Xv6.Panic

namespace Xv6
namespace Log

/-!
# The in-memory log

`struct log` of `kernel/log.c` and the critical sections that update its
counters.  The header's valid entries `block[0..n)` are one list, so `lh.n`
is its length; entries beyond `n` are never read by the source.

Each definition is the body of one critical section under `log.lock`, or, for
the bound check of `log_write`, of the code before the lock is taken.  What
the sections do to buffers and to the disk is modelled elsewhere.
-/

/-- `struct log` without its lock. -/
structure LogState where
  start : Nat
  size : Nat
  outstanding : Int
  committing : Bool
  dev : Nat
  lh : List Nat
deriving DecidableEq, Repr

/-- The fields `initlog` copies from the super block, before recovery. -/
def initlog (dev : Nat) (sb : Superblock) : LogState where
  start := sb.logstart
  size := sb.nlog
  outstanding := 0
  committing := false
  dev := dev
  lh := []

section

variable (log : LogState)

/-- One pass of the loop in `begin_op`.  No result means that the caller
sleeps on the log and tries again after a wakeup. -/
def beginOp : Option LogState :=
  if log.committing then none
  else if (log.lh.length : Int) + (log.outstanding + 1) * MAXOPBLOCKS > LOGSIZE then none
  else some { log with outstanding := log.outstanding + 1 }

/-- The first critical section of `end_op`.  The flag is `do_commit`. -/
def endOp : Except Panic (LogState × Bool) :=
  let log := { log with outstanding := log.outstanding - 1 }
  if log.committing then .error .logCommitting
  else if log.outstanding = 0 then .ok ({ log with committing := true }, true)
  else .ok (log, false)

/-- What `commit` and the second critical section of `end_op` leave behind:
an empty header and a cleared `committing` flag. -/
def finishCommit : LogState :=
  { log with lh := [], committing := false }

/-- The bound checks at the head of `log_write`, made before `log.lock` is
acquired. -/
def logWriteCheck : Option Panic :=
  if log.lh.length ≥ LOGSIZE ∨ (log.lh.length : Int) ≥ (log.size : Int) - 1 then
    some .tooBigATransaction
  else if log.outstanding < 1 then some .logWriteOutsideOfTrans
  else none

/-- The critical section of `log_write`: a block already in the header is
absorbed, a new one is appended. -/
def logWriteAppend (blockno : Nat) : LogState :=
  if blockno ∈ log.lh then log else { log with lh := log.lh ++ [blockno] }

/-- `log_write` with its check and its critical section run together. -/
def logWrite (blockno : Nat) : Except Panic LogState :=
  match logWriteCheck log with
  | some panic => .error panic
  | none => .ok (logWriteAppend log blockno)

/-! ## What each section does to the header -/

theorem mem_logWriteAppend (blockno : Nat) (other : Nat) :
    other ∈ (logWriteAppend log blockno).lh ↔ other = blockno ∨ other ∈ log.lh := by
  unfold logWriteAppend
  split
  · constructor
    · exact Or.inr
    · rintro (rfl | member)
      · assumption
      · exact member
  · simp [or_comm]

end

theorem logWriteAppend_nodup {log : LogState} (nodup : log.lh.Nodup) (blockno : Nat) :
    (logWriteAppend log blockno).lh.Nodup := by
  unfold logWriteAppend
  split
  · exact nodup
  · rename_i fresh
    exact List.nodup_append.mpr ⟨nodup, List.nodup_singleton _, by
      intro old member new same equal
      rw [List.mem_singleton.mp same] at equal
      exact fresh (equal ▸ member)⟩

section

variable (log : LogState) (blockno : Nat)
include log blockno

@[simp] theorem logWriteAppend_size : (logWriteAppend log blockno).size = log.size := by
  unfold logWriteAppend
  split <;> rfl

@[simp] theorem logWriteAppend_start : (logWriteAppend log blockno).start = log.start := by
  unfold logWriteAppend
  split <;> rfl

@[simp] theorem logWriteAppend_outstanding :
    (logWriteAppend log blockno).outstanding = log.outstanding := by
  unfold logWriteAppend
  split <;> rfl

@[simp] theorem logWriteAppend_committing :
    (logWriteAppend log blockno).committing = log.committing := by
  unfold logWriteAppend
  split <;> rfl

@[simp] theorem logWriteAppend_dev : (logWriteAppend log blockno).dev = log.dev := by
  unfold logWriteAppend
  split <;> rfl

end

theorem beginOp_eq_some {log next : LogState} :
    beginOp log = some next ↔ log.committing = false ∧
      (log.lh.length : Int) + (log.outstanding + 1) * MAXOPBLOCKS ≤ LOGSIZE ∧
      next = { log with outstanding := log.outstanding + 1 } := by
  unfold beginOp
  cases log.committing with
  | true => simp
  | false =>
    by_cases full : (log.lh.length : Int) + (log.outstanding + 1) * MAXOPBLOCKS > LOGSIZE
    · simp [full, Int.not_le.mpr full]
    · simp [Int.not_lt.mp full, eq_comm]

/-- Closing an operation: either others stay open, or the log is committed
and left empty. -/
theorem endOp_of_idle {log : LogState} (idle : log.committing = false) :
    endOp log =
      if log.outstanding = 1 then
        .ok ({ log with outstanding := 0, committing := true }, true)
      else .ok ({ log with outstanding := log.outstanding - 1 }, false) := by
  unfold endOp
  by_cases last : log.outstanding = 1
  · simp [idle, last]
  · have more : log.outstanding - 1 ≠ 0 := by omega
    simp [idle, last, more]

theorem logWriteCheck_eq_none {log : LogState} :
    logWriteCheck log = none ↔
      log.lh.length < LOGSIZE ∧ (log.lh.length : Int) < (log.size : Int) - 1 ∧
        1 ≤ log.outstanding := by
  unfold logWriteCheck
  split
  · rename_i full
    simp only [reduceCtorEq, false_iff]
    omega
  · split
    · simp only [reduceCtorEq, false_iff]
      omega
    · simp only [true_iff]
      omega

end Log
end Xv6
