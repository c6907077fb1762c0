import Mathlib.Algebra.Order.BigOperators.Group.List
import Mathlib.Algebra.Order.Ring.Nat
import Xv6.Log.Reservation

namespace Xv6
namespace Log

open Foundation

/-!
# The log region and the unlocked bound check

`log_write` tests `log.lh.n` before it acquires `log.lock` and appends after.
Other processes may append in between, so the header can grow past the bound
that the check established.  Here the check and the append are separate
steps, `commit` runs while `committing` is set, and every interleaving of
these steps is a schedule.

Two facts come out.  The array `lh.block` is never overrun, because
`begin_op` bounds the distinct blocks of a transaction by `LOGSIZE`.  The
disk region is one block shorter, and it is respected as long as every check
also leaves room for the blocks already admitted by earlier checks.
-/

/-- The steps of the protocol at the granularity of `log.lock`. -/
inductive Action where
  | beginOp (pid : Nat)
  | check (pid : Nat) (blockno : Nat)
  | append (pid : Nat)
  | endOp (pid : Nat)
  | commit
deriving DecidableEq, Repr

/-- One step of one process.  A process in the middle of a `log_write` does
nothing else until it has appended. -/
def step (system : System) : Action → Outcome Panic System
  | .beginOp pid =>
    match findOp system.ops pid, Log.beginOp system.log with
    | none, some log => .next ⟨log, ⟨pid, [], none⟩ :: system.ops⟩
    | _, _ => .blocked
  | .check pid blockno =>
    match findOp system.ops pid with
    | some ⟨_, used, none⟩ =>
      if (used.insert blockno).length ≤ MAXOPBLOCKS then
        match logWriteCheck system.log with
        | some panic => .halted panic
        | none =>
          .next ⟨system.log, setOp system.ops ⟨pid, used.insert blockno, some blockno⟩⟩
      else .blocked
    | _ => .blocked
  | .append pid =>
    match findOp system.ops pid with
    | some ⟨_, used, some blockno⟩ =>
      .next ⟨logWriteAppend system.log blockno, setOp system.ops ⟨pid, used, none⟩⟩
    | _ => .blocked
  | .endOp pid =>
    match findOp system.ops pid with
    | some ⟨_, _, none⟩ =>
      match Log.endOp system.log with
      | .error panic => .halted panic
      | .ok (log, _) => .next ⟨log, dropOp system.ops pid⟩
    | _ => .blocked
  | .commit =>
    if system.log.committing then .next ⟨finishCommit system.log, system.ops⟩ else .blocked

/-- The log blocks that `write_log` writes and `install_trans` reads. -/
def logBlocks (log : LogState) : List Nat :=
  (List.range log.lh.length).map fun tail => log.start + tail + 1

/-- Blocks that have passed the bound check and are not yet appended. -/
def pendings (ops : List Operation) : List Nat :=
  ops.filterMap Operation.pending

/-- The header's blocks together with the admitted ones. -/
def claimed (system : System) : Finset Nat :=
  (system.log.lh ++ pendings system.ops).toFinset

/-- The bound check admits `blockno` only if the header, the blocks admitted
by earlier checks and `blockno` itself fit in the region beside its header. -/
def LeavesRoom (system : System) : Action → Prop
  | .check _ blockno => (insert blockno (claimed system)).card ≤ system.log.size - 1
  | _ => True

/-! ## What the steps do to the claimed blocks -/

variable {ops : List Operation} {blockno pid name : Nat}

theorem mem_pendings : blockno ∈ pendings ops ↔ ∃ op ∈ ops, op.pending = some blockno := by
  simp [pendings]

variable {system next : System}

theorem mem_claimed :
    blockno ∈ claimed system ↔
      blockno ∈ system.log.lh ∨ ∃ op ∈ system.ops, op.pending = some blockno := by
  simp [claimed, mem_pendings]

variable {op : Operation}

theorem findOp_pid_mem (found : findOp ops pid = some op) : pid ∈ ops.map Operation.pid := by
  rcases findOp_eq_some found with ⟨listed, same⟩
  exact List.mem_map.mpr ⟨op, listed, same⟩

/-- In a table with distinct owners, the found operation is the only one of
its process. -/
theorem eq_of_findOp (distinct : DistinctPids ops)
    {other : Operation} (found : findOp ops pid = some op) (listed : other ∈ ops)
    (same : other.pid = pid) : other = op := by
  rcases findOp_eq_some found with ⟨opListed, opPid⟩
  exact List.inj_on_of_nodup_map distinct listed opListed (same.trans opPid.symm)

variable {used : List Nat}

section

variable (distinct : DistinctPids system.ops)
include distinct

theorem claimed_check (found : findOp system.ops pid = some ⟨name, used, none⟩) :
    claimed ⟨system.log, setOp system.ops ⟨pid, used.insert blockno, some blockno⟩⟩ =
      insert blockno (claimed system) := by
  ext other
  simp only [mem_claimed, Finset.mem_insert,
    mem_setOp ⟨pid, used.insert blockno, some blockno⟩ (findOp_pid_mem found)]
  constructor
  · rintro (logged | ⟨op, rfl | ⟨listed, _⟩, pending⟩)
    · exact Or.inr (Or.inl logged)
    · exact Or.inl (Option.some.inj pending).symm
    · exact Or.inr (Or.inr ⟨op, listed, pending⟩)
  · rintro (rfl | logged | ⟨op, listed, pending⟩)
    · exact Or.inr ⟨_, Or.inl rfl, rfl⟩
    · exact Or.inl logged
    · refine Or.inr ⟨op, Or.inr ⟨listed, fun same => ?_⟩, pending⟩
      rw [eq_of_findOp distinct found listed same] at pending
      cases pending

theorem claimed_append (found : findOp system.ops pid = some ⟨name, used, some blockno⟩) :
    claimed ⟨logWriteAppend system.log blockno, setOp system.ops ⟨pid, used, none⟩⟩ =
      claimed system := by
  have listed := (findOp_eq_some found).1
  ext other
  simp only [mem_claimed, mem_logWriteAppend, mem_setOp ⟨pid, used, none⟩ (findOp_pid_mem found)]
  constructor
  · rintro ((rfl | logged) | ⟨op, rfl | ⟨member, _⟩, pending⟩)
    · exact Or.inr ⟨_, listed, rfl⟩
    · exact Or.inl logged
    · cases pending
    · exact Or.inr ⟨op, member, pending⟩
  · rintro (logged | ⟨op, member, pending⟩)
    · exact Or.inl (Or.inr logged)
    · by_cases same : op.pid = pid
      · rw [eq_of_findOp distinct found member same] at pending
        exact Or.inl (Or.inl (Option.some.inj pending).symm)
      · exact Or.inr ⟨op, Or.inr ⟨member, same⟩, pending⟩

theorem claimed_endOp (found : findOp system.ops pid = some ⟨name, used, none⟩)
    (log : LogState) (same : log.lh = system.log.lh) :
    claimed ⟨log, dropOp system.ops pid⟩ = claimed system := by
  ext other
  simp only [mem_claimed, same, dropOp, List.mem_filter, decide_eq_true_eq]
  constructor
  · rintro (logged | ⟨op, ⟨member, _⟩, pending⟩)
    · exact Or.inl logged
    · exact Or.inr ⟨op, member, pending⟩
  · rintro (logged | ⟨op, member, pending⟩)
    · exact Or.inl logged
    · refine Or.inr ⟨op, ⟨member, fun equal => ?_⟩, pending⟩
      rw [eq_of_findOp distinct found member equal] at pending
      cases pending

end

/-! ## Inversion of a step -/

/-- Everything a completed step can have done. -/
inductive Stepped (system : System) : Action → System → Prop where
  | beginOp (pid : Nat) (missing : findOp system.ops pid = none)
      (idle : system.log.committing = false)
      (room : (system.log.lh.length : Int) + (system.log.outstanding + 1) * MAXOPBLOCKS ≤ LOGSIZE) :
      Stepped system (.beginOp pid)
        ⟨{ system.log with outstanding := system.log.outstanding + 1 },
          ⟨pid, [], none⟩ :: system.ops⟩
  | check (pid blockno : Nat) (used : List Nat) (name : Nat)
      (found : findOp system.ops pid = some ⟨name, used, none⟩)
      (budget : (used.insert blockno).length ≤ MAXOPBLOCKS)
      (passed : logWriteCheck system.log = none) :
      Stepped system (.check pid blockno)
        ⟨system.log, setOp system.ops ⟨pid, used.insert blockno, some blockno⟩⟩
  | append (pid blockno : Nat) (used : List Nat) (name : Nat)
      (found : findOp system.ops pid = some ⟨name, used, some blockno⟩) :
      Stepped system (.append pid)
        ⟨logWriteAppend system.log blockno, setOp system.ops ⟨pid, used, none⟩⟩
  | endOp (pid : Nat) (used : List Nat) (name : Nat)
      (found : findOp system.ops pid = some ⟨name, used, none⟩)
      (idle : system.log.committing = false) (committing : Bool)
      (last : committing = decide (system.log.outstanding = 1)) :
      Stepped system (.endOp pid)
        ⟨{ system.log with
            outstanding := system.log.outstanding - 1, committing := committing },
          dropOp system.ops pid⟩
  | commit (busy : system.log.committing = true) :
      Stepped system .commit ⟨finishCommit system.log, system.ops⟩

variable {action : Action}

theorem stepped_of_step
    (stepped : step system action = .next next) : Stepped system action next := by
  cases action with
  | beginOp pid =>
    simp only [step] at stepped
    split at stepped
    · rename_i log missing admitted
      cases stepped
      rcases beginOp_eq_some.mp admitted with ⟨idle, room, rfl⟩
      exact .beginOp pid missing idle room
    · cases stepped
  | check pid blockno =>
    simp only [step] at stepped
    split at stepped
    · rename_i name used found
      rcases guard_eq_next.mp stepped with ⟨budget, stepped⟩
      split at stepped
      · cases stepped
      · rename_i passed
        cases stepped
        exact .check pid blockno used name found budget passed
    · cases stepped
  | append pid =>
    simp only [step] at stepped
    split at stepped
    · rename_i name used blockno found
      cases stepped
      exact .append pid blockno used name found
    · cases stepped
  | endOp pid =>
    simp only [step] at stepped
    split at stepped
    · rename_i name used found
      cases idle : system.log.committing with
      | true =>
        simp only [Log.endOp, idle, if_true] at stepped
        cases stepped
      | false =>
        rw [endOp_of_idle idle] at stepped
        by_cases last : system.log.outstanding = 1
        · simp only [last, if_true] at stepped
          cases stepped
          have := Stepped.endOp pid used name found idle true (by simp [last])
          simpa [last] using this
        · simp only [last, if_false] at stepped
          cases stepped
          have := Stepped.endOp pid used name found idle false (by simp [last])
          rwa [← idle] at this
    · cases stepped
  | commit =>
    rcases guard_eq_next.mp stepped with ⟨guard, stepped⟩
    cases stepped
    exact .commit guard

/-! ## Invariants of every interleaving -/

/-- Facts about the counters that no interleaving breaks. -/
structure Sound (system : System) : Prop where
  size : system.log.size = LOGSIZE
  start : system.log.start = Mkfs.superblock.logstart
  distinct : DistinctPids system.ops
  nodup : system.log.lh.Nodup
  outstanding : system.log.outstanding = system.ops.length
  quiet : system.log.committing = true → system.ops = []

theorem Sound.boot : Sound System.boot where
  size := rfl
  start := rfl
  distinct := List.nodup_nil
  nodup := List.nodup_nil
  outstanding := rfl
  quiet := fun _ => rfl

theorem Sound.stepped (sound : Sound system)
    (stepped : Stepped system action next) : Sound next := by
  cases stepped with
  | beginOp pid missing idle room =>
    refine ⟨sound.size, sound.start, ?_, sound.nodup, ?_, ?_⟩
    · exact List.nodup_cons.mpr ⟨findOp_eq_none missing, sound.distinct⟩
    · simp [sound.outstanding]
    · intro busy
      exact absurd (busy.symm.trans idle) (by decide)
  | check pid blockno used name found budget passed =>
    refine ⟨sound.size, sound.start, setOp_distinct sound.distinct _, sound.nodup, ?_, ?_⟩
    · simp [sound.outstanding]
    · intro busy
      rw [sound.quiet busy]
      rfl
  | append pid blockno used name found =>
    refine ⟨?_, ?_, setOp_distinct sound.distinct _, logWriteAppend_nodup sound.nodup blockno,
      ?_, ?_⟩
    · rw [logWriteAppend_size, sound.size]
    · rw [logWriteAppend_start, sound.start]
    · simp [sound.outstanding]
    · intro busy
      rw [logWriteAppend_committing] at busy
      rw [sound.quiet busy]
      rfl
  | endOp pid used name found idle committing last =>
    have counted := dropOp_length sound.distinct found
    have outstanding := sound.outstanding
    refine ⟨sound.size, sound.start, dropOp_distinct sound.distinct pid, sound.nodup, ?_, ?_⟩
    · show system.log.outstanding - 1 = (dropOp system.ops pid).length
      omega
    · intro busy
      have one : system.log.outstanding = 1 := by
        have busy : committing = true := busy
        rw [busy] at last
        exact of_decide_eq_true last.symm
      apply List.length_eq_zero_iff.mp
      show (dropOp system.ops pid).length = 0
      omega
  | commit busy =>
    exact ⟨sound.size, sound.start, sound.distinct, List.nodup_nil, sound.outstanding,
      fun impossible => by cases impossible⟩

theorem claimed_stepped (sound : Sound system) (stepped : Stepped system action next) :
    claimed next ⊆ claimed system ∨
      ∃ pid blockno, action = .check pid blockno ∧ claimed next = insert blockno (claimed system) := by
  cases stepped with
  | beginOp pid missing idle room =>
    left
    intro blockno
    simp only [mem_claimed]
    rintro (logged | ⟨op, member, pending⟩)
    · exact Or.inl logged
    · rcases List.mem_cons.mp member with rfl | member
      · cases pending
      · exact Or.inr ⟨op, member, pending⟩
  | check pid blockno used name found budget passed =>
    exact Or.inr ⟨pid, blockno, rfl, claimed_check sound.distinct found⟩
  | append pid blockno used name found =>
    exact Or.inl (claimed_append sound.distinct found).subset
  | endOp pid used name found idle committing last =>
    exact Or.inl (claimed_endOp sound.distinct found _ rfl).subset
  | commit busy =>
    left
    intro blockno
    rw [mem_claimed, mem_claimed, sound.quiet busy]
    rintro (logged | ⟨op, member, _⟩)
    · cases logged
    · cases member

theorem lh_length_le_claimed (sound : Sound system) :
    system.log.lh.length ≤ (claimed system).card := by
  rw [← List.toFinset_card_of_nodup sound.nodup]
  apply Finset.card_le_card
  intro blockno member
  exact mem_claimed.mpr (Or.inl (List.mem_toFinset.mp member))

/-! ## The header array is never overrun -/

/-- Blocks that the open operations may still add to the header. -/
def reserve (ops : List Operation) : Nat :=
  (ops.map fun op => MAXOPBLOCKS - op.used.length).sum

theorem forall_setOp {property : Operation → Prop} {new : Operation}
    (all : ∀ op ∈ ops, property op) (mine : property new) : ∀ op ∈ setOp ops new, property op := by
  intro op member
  rcases List.mem_map.mp member with ⟨old, listed, rfl⟩
  split
  · exact mine
  · exact all old listed

theorem reserve_setOp (distinct : DistinctPids ops) {new : Operation}
    (found : findOp ops new.pid = some op) :
    reserve (setOp ops new) + (MAXOPBLOCKS - op.used.length) =
      reserve ops + (MAXOPBLOCKS - new.used.length) := by
  induction ops with
  | nil => cases found
  | cons head tail ih =>
    have parts := List.nodup_cons.mp distinct
    by_cases owner : head.pid = new.pid
    · have same : head = op := eq_of_findOp distinct found List.mem_cons_self owner
      have untouched : setOp tail new = tail := by
        calc
          setOp tail new = tail.map id := by
            apply List.map_congr_left
            intro other member
            apply if_neg
            intro equal
            exact parts.1 (List.mem_map.mpr ⟨other, member, equal.trans owner.symm⟩)
          _ = tail := List.map_id tail
      have replaced : setOp (head :: tail) new = new :: tail := by
        change (if head.pid = new.pid then new else head) :: setOp tail new = new :: tail
        rw [if_pos owner, untouched]
      rw [replaced, ← same]
      simp only [reserve, List.map_cons, List.sum_cons]
      omega
    · have later : findOp tail new.pid = some op := by
        simpa [findOp, List.find?_cons, owner] using found
      have counted := ih parts.2 later
      have kept : setOp (head :: tail) new = head :: setOp tail new := by
        simp [setOp, owner]
      rw [kept]
      simp only [reserve, List.map_cons, List.sum_cons] at counted ⊢
      omega

theorem reserve_dropOp_le (ops : List Operation) (pid : Nat) :
    reserve (dropOp ops pid) ≤ reserve ops :=
  List.Sublist.sum_le_sum (List.Sublist.map _ List.filter_sublist) (fun _ _ => Nat.zero_le _)

/-- The budgets of a transaction: what is claimed and what may still be
claimed fit together in `LOGSIZE`. -/
structure Budgeted (system : System) : Prop where
  sound : Sound system
  fits : (claimed system).card + reserve system.ops ≤ LOGSIZE
  used : ∀ op ∈ system.ops, ∀ b ∈ op.used, b ∈ claimed system
  started : ∀ op ∈ system.ops, op.pending.isSome → 0 < op.used.length

theorem pendings_reserve_le (started : ∀ op ∈ ops, op.pending.isSome → 0 < op.used.length) :
    (pendings ops).length + reserve ops ≤ MAXOPBLOCKS * ops.length := by
  induction ops with
  | nil => exact Nat.le_refl _
  | cons head tail ih =>
    have rest := ih (fun op member => started op (List.mem_cons_of_mem _ member))
    have charged := started head List.mem_cons_self
    simp only [pendings, reserve, List.map_cons, List.sum_cons, List.length_cons,
      Nat.mul_add, Nat.mul_one] at rest ⊢
    cases waiting : head.pending with
    | none =>
      rw [List.filterMap_cons_none waiting]
      omega
    | some blockno =>
      rw [waiting] at charged
      have positive := charged rfl
      rw [List.filterMap_cons_some waiting, List.length_cons]
      have : 0 < MAXOPBLOCKS := by decide
      omega

theorem claimed_card_le (system : System) :
    (claimed system).card ≤ system.log.lh.length + (pendings system.ops).length := by
  have bound := List.toFinset_card_le (system.log.lh ++ pendings system.ops)
  rwa [List.length_append] at bound

theorem Budgeted.stepped (budgeted : Budgeted system)
    (stepped : Stepped system action next) : Budgeted next := by
  have sound := budgeted.sound
  have after := sound.stepped stepped
  have fits := budgeted.fits
  cases stepped with
  | beginOp pid missing idle room =>
    have same : claimed ⟨{ system.log with outstanding := system.log.outstanding + 1 },
        ⟨pid, [], none⟩ :: system.ops⟩ = claimed system := by
      ext blockno
      simp [mem_claimed]
    refine ⟨after, ?_, ?_, ?_⟩
    · have counted := claimed_card_le system
      have charged : (pendings system.ops).length + reserve system.ops ≤
          10 * system.ops.length := pendings_reserve_le budgeted.started
      have outstanding := sound.outstanding
      have room : (system.log.lh.length : Int) + (system.log.outstanding + 1) * 10 ≤ 30 := room
      rw [same]
      change (claimed system).card + (10 + reserve system.ops) ≤ 30
      omega
    · rw [same]
      exact List.forall_mem_cons.mpr ⟨nofun, budgeted.used⟩
    · exact List.forall_mem_cons.mpr ⟨nofun, budgeted.started⟩
  | check pid blockno used name found budget passed =>
    have earlier := budgeted.used _ (findOp_eq_some found).1
    refine ⟨after, ?_, ?_, ?_⟩
    · rw [claimed_check sound.distinct found]
      have charged := reserve_setOp sound.distinct
        (show findOp system.ops (Operation.mk pid (used.insert blockno) (some blockno)).pid =
          some ⟨name, used, none⟩ from found)
      by_cases known : blockno ∈ used
      · rw [Finset.insert_eq_of_mem (earlier blockno known)]
        rw [List.insert_of_mem known] at charged ⊢
        simp only at charged ⊢
        omega
      · have grown := Finset.card_insert_le blockno (claimed system)
        rw [List.insert_of_not_mem known] at charged budget ⊢
        simp only [List.length_cons] at charged budget ⊢
        omega
    · rw [claimed_check sound.distinct found]
      refine forall_setOp (fun op listed b charged =>
        Finset.mem_insert_of_mem (budgeted.used op listed b charged)) fun b charged => ?_
      rcases List.mem_insert_iff.mp charged with rfl | old
      · exact Finset.mem_insert_self _ _
      · exact Finset.mem_insert_of_mem (earlier b old)
    · exact forall_setOp budgeted.started fun _ => List.length_pos_of_mem (List.mem_insert_self)
  | append pid blockno used name found =>
    refine ⟨after, ?_, ?_, ?_⟩
    · rw [claimed_append sound.distinct found]
      have charged := reserve_setOp sound.distinct
        (show findOp system.ops (Operation.mk pid used none).pid =
          some ⟨name, used, some blockno⟩ from found)
      simp only at charged ⊢
      omega
    · rw [claimed_append sound.distinct found]
      have earlier := budgeted.used _ (findOp_eq_some found).1
      exact forall_setOp budgeted.used earlier
    · exact forall_setOp budgeted.started nofun
  | endOp pid used name found idle committing last =>
    have same := claimed_endOp sound.distinct found { system.log with
      outstanding := system.log.outstanding - 1, committing := committing } rfl
    refine ⟨after, ?_, ?_, ?_⟩
    · rw [same]
      exact Nat.le_trans (Nat.add_le_add_left (reserve_dropOp_le system.ops pid) _) fits
    · rw [same]
      intro op member
      exact budgeted.used op (List.mem_of_mem_filter member)
    · intro op member
      exact budgeted.started op (List.mem_of_mem_filter member)
  | commit busy =>
    have nobody := sound.quiet busy
    refine ⟨after, ?_, ?_, budgeted.started⟩
    · have nothing : claimed ⟨finishCommit system.log, system.ops⟩ = ∅ := by
        simp [claimed, finishCommit, pendings, nobody]
      rw [nothing, nobody]
      decide
    · intro op member
      have member : op ∈ system.ops := member
      rw [nobody] at member
      cases member

theorem Budgeted.boot : Budgeted System.boot where
  sound := Sound.boot
  fits := by decide
  used := fun _ member => by cases member
  started := fun _ member => by cases member

variable {schedule : List Action}

/-- Whatever the interleaving, the header never holds more than the `LOGSIZE`
entries that `struct logheader` has room for. -/
theorem lh_length_le_LOGSIZE (reached : exec step System.boot schedule = .next system) :
    system.log.lh.length ≤ LOGSIZE := by
  have budgeted : Budgeted system := exec_invariant' Budgeted
    (fun _ _ _ holds stepped => holds.stepped (stepped_of_step stepped)) Budgeted.boot reached
  have counted := lh_length_le_claimed budgeted.sound
  have fits := budgeted.fits
  omega

/-- Two checks may overtake each other. -/
theorem lh_length_le_LOGSIZE_two : ∃ system, exec step System.boot [.beginOp 0, .beginOp 1,
    .check 0 100, .check 1 101, .append 1, .append 0] = .next system ∧
      system.log.lh.length ≤ LOGSIZE := by
  refine Outcome.next_and ⟨_, rfl⟩ fun system reached => ?_
  exact lh_length_le_LOGSIZE reached

/-! ## The region is respected when every check leaves room -/

/-- In every state reached by steps whose checks leave room for the blocks
already admitted, the header fits, and `write_log` and `install_trans` stay
inside the log region, short of the first inode block. -/
theorem log_stays_in_region {schedule : List Action} {system : System}
    (reached : exec step System.boot schedule = .next system)
    (meets : Meets step LeavesRoom System.boot schedule) :
    system.log.lh.length ≤ system.log.size - 1 ∧
      (∀ b ∈ logBlocks system.log,
        system.log.start + 1 ≤ b ∧ b ≤ system.log.start + system.log.size - 1) ∧
      Mkfs.superblock.inodestart ∉ logBlocks system.log := by
  have invariant : Sound system ∧ (claimed system).card ≤ LOGSIZE - 1 := by
    refine exec_invariant (fun system => Sound system ∧ (claimed system).card ≤ LOGSIZE - 1)
      ?_ ⟨Sound.boot, Nat.zero_le _⟩ meets reached
    rintro state action next ⟨sound, room⟩ leaves stepped
    have stepped := stepped_of_step stepped
    refine ⟨sound.stepped stepped, ?_⟩
    rcases claimed_stepped sound stepped with fewer | ⟨pid, blockno, rfl, grown⟩
    · exact Nat.le_trans (Finset.card_le_card fewer) room
    · rw [grown]
      have leaves : (insert blockno (claimed state)).card ≤ state.log.size - 1 := leaves
      rwa [sound.size] at leaves
  rcases invariant with ⟨sound, room⟩
  have short : system.log.lh.length ≤ LOGSIZE - 1 :=
    Nat.le_trans (lh_length_le_claimed sound) room
  have inside : ∀ b ∈ logBlocks system.log,
      system.log.start + 1 ≤ b ∧ b ≤ system.log.start + system.log.size - 1 := by
    intro b member
    rcases List.mem_map.mp member with ⟨tail, bound, rfl⟩
    have bound := List.mem_range.mp bound
    rw [sound.size]
    omega
  refine ⟨by rw [sound.size]; exact short, inside, ?_⟩
  intro member
  have bound := (inside _ member).2
  rw [sound.size, sound.start] at bound
  exact absurd bound (by decide)

theorem log_stays_in_region_two :
    ∃ system, exec step System.boot [.beginOp 0, .check 0 100, .append 0] = .next system ∧
      Meets step LeavesRoom System.boot [.beginOp 0, .check 0 100, .append 0] ∧
      system.log.lh.length ≤ system.log.size - 1 ∧
      (∀ b ∈ logBlocks system.log,
        system.log.start + 1 ≤ b ∧ b ≤ system.log.start + system.log.size - 1) ∧
      Mkfs.superblock.inodestart ∉ logBlocks system.log := by
  have meets : Meets step LeavesRoom System.boot [.beginOp 0, .check 0 100, .append 0] := by
    refine ⟨trivial, fun opened stepped => ⟨?_, fun _ _ => ⟨trivial, fun _ _ => trivial⟩⟩⟩
    cases stepped
    show (insert 100 (claimed _)).card ≤ LOGSIZE - 1
    decide
  exact ⟨_, rfl, meets, log_stays_in_region rfl meets⟩

/-! ## Checks that overtake each other -/

/-- Nine or ten fresh blocks for each of three operations, one step at a
time, up to the point where twenty-eight are in the header. -/
def twentyEightBlocks : List Action :=
  (List.range 3).map Action.beginOp ++
    (List.range 28).flatMap fun i => [Action.check (i % 3) (100 + i), Action.append (i % 3)]

/-- Two processes pass the bound check at twenty-eight entries and then both
append. -/
def overtakingChecks : List Action :=
  twentyEightBlocks ++ [.check 1 200, .check 2 201, .append 1, .append 2]

/-- The two appends leave thirty entries for twenty-nine log blocks, so the
copies of a commit would go up to the first inode block.  With all thirty buffers
pinned the commit does not come to it, since `bget` finds none to recycle. -/
theorem overtakingChecks_overrun :
    ∃ system, exec step System.boot overtakingChecks = .next system ∧
      system.log.lh.length = system.log.size ∧
      Mkfs.superblock.inodestart ∈ logBlocks system.log :=
  ⟨_, rfl, rfl, by decide⟩

end Log
end Xv6
