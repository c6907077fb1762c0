import Mathlib.Algebra.Order.BigOperators.Group.Finset
import Mathlib.Data.BitVec
import Xv6.Foundation.Run
import Xv6.Foundation.Tally
import Xv6.Log.Crash

namespace Xv6
namespace Buffer

open Foundation Function
open Log

/-!
# Reference counts of buffers

A buffer should be counted once for every process that has asked for it and
not yet released it, and once more while its block is in the in-memory log
header.  The processes here read, modify, write, log and release buffers in
any order that the buffer protocol allows; `bread` is two steps, so that a
process may wait for a buffer that another one has locked.

`install_trans` drops one count of every block it installs.  In `commit` that
is the count that `log_write` took; in recovery nothing was pinned, and the
count goes below zero.
-/

/-! ## The calls -/

/-- `log_write`: a block that is new to the header is pinned. -/
def logWrite (index : Index) : Kernel PUnit := do
  let machine ← get
  match logWriteCheck machine.log with
  | some reason => throw (.panic reason)
  | none =>
    let blockno := (machine.bufs index).blockno
    if blockno ∈ machine.log.lh then pure ⟨⟩ else bpin index
    modify fun machine => { machine with log := logWriteAppend machine.log blockno }

/-- The rest of `end_op` after its first critical section, for the last
operation. -/
def finishOp (pid : Pid) (log : LogState) : Kernel PUnit := do
  modify fun machine => { machine with log := log }
  commit pid
  modify fun machine => { machine with log := { machine.log with committing := false } }

/-- The machine, and which processes are inside an operation. -/
structure System where
  machine : Machine
  inOp : Pid → Bool

/-- The steps of the processes.  `bread` is `bget` and then `lock`. -/
inductive Action where
  | bget (pid : Pid) (blockno : Nat)
  | lock (pid : Pid)
  | assign (pid : Pid) (index : Index) (data : Block)
  | bwrite (pid : Pid) (index : Index)
  | brelse (pid : Pid) (index : Index)
  | beginOp (pid : Pid)
  | logWrite (pid : Pid) (index : Index)
  | endOp (pid : Pid)

namespace System

/-- Run a program on the machine. -/
def attempt {α : Type} (system : System) (program : Kernel α) : Outcome Panic System :=
  match program.run system.machine with
  | .ok _ machine => .next { system with machine := machine }
  | .error .asleep _ => .blocked
  | .error (.panic reason) _ => .halted reason

/-- The process has locked the buffer and is not waiting for another one. -/
def Holds (system : System) (pid : Pid) (index : Index) : Prop :=
  system.machine.waiting pid = none ∧ (system.machine.bufs index).holder = some pid

instance (system : System) (pid : Pid) (index : Index) : Decidable (system.Holds pid index) :=
  inferInstanceAs (Decidable (_ ∧ _))

end System

/-- One step.  It is blocked when the caller has to sleep, or when the buffer
protocol forbids the call. -/
def step (system : System) : Action → Outcome Panic System
  | .bget pid blockno =>
    if system.machine.waiting pid = none then
      system.attempt (bgetFind pid system.machine.log.dev blockno)
    else .blocked
  | .lock pid =>
    match system.machine.waiting pid with
    | some index => system.attempt (do acquiresleep pid index; validate index)
    | none => .blocked
  | .assign pid index data =>
    if system.Holds pid index then system.attempt (modifyData index fun _ => data) else .blocked
  | .bwrite pid index =>
    if system.Holds pid index then system.attempt (Buffer.bwrite pid index) else .blocked
  | .brelse pid index =>
    if system.Holds pid index then system.attempt (Buffer.brelse pid index) else .blocked
  | .beginOp pid =>
    if system.machine.waiting pid = none ∧ system.inOp pid = false then
      match Log.beginOp system.machine.log with
      | some log =>
        .next { machine := { system.machine with log := log }
                inOp := update system.inOp pid true }
      | none => .blocked
    else .blocked
  | .logWrite pid index =>
    if system.Holds pid index ∧ system.inOp pid then system.attempt (Buffer.logWrite index)
    else .blocked
  | .endOp pid =>
    if system.machine.waiting pid = none ∧ system.inOp pid then
      let system := { system with inOp := update system.inOp pid false }
      match Log.endOp system.machine.log with
      | .error reason => .halted reason
      | .ok (log, false) => .next { system with machine := { system.machine with log := log } }
      | .ok (log, true) => system.attempt (finishOp pid log)
    else .blocked

/-! ## Exact counts -/

/-- The processes that wait for a buffer. -/
def waiters (machine : Machine) (index : Index) : Nat :=
  ∑ pid, if machine.waiting pid = some index then 1 else 0

/-- One for the process that has locked the buffer. -/
def lockers (machine : Machine) (index : Index) : Nat :=
  if (machine.bufs index).holder = none then 0 else 1

/-- The buffers are counted exactly: once for each process that has asked for
the buffer and not released it, and once if its block is in the header.  No
count has gone below zero, and no buffer in use was recycled. -/
structure CountsExact (machine : Machine) : Prop where
  count : ∀ index, (machine.bufs index).refcnt.toNat =
    waiters machine index + lockers machine index +
      if (machine.bufs index).dev = machine.log.dev ∧
        (machine.bufs index).blockno ∈ machine.log.lh then 1 else 0
  underflow : machine.underflow = false
  stolen : machine.stolen = false

/-- From a boot disk on: recovery completes and leaves all counts at zero, and
the counts are exact in every state that the processes reach. -/
structure ExactFromBoot (disk : Nat → Block) (sb : Superblock) : Prop where
  boots : ∃ machine,
    (recoverFromLog 0).run (Machine.boot disk (initlog ROOTDEV sb)) = .ok ⟨⟩ machine ∧
      machine.underflow = false ∧ ∀ index, (machine.bufs index).refcnt = 0
  later : ∀ machine schedule system,
    (recoverFromLog 0).run (Machine.boot disk (initlog ROOTDEV sb)) = .ok ⟨⟩ machine →
      exec step ⟨machine, fun _ => false⟩ schedule = .next system → CountsExact system.machine

/-! ## The invariant -/

/-- The invariant inside a call: the counts are exact with respect to the
blocks that are pinned, and every pinned block is cached. -/
structure Exact (machine : Machine) : Prop where
  wellformed : Wellformed machine
  device : machine.log.dev ≠ 0
  onDevice : ∀ index, (machine.bufs index).refcnt ≠ 0 → (machine.bufs index).dev = machine.log.dev
  count : ∀ index, (machine.bufs index).refcnt.toNat =
    waiters machine index + lockers machine index + if machine.Pinned index then 1 else 0
  cached : ∀ blockno ∈ machine.pins, ∃ index, machine.Keyed machine.log.dev blockno index
  distinct : machine.pins.Nodup
  underflow : machine.underflow = false
  stolen : machine.stolen = false

variable {before after machine : Machine} {pid : Pid}

theorem waiters_update {value : Option Index}
    (waiting : after.waiting = update before.waiting pid value) (index : Index) :
    waiters after index + (if before.waiting pid = some index then 1 else 0) =
      waiters before index + if value = some index then 1 else 0 := by
  unfold waiters
  rw [waiting]
  exact sum_update (fun target => if target = some index then 1 else 0) before.waiting pid value

theorem waiters_congr (waiting : after.waiting = before.waiting)
    (index : Index) : waiters after index = waiters before index := by
  rw [waiters, waiters, waiting]

theorem waiters_le (machine : Machine) (index : Index) : waiters machine index ≤ NPROC := by
  calc waiters machine index ≤ ∑ _pid : Pid, 1 :=
        Finset.sum_le_sum fun pid _ => by split <;> omega
    _ = NPROC := by simp

theorem lockers_le (machine : Machine) (index : Index) : lockers machine index ≤ 1 := by
  unfold lockers
  split <;> omega

variable {buf : Buf}

namespace Exact

variable {blockno : Nat} {index : Index}

section

variable (exact : Exact machine)
include exact

theorem small (index : Index) : (machine.bufs index).refcnt.toNat ≤ NPROC + 2 := by
  have count := exact.count index
  have waiting := waiters_le machine index
  have locking := lockers_le machine index
  split at count <;> omega

/-- A buffer with count zero is not in use. -/
theorem unused (isFree : (machine.bufs index).refcnt = 0) :
    waiters machine index = 0 ∧ (machine.bufs index).holder = none ∧ ¬ machine.Pinned index := by
  have count := exact.count index
  rw [isFree, show (0 : BitVec 32).toNat = 0 from rfl] at count
  refine ⟨by omega, exact.wellformed.idle index isFree, fun isPinned => ?_⟩
  rw [if_pos isPinned] at count
  omega

theorem not_used (isFree : (machine.bufs index).refcnt = 0) : ¬ machine.Used index := by
  rcases exact.unused isFree with ⟨nobody, unlocked, unpinned⟩
  rintro (isLocked | ⟨pid, waits⟩ | isPinned)
  · exact isLocked unlocked
  · have zero := (Finset.sum_eq_zero_iff.mp nobody) pid (Finset.mem_univ pid)
    rw [if_pos waits] at zero
    cases zero
  · exact unpinned isPinned

theorem toNat_add_one (index : Index) :
    ((machine.bufs index).refcnt + 1).toNat = (machine.bufs index).refcnt.toNat + 1 := by
  have bound := exact.small index
  have limit : NPROC + 2 < 2 ^ 32 - 1 := by decide
  rw [BitVec.toNat_add, show (1 : BitVec 32).toNat = 1 from rfl, Nat.mod_eq_of_lt (by omega)]

section

variable (chosen : machine.Chosen machine.log.dev blockno index)
include chosen

theorem of_update (bufs : after.bufs = update machine.bufs index buf) (ring : Complete after.ring)
    (dev : after.log.dev = machine.log.dev)
    (keyed : buf.dev = machine.log.dev ∧ buf.blockno = blockno)
    (waiting : ∀ other, other ≠ index → waiters after other = waiters machine other)
    (pins : ∀ other, other ≠ blockno → (other ∈ after.pins ↔ other ∈ machine.pins))
    (count : buf.refcnt.toNat = waiters after index + (if buf.holder = none then 0 else 1) +
      if blockno ∈ after.pins then 1 else 0)
    (distinct : after.pins.Nodup) (underflow : after.underflow = false)
    (stolen : after.stolen = false) : Exact after := by
  rcases eq_of_update bufs with ⟨used, others⟩
  have alone : ∀ other, machine.Keyed machine.log.dev blockno other → other = index := by
    intro other alsoKeyed
    rcases chosen with hit | ⟨_, missing⟩
    · exact exact.wellformed.unique other index (alsoKeyed.1.symm ▸ exact.device)
        (alsoKeyed.1.trans hit.1.symm) (alsoKeyed.2.trans hit.2.symm)
    · exact absurd alsoKeyed (missing other)
  have idle : buf.refcnt = 0 → buf.holder = none := by
    intro isFree
    rw [isFree, show (0 : BitVec 32).toNat = 0 from rfl] at count
    by_contra isLocked
    rw [if_neg isLocked] at count
    omega
  refine ⟨wellformed_update exact.wellformed exact.device chosen bufs ring keyed idle,
    dev.symm ▸ exact.device, ?_, ?_, ?_, distinct, underflow, stolen⟩
  · intro other counted
    by_cases same : other = index
    · rw [same, used, keyed.1, dev]
    · rw [others other same] at counted ⊢
      rw [dev]
      exact exact.onDevice other counted
  · intro other
    by_cases same : other = index
    · subst other
      simp only [lockers, Machine.Pinned, used, keyed.1, keyed.2, dev, true_and]
      exact count
    · have samePin : after.Pinned other ↔ machine.Pinned other := by
        unfold Machine.Pinned
        rw [others other same, dev]
        refine and_congr_right fun onDevice => pins _ fun isBlock => ?_
        exact same (alone other ⟨onDevice, isBlock⟩)
      rw [others other same, waiting other same, lockers, others other same]
      simp only [samePin]
      exact exact.count other
  · intro other isPinned
    by_cases isBlock : other = blockno
    · refine ⟨index, ?_⟩
      rw [Machine.Keyed, used, dev, isBlock]
      exact keyed
    · rcases exact.cached other ((pins other isBlock).mp isPinned) with ⟨place, placed⟩
      have notUsed : place ≠ index := by
        rintro rfl
        rcases chosen with hit | ⟨isFree, _⟩
        · exact isBlock (placed.2.symm.trans hit.2)
        · exact (exact.unused isFree).2.2 ⟨placed.1, placed.2 ▸ (pins other isBlock).mp isPinned⟩
      refine ⟨place, ?_⟩
      rwa [Machine.Keyed, others place notUsed, dev]

theorem pinned_iff : blockno ∈ machine.pins ↔ machine.Pinned index := by
  rcases chosen with hit | ⟨isFree, missing⟩
  · rw [Machine.Pinned, hit.1, hit.2]
    simp
  · refine ⟨fun isPinned => ?_, fun isPinned => absurd isPinned (exact.unused isFree).2.2⟩
    rcases exact.cached blockno isPinned with ⟨other, keyed⟩
    exact absurd keyed (missing other)

theorem count_chosen :
    (machine.bufs index).refcnt.toNat = waiters machine index +
      (if (machine.bufs index).holder = none then 0 else 1) +
        if blockno ∈ machine.pins then 1 else 0 := by
  rw [exact.count index, lockers]
  simp only [exact.pinned_iff chosen]

end

/-- Asking for a buffer counts the caller. -/
theorem reserve (awake : machine.waiting pid = none)
    (chosen : machine.Chosen machine.log.dev blockno index) :
    Exact (machine.reserved pid machine.log.dev blockno index) := by
  have waiting : ∀ other, waiters (machine.reserved pid machine.log.dev blockno index) other =
      waiters machine other + if index = other then 1 else 0 := by
    intro other
    have updated := waiters_update
      (rfl : (machine.reserved pid machine.log.dev blockno index).waiting = _) other
    simpa [awake] using updated
  refine exact.of_update chosen rfl exact.wellformed.ring rfl ⟨rfl, rfl⟩ ?_ (fun _ _ => Iff.rfl) ?_
    exact.distinct exact.underflow ?_
  · intro other different
    rw [waiting, if_neg different.symm, Nat.add_zero]
  · have count := exact.count_chosen chosen
    rw [waiting, if_pos rfl]
    show ((machine.bufs index).refcnt + 1).toNat = waiters machine index + 1 +
      (if (machine.bufs index).holder = none then 0 else 1) +
        if blockno ∈ machine.pins then 1 else 0
    rw [exact.toNat_add_one index]
    omega
  · rw [Machine.reserved]
    simp only [exact.stolen, Bool.false_or, decide_eq_false_iff_not]
    rintro ⟨notKeyed, isUsed⟩
    rcases chosen with hit | ⟨isFree, _⟩
    · exact notKeyed hit
    · exact exact.not_used isFree isUsed

theorem keyed_of_counted (counted : (machine.bufs index).refcnt ≠ 0) :
    machine.Keyed machine.log.dev (machine.bufs index).blockno index :=
  ⟨exact.onDevice index counted, rfl⟩

theorem counted_of_waiting (waits : machine.waiting pid = some index) :
    (machine.bufs index).refcnt ≠ 0 :=
  fun isFree => exact.not_used isFree (Or.inr (Or.inl ⟨pid, waits⟩))

theorem counted_of_held (held : (machine.bufs index).holder = some pid) :
    (machine.bufs index).refcnt ≠ 0 :=
  fun isFree => exact.not_used isFree (Or.inl (by rw [held]; exact Option.some_ne_none pid))

/-- Locking a buffer turns a waiting process into its holder. -/
theorem lock (waits : machine.waiting pid = some index)
    (unlocked : (machine.bufs index).holder = none) : Exact (machine.locked pid index) := by
  have waiting : ∀ other, waiters (machine.locked pid index) other + (if index = other then 1 else 0) =
      waiters machine other := by
    intro other
    have updated := waiters_update (rfl : (machine.locked pid index).waiting = _) other
    simpa [waits] using updated
  have keyed := exact.keyed_of_counted (exact.counted_of_waiting waits)
  refine exact.of_update (Or.inl keyed) rfl exact.wellformed.ring rfl ⟨keyed.1, rfl⟩ ?_
    (fun _ _ => Iff.rfl) ?_ exact.distinct exact.underflow exact.stolen
  · intro other different
    have updated := waiting other
    rwa [if_neg different.symm, Nat.add_zero] at updated
  · have count := exact.count_chosen (Or.inl keyed)
    have updated := waiting index
    rw [if_pos rfl] at updated
    rw [if_pos unlocked] at count
    show (machine.bufs index).refcnt.toNat = waiters (machine.locked pid index) index + 1 +
      if (machine.bufs index).blockno ∈ machine.pins then 1 else 0
    omega

end

theorem toNat_sub_one (counted : (machine.bufs index).refcnt ≠ 0) :
    ((machine.bufs index).refcnt - 1).toNat + 1 = (machine.bufs index).refcnt.toNat := by
  have positive : 0 < (machine.bufs index).refcnt.toNat :=
    Nat.pos_of_ne_zero fun zero => counted (BitVec.eq_of_toNat_eq zero)
  have bound := (machine.bufs index).refcnt.isLt
  rw [BitVec.toNat_sub, show (1 : BitVec 32).toNat = 1 from rfl]
  omega

variable (exact : Exact machine)
include exact

/-- Releasing a buffer uncounts its holder. -/
theorem release (held : (machine.bufs index).holder = some pid)
    {ring : LinkedRing Index} (complete : Complete ring) :
    Exact { machine.setBuf index { machine.bufs index with
        holder := none
        refcnt := (machine.bufs index).refcnt - 1 } with
      ring := ring
      underflow := machine.underflow || decide ((machine.bufs index).refcnt = 0) } := by
  have counted := exact.counted_of_held held
  have keyed := exact.keyed_of_counted counted
  refine exact.of_update (Or.inl keyed) rfl complete rfl ⟨keyed.1, rfl⟩ (fun _ _ => rfl)
    (fun _ _ => Iff.rfl) ?_ exact.distinct ?_ exact.stolen
  · have count := exact.count_chosen (Or.inl keyed)
    have minusOne := toNat_sub_one counted
    rw [held, if_neg (Option.some_ne_none pid)] at count
    show ((machine.bufs index).refcnt - 1).toNat = waiters machine index + 0 +
      if (machine.bufs index).blockno ∈ machine.pins then 1 else 0
    omega
  · simpa [exact.underflow] using counted

/-- Pinning a block counts its buffer once more. -/
theorem pin (held : (machine.bufs index).holder = some pid)
    (fresh : (machine.bufs index).blockno ∉ machine.pins) :
    Exact { machine.setBuf index { machine.bufs index with
        refcnt := (machine.bufs index).refcnt + 1 } with
      pins := (machine.bufs index).blockno :: machine.pins } := by
  have keyed := exact.keyed_of_counted (exact.counted_of_held held)
  refine exact.of_update (Or.inl keyed) rfl exact.wellformed.ring rfl ⟨keyed.1, rfl⟩
    (fun _ _ => rfl) (fun other different => by simp [different]) ?_
    (List.nodup_cons.mpr ⟨fresh, exact.distinct⟩) exact.underflow exact.stolen
  have count := exact.count_chosen (Or.inl keyed)
  rw [if_neg fresh] at count
  show ((machine.bufs index).refcnt + 1).toNat = waiters machine index +
    (if (machine.bufs index).holder = none then 0 else 1) +
      if (machine.bufs index).blockno ∈ (machine.bufs index).blockno :: machine.pins then 1 else 0
  rw [exact.toNat_add_one index, count, if_pos List.mem_cons_self]

/-- Unpinning a pinned block takes that count away. -/
theorem unpin (isPinned : machine.Pinned index) :
    Exact { decrement machine index with
      pins := machine.pins.erase (machine.bufs index).blockno } := by
  have counted : (machine.bufs index).refcnt ≠ 0 := fun isFree =>
    (exact.unused isFree).2.2 isPinned
  have keyed := exact.keyed_of_counted counted
  refine exact.of_update (Or.inl keyed) rfl exact.wellformed.ring rfl ⟨keyed.1, rfl⟩
    (fun _ _ => rfl) (fun other different => List.mem_erase_of_ne different) ?_
    (exact.distinct.erase _) ?_ exact.stolen
  · have count := exact.count_chosen (Or.inl keyed)
    have minusOne := toNat_sub_one counted
    rw [if_pos isPinned.2] at count
    show ((machine.bufs index).refcnt - 1).toNat = waiters machine index +
      (if (machine.bufs index).holder = none then 0 else 1) +
        if (machine.bufs index).blockno ∈ machine.pins.erase (machine.bufs index).blockno then 1
        else 0
    rw [if_neg (List.Nodup.not_mem_erase exact.distinct)]
    omega
  · simpa [decrement, exact.underflow] using counted

theorem congr (bufs : ∀ index, (after.bufs index).dev = (machine.bufs index).dev ∧
      (after.bufs index).blockno = (machine.bufs index).blockno ∧
      (after.bufs index).holder = (machine.bufs index).holder ∧
      (after.bufs index).refcnt = (machine.bufs index).refcnt)
    (ring : after.ring = machine.ring) (waiting : after.waiting = machine.waiting)
    (dev : after.log.dev = machine.log.dev) (pins : after.pins = machine.pins)
    (underflow : after.underflow = machine.underflow) (stolen : after.stolen = machine.stolen) :
    Exact after := by
  have devs := fun index => (bufs index).1
  have blocknos := fun index => (bufs index).2.1
  have holders := fun index => (bufs index).2.2.1
  have refcnts := fun index => (bufs index).2.2.2
  have keys : ∀ other index, after.Keyed after.log.dev other index ↔
      machine.Keyed machine.log.dev other index := by
    intro other index
    rw [Machine.Keyed, Machine.Keyed, devs, blocknos, dev]
  have pinned : ∀ index, after.Pinned index ↔ machine.Pinned index := by
    intro index
    rw [Machine.Pinned, Machine.Pinned, devs, blocknos, dev, pins]
  refine ⟨⟨ring ▸ exact.wellformed.ring, ?_, ?_⟩, dev ▸ exact.device, ?_, ?_, ?_,
    pins ▸ exact.distinct, underflow.trans exact.underflow, stolen.trans exact.stolen⟩
  · intro first second
    rw [devs, devs, blocknos, blocknos]
    exact exact.wellformed.unique first second
  · intro index
    rw [refcnts, holders]
    exact exact.wellformed.idle index
  · intro index
    rw [refcnts, devs, dev]
    exact exact.onDevice index
  · intro index
    rw [refcnts, waiters_congr waiting, lockers, holders]
    simp only [pinned]
    exact exact.count index
  · intro blockno isPinned
    rw [pins] at isPinned
    simpa only [keys] using exact.cached blockno isPinned

end Exact

/-! ## The programs keep the invariant -/

/-- Who has locked which buffer. -/
def holders (machine : Machine) : Index → Option Pid :=
  fun index => (machine.bufs index).holder

variable {index : Index}

theorem holders_update {held : Option Pid}
    (bufs : after.bufs = update before.bufs index buf) (holder : buf.holder = held) :
    holders after = update (holders before) index held := by
  funext other
  rw [holders, bufs, apply_update fun _ => Buf.holder, holder]
  rfl

/-- The invariant holds after some calls, with these holders and pinned
blocks; who waits, and the log, are as before. -/
structure Tracked (before after : Machine) (held : Index → Option Pid) (pins : List Nat) :
    Prop where
  exact : Exact after
  holders : holders after = held
  pins : after.pins = pins
  waiting : after.waiting = before.waiting
  log : after.log = before.log

variable {held : Index → Option Pid}

theorem Tracked.trans {middle : Machine} {held' : Index → Option Pid}
    {pins pins' : List Nat} (first : Tracked before middle held pins)
    (second : Tracked middle after held' pins') : Tracked before after held' pins' :=
  ⟨second.exact, second.holders, second.pins, second.waiting.trans first.waiting,
    second.log.trans first.log⟩

section

variable (exact : Exact machine)
include exact

theorem bread_tracked (awake : machine.waiting pid = none) (blockno : Nat) :
    Wp (bread pid machine.log.dev blockno) machine (fun index after =>
      holders machine index = none ∧ after.Keyed after.log.dev blockno index ∧
        Tracked machine after (update (holders machine) index (some pid)) machine.pins)
      fun _ _ => True := by
  refine (bread_wp pid machine.log.dev blockno exact.wellformed.ring).mono ?_ fun _ _ _ => trivial
  rintro index after ⟨chosen, isFree, rfl⟩
  have reserved := exact.reserve awake chosen
  have waits : (machine.reserved pid machine.log.dev blockno index).waiting pid = some index :=
    update_self _ _ _
  have loaded : Exact (machine.loaded pid machine.log.dev blockno index) :=
    reserved.lock waits (by simpa [Machine.reserved] using isFree)
  rw [Machine.loaded_eq] at loaded ⊢
  refine ⟨isFree, ⟨by simp, by simp⟩, loaded, holders_update rfl rfl, rfl, ?_, rfl⟩
  · funext other
    by_cases same : other = pid
    · subst other
      simp [awake]
    · simp [same]

theorem modifyData_tracked (update : Block → Block) :
    Wp (modifyData index update) machine (fun _ after =>
      (∀ dev blockno other, after.Keyed dev blockno other ↔ machine.Keyed dev blockno other) ∧
        Tracked machine after (holders machine) machine.pins) fun _ _ => True := by
  simp only [modifyData, wp_modify]
  have fields : ∀ other, Function.update machine.bufs index
        { machine.bufs index with data := update (machine.bufs index).data } other =
      { machine.bufs other with
        data := if other = index then update (machine.bufs other).data
          else (machine.bufs other).data } := by
    intro other
    by_cases same : other = index
    · subst other
      simp
    · simp [same]
  refine ⟨fun dev blockno other => ?_, ?_, ?_, rfl, rfl, rfl⟩
  · simp only [Machine.Keyed, Machine.setBuf, fields]
  · refine exact.congr (fun other => ?_) rfl rfl rfl rfl rfl rfl
    simp only [Machine.setBuf, fields, and_self]
  · funext other
    simp only [holders, Machine.setBuf, fields]

theorem bwrite_tracked :
    Wp (Buffer.bwrite pid index) machine (fun _ after =>
      (∀ dev blockno other, after.Keyed dev blockno other ↔ machine.Keyed dev blockno other) ∧
        Tracked machine after (holders machine) machine.pins) fun _ _ => True := by
  simp only [Buffer.bwrite, diskWrite, wp_bind, wp_get, wp_ite, wp_throw, wp_modify]
  split
  · trivial
  · exact ⟨fun _ _ _ => Iff.rfl,
      exact.congr (fun _ => ⟨rfl, rfl, rfl, rfl⟩) rfl rfl rfl rfl rfl rfl, rfl, rfl, rfl, rfl⟩

theorem brelse_tracked (held : holders machine index = some pid) :
    Wp (Buffer.brelse pid index) machine (fun _ after =>
      (∀ dev blockno other, after.Keyed dev blockno other ↔ machine.Keyed dev blockno other) ∧
        Tracked machine after (update (holders machine) index none) machine.pins)
      fun _ _ => True := by
  refine (brelse_wp exact.wellformed.ring held).mono ?_ fun _ _ _ => trivial
  rintro _ after ⟨ring, complete, rfl⟩
  refine ⟨fun dev blockno other => ?_, exact.release held complete, holders_update rfl rfl, rfl, rfl,
    rfl⟩
  by_cases same : other = index
  · subst other
    simp [Machine.Keyed]
  · simp [Machine.Keyed, same]

theorem bunpin_tracked {blockno : Nat} (keyed : machine.Keyed machine.log.dev blockno index)
    (isPinned : blockno ∈ machine.pins) :
    Wp (bunpin index) machine (fun _ after =>
      Tracked machine after (holders machine) (machine.pins.erase blockno)) fun _ _ => True := by
  simp only [bunpin, wp_modify]
  refine ⟨exact.unpin ⟨keyed.1, keyed.2.symm ▸ isPinned⟩, ?_, by rw [keyed.2], rfl, rfl⟩
  exact (holders_update rfl (by rfl)).trans (update_eq_self index (holders machine))

end

theorem update_update_none (isFree : held index = none) :
    update (update held index (some pid)) index none = held := by
  rw [update_idem, ← isFree, update_eq_self]

section

variable (exact : Exact machine) (awake : machine.waiting pid = none)
include exact awake

theorem writeHead_tracked :
    Wp (writeHead pid) machine
      (fun _ after => Tracked machine after (holders machine) machine.pins) fun _ _ => True := by
  simp only [writeHead, wp_bind, wp_get]
  refine (bread_tracked exact awake _).imp ?_
  rintro index loaded ⟨isFree, _, first⟩
  refine (modifyData_tracked first.exact _).imp ?_
  rintro _ changed ⟨_, second⟩
  refine (bwrite_tracked second.exact).imp ?_
  rintro _ written ⟨_, third⟩
  have holds : holders written = update (holders machine) index (some pid) := by
    rw [third.holders, second.holders, first.holders]
  refine (brelse_tracked third.exact (by rw [holds, update_self])).imp ?_
  rintro _ after ⟨_, last⟩
  rw [holds, update_update_none isFree, third.pins, second.pins, first.pins] at last
  exact ((first.trans second).trans third).trans last

variable (tail : Nat)

theorem writeLogBlock_tracked (entry : Nat) :
    Wp (writeLogBlock pid tail entry) machine
      (fun _ after => Tracked machine after (holders machine) machine.pins) fun _ _ => True := by
  simp only [writeLogBlock, wp_bind, wp_get]
  refine (bread_tracked exact awake _).imp ?_
  rintro target loaded ⟨targetFree, _, first⟩
  rw [← first.log]
  refine (bread_tracked first.exact (first.waiting ▸ awake) _).imp ?_
  rintro source both ⟨sourceFree, _, second⟩
  refine (modifyData_tracked second.exact _).imp ?_
  rintro _ changed ⟨_, third⟩
  refine (bwrite_tracked third.exact).imp ?_
  rintro _ written ⟨_, fourth⟩
  have sofar := ((first.trans second).trans third).trans fourth
  have holds : holders written =
      update (update (holders machine) target (some pid)) source (some pid) := by
    rw [fourth.holders, third.holders, second.holders, first.holders]
  refine (brelse_tracked fourth.exact (by rw [holds, update_self])).imp ?_
  rintro _ released ⟨_, fifth⟩
  rw [holds, update_update_none (first.holders ▸ sourceFree)] at fifth
  refine (brelse_tracked fifth.exact (by rw [fifth.holders, update_self])).imp ?_
  rintro _ after ⟨_, last⟩
  rw [fifth.holders, update_update_none targetFree, fifth.pins, fourth.pins, third.pins, second.pins,
    first.pins] at last
  exact (sofar.trans fifth).trans last

theorem installBlock_tracked {entry : Nat} (isPinned : entry ∈ machine.pins) :
    Wp (installBlock pid tail entry) machine
      (fun _ after => Tracked machine after (holders machine) (machine.pins.erase entry))
      fun _ _ => True := by
  simp only [installBlock, wp_bind, wp_get]
  refine (bread_tracked exact awake _).imp ?_
  rintro lbuf loaded ⟨lbufFree, _, first⟩
  rw [← first.log]
  refine (bread_tracked first.exact (first.waiting ▸ awake) _).imp ?_
  rintro dbuf both ⟨dbufFree, keyed, second⟩
  refine (modifyData_tracked second.exact _).imp ?_
  rintro _ changed ⟨keys, third⟩
  refine (bwrite_tracked third.exact).imp ?_
  rintro _ written ⟨keys', fourth⟩
  have pins : written.pins = machine.pins := by
    rw [fourth.pins, third.pins, second.pins, first.pins]
  have sameLog : written.log = both.log := fourth.log.trans third.log
  have stillKeyed : written.Keyed written.log.dev entry dbuf := by
    rw [keys', keys, sameLog]
    exact keyed
  refine (bunpin_tracked fourth.exact stillKeyed (pins ▸ isPinned)).imp ?_
  rintro _ unpinned fifth
  have sofar := (((first.trans second).trans third).trans fourth).trans fifth
  have holds : holders unpinned =
      update (update (holders machine) lbuf (some pid)) dbuf (some pid) := by
    rw [fifth.holders, fourth.holders, third.holders, second.holders, first.holders]
  have different : lbuf ≠ dbuf := by
    rintro rfl
    rw [first.holders, update_self] at dbufFree
    cases dbufFree
  have dbufFree' : holders machine dbuf = none := by
    rwa [first.holders, update_of_ne different.symm] at dbufFree
  rw [update_comm different] at holds
  refine (brelse_tracked fifth.exact (by rw [holds, update_self])).imp ?_
  rintro _ released ⟨_, sixth⟩
  rw [holds, update_update_none (by rwa [update_of_ne different])] at sixth
  refine (brelse_tracked sixth.exact (by rw [sixth.holders, update_self])).imp ?_
  rintro _ after ⟨_, last⟩
  rw [sixth.holders, update_update_none dbufFree', sixth.pins, fifth.pins, pins] at last
  exact (sofar.trans sixth).trans last

theorem writeLog_tracked (entries : List Nat) :
    Wp (forEntries (writeLogBlock pid) tail entries) machine
      (fun _ after => Tracked machine after (holders machine) machine.pins) fun _ _ => True := by
  induction entries generalizing machine tail with
  | nil =>
    rw [forEntries, wp_pure]
    exact ⟨exact, rfl, rfl, rfl, rfl⟩
  | cons entry rest ih =>
    simp only [forEntries, wp_bind]
    refine (writeLogBlock_tracked exact awake tail entry).imp ?_
    rintro _ middle first
    refine (ih first.exact (first.waiting ▸ awake) (tail + 1)).imp ?_
    rintro _ after second
    rw [first.holders, first.pins] at second
    exact first.trans second

theorem installTrans_tracked {entries : List Nat} (distinct : entries.Nodup)
    (pinned : ∀ blockno, blockno ∈ machine.pins ↔ blockno ∈ entries) :
    Wp (forEntries (installBlock pid) tail entries) machine
      (fun _ after => Tracked machine after (holders machine) []) fun _ _ => True := by
  induction entries generalizing machine tail with
  | nil =>
    rw [forEntries, wp_pure]
    exact ⟨exact, rfl, List.eq_nil_iff_forall_not_mem.mpr (by simpa using pinned), rfl, rfl⟩
  | cons entry rest ih =>
    rw [List.nodup_cons] at distinct
    simp only [forEntries, wp_bind]
    refine (installBlock_tracked exact awake tail ((pinned entry).mpr List.mem_cons_self)).imp ?_
    rintro _ middle first
    have stillPinned : ∀ blockno, blockno ∈ middle.pins ↔ blockno ∈ rest := by
      intro blockno
      rw [first.pins, exact.distinct.mem_erase_iff, pinned, List.mem_cons]
      constructor
      · rintro ⟨other, same | member⟩
        · exact absurd same other
        · exact member
      · intro member
        exact ⟨fun same => distinct.1 (same ▸ member), Or.inr member⟩
    refine (ih first.exact (first.waiting ▸ awake) (tail + 1) distinct.2 stillPinned).imp ?_
    rintro _ after second
    rw [first.holders] at second
    exact first.trans second

end

/-! ## Runs keep the counts exact -/

/-- Between the calls the pinned blocks are those in the header. -/
structure Consistent (machine : Machine) : Prop where
  exact : Exact machine
  header : ∀ blockno, blockno ∈ machine.pins ↔ blockno ∈ machine.log.lh
  distinct : machine.log.lh.Nodup

variable {log : LogState}

theorem Exact.withLog (exact : Exact machine)
    (dev : log.dev = machine.log.dev) : Exact { machine with log := log } :=
  exact.congr (fun _ => ⟨rfl, rfl, rfl, rfl⟩) rfl rfl dev rfl rfl rfl

namespace Consistent

variable (consistent : Consistent machine)
include consistent

theorem countsExact : CountsExact machine where
  count := by
    intro index
    rw [consistent.exact.count index]
    simp only [Machine.Pinned, consistent.header]
  underflow := consistent.exact.underflow
  stolen := consistent.exact.stolen

theorem withLog (dev : log.dev = machine.log.dev) (lh : log.lh = machine.log.lh) :
    Consistent { machine with log := log } :=
  ⟨consistent.exact.withLog dev, fun blockno => by rw [lh]; exact consistent.header blockno,
    lh ▸ consistent.distinct⟩

theorem of_tracked (tracked : Tracked machine after held machine.pins) : Consistent after :=
  ⟨tracked.exact, fun blockno => by rw [tracked.pins, tracked.log]; exact consistent.header blockno,
    tracked.log ▸ consistent.distinct⟩

theorem bgetFind (awake : machine.waiting pid = none) (blockno : Nat) :
    Wp (bgetFind pid machine.log.dev blockno) machine (fun _ => Consistent) fun _ _ => True := by
  refine (bgetFind_wp pid machine.log.dev blockno consistent.exact.wellformed.ring).mono ?_
    fun _ _ _ => trivial
  rintro index after ⟨chosen, rfl⟩
  exact ⟨consistent.exact.reserve awake chosen, consistent.header, consistent.distinct⟩

theorem lock (waits : machine.waiting pid = some index) :
    Wp (do acquiresleep pid index; validate index) machine (fun _ => Consistent)
      fun _ _ => True := by
  refine (lock_wp pid index).mono ?_ fun _ _ _ => trivial
  rintro _ after ⟨isFree, rfl⟩
  exact ⟨consistent.exact.lock waits isFree, consistent.header, consistent.distinct⟩

theorem logWrite (held : (machine.bufs index).holder = some pid) :
    Wp (Buffer.logWrite index) machine (fun _ => Consistent) fun _ _ => True := by
  simp only [Buffer.logWrite, wp_bind, wp_get]
  cases logWriteCheck machine.log with
  | some reason =>
    rw [wp_throw]
    trivial
  | none =>
    by_cases logged : (machine.bufs index).blockno ∈ machine.log.lh
    · simp only [if_pos logged, wp_modify]
      exact consistent.withLog (logWriteAppend_dev _ _) (by rw [logWriteAppend, if_pos logged])
    · simp only [if_neg logged, bpin, wp_bind, wp_modify]
      have fresh : (machine.bufs index).blockno ∉ machine.pins := fun isPinned =>
        logged ((consistent.header _).mp isPinned)
      refine ⟨(consistent.exact.pin held fresh).withLog (logWriteAppend_dev _ _),
        fun blockno => ?_, logWriteAppend_nodup consistent.distinct _⟩
      show blockno ∈ (machine.bufs index).blockno :: machine.pins ↔
        blockno ∈ (logWriteAppend machine.log (machine.bufs index).blockno).lh
      rw [mem_logWriteAppend, List.mem_cons, consistent.header]

theorem commit (awake : machine.waiting pid = none) :
    Wp (commit pid) machine (fun _ => Consistent) fun _ _ => True := by
  simp only [Log.commit, writeLog, installTrans, clearHeader, wp_bind, wp_get, wp_ite, wp_pure,
    wp_modify]
  split
  · refine (writeLog_tracked consistent.exact awake 0 _).imp ?_
    rintro _ copied first
    refine (writeHead_tracked first.exact (first.waiting ▸ awake)).imp ?_
    rintro _ committed second
    have sofar := first.trans second
    have pinned : ∀ blockno, blockno ∈ committed.pins ↔ blockno ∈ committed.log.lh := by
      intro blockno
      rw [second.pins, first.pins, sofar.log, consistent.header]
    refine (installTrans_tracked second.exact (sofar.waiting ▸ awake) 0
      (sofar.log ▸ consistent.distinct) pinned).imp ?_
    rintro _ installed third
    have cleared : Exact { installed with log := { installed.log with lh := [] } } :=
      third.exact.withLog rfl
    have awakeStill : installed.waiting pid = none := by
      rw [third.waiting, sofar.waiting]
      exact awake
    refine (writeHead_tracked cleared awakeStill).imp ?_
    rintro _ after last
    refine ⟨last.exact, fun blockno => ?_, last.log ▸ List.nodup_nil⟩
    rw [last.pins, last.log]
    show blockno ∈ installed.pins ↔ blockno ∈ []
    rw [third.pins]
  · exact consistent

theorem finishOp (awake : machine.waiting pid = none) (dev : log.dev = machine.log.dev)
    (lh : log.lh = machine.log.lh) :
    Wp (finishOp pid log) machine (fun _ => Consistent) fun _ _ => True := by
  simp only [Buffer.finishOp, wp_bind, wp_modify]
  refine ((consistent.withLog dev lh).commit awake).imp ?_
  rintro _ after committed
  exact committed.withLog rfl rfl

end Consistent

theorem System.of_attempt {α : Type} {system next : System} {program : Kernel α}
    {property : Machine → Prop}
    (holds : Wp program system.machine (fun _ after => property after) fun _ _ => True)
    (ran : system.attempt program = .next next) : property next.machine := by
  unfold System.attempt at ran
  unfold Wp at holds
  cases result : program.run system.machine with
  | ok value after =>
    rw [result] at ran holds
    cases ran
    exact holds
  | error stop after =>
    rw [result] at ran
    cases stop <;> cases ran

theorem endOp_eq_ok {next : LogState} {last : Bool} (ended : endOp log = .ok (next, last)) :
    next.dev = log.dev ∧ next.lh = log.lh := by
  unfold endOp at ended
  dsimp only at ended
  split at ended
  · cases ended
  · split at ended <;> cases ended <;> exact ⟨rfl, rfl⟩

theorem step_consistent (system : System) (action : Action) (next : System)
    (consistent : Consistent system.machine) (stepped : step system action = .next next) :
    Consistent next.machine := by
  cases action with
  | bget pid blockno =>
    rcases guard_eq_next.mp stepped with ⟨awake, stepped⟩
    exact System.of_attempt (consistent.bgetFind awake blockno) stepped
  | lock pid =>
    simp only [step] at stepped
    split at stepped
    · rename_i waits
      exact System.of_attempt (consistent.lock waits) stepped
    · cases stepped
  | assign pid index data =>
    rcases guard_eq_next.mp stepped with ⟨_, stepped⟩
    refine System.of_attempt ((modifyData_tracked consistent.exact _).imp ?_) stepped
    exact fun _ after kept => consistent.of_tracked kept.2
  | bwrite pid index =>
    rcases guard_eq_next.mp stepped with ⟨_, stepped⟩
    refine System.of_attempt ((bwrite_tracked consistent.exact).imp ?_) stepped
    exact fun _ after kept => consistent.of_tracked kept.2
  | brelse pid index =>
    rcases guard_eq_next.mp stepped with ⟨holds, stepped⟩
    refine System.of_attempt ((brelse_tracked consistent.exact holds.2).imp ?_) stepped
    exact fun _ after kept => consistent.of_tracked kept.2
  | beginOp pid =>
    rcases guard_eq_next.mp stepped with ⟨_, stepped⟩
    split at stepped
    · rename_i begun
      cases stepped
      have changed := (beginOp_eq_some.mp begun).2.2
      exact consistent.withLog (by rw [changed]) (by rw [changed])
    · cases stepped
  | logWrite pid index =>
    rcases guard_eq_next.mp stepped with ⟨holds, stepped⟩
    exact System.of_attempt (consistent.logWrite holds.1.2) stepped
  | endOp pid =>
    rcases guard_eq_next.mp stepped with ⟨asked, stepped⟩
    split at stepped
    · cases stepped
    · rename_i ended
      cases stepped
      exact consistent.withLog (endOp_eq_ok ended).1 (endOp_eq_ok ended).2
    · rename_i ended
      refine System.of_attempt ?_ stepped
      exact consistent.finishOp asked.1 (endOp_eq_ok ended).1 (endOp_eq_ok ended).2

/-! ## Recovery with an empty header -/

variable {disk : Nat → Block}

theorem exact_boot (device : log.dev ≠ 0) : Exact (Machine.boot disk log) where
  wellformed := wellformed_boot disk log
  device := device
  onDevice := fun _ counted => absurd rfl counted
  count := fun _ => by simp [Machine.boot, Buf.unused, waiters, lockers, Machine.Pinned]
  cached := fun _ isPinned => absurd isPinned List.not_mem_nil
  distinct := List.nodup_nil
  underflow := rfl
  stolen := rfl

theorem readHead_tracked (exact : Exact machine) (awake : machine.waiting pid = none) :
    Wp (readHead pid) machine (fun _ after => ∃ log, log.dev = machine.log.dev ∧
      Tracked { machine with log := log } after (holders machine) machine.pins)
      fun _ _ => True := by
  simp only [readHead, wp_bind, wp_get, wp_modify]
  refine (bread_tracked exact awake _).imp ?_
  rintro index loaded ⟨isFree, _, first⟩
  have decoded : Exact { loaded with
      log := { loaded.log with lh := decodeHeader (loaded.bufs index).data } } :=
    first.exact.withLog rfl
  have holds : holders loaded index = some pid := by
    rw [first.holders, update_self]
  refine (brelse_tracked decoded holds).imp ?_
  rintro _ after ⟨_, last⟩
  have released : holders after = holders machine := by
    rw [last.holders, ← update_update_none isFree, ← first.holders]
    rfl
  have dev : after.log.dev = loaded.log.dev := by
    rw [last.log]
  exact ⟨after.log, dev.trans (by rw [first.log]), last.exact, released, last.pins.trans first.pins,
    last.waiting.trans first.waiting, rfl⟩

theorem readHead_boot (device : log.dev ≠ 0) :
    Wp (readHead pid) (Machine.boot disk log) fun _ after => Complete after.ring ∧
      (∀ index, (after.bufs index).refcnt = 0 ∧ (after.bufs index).holder = none) ∧
        after.log.lh = decodeHeader (disk log.start) := by
  refine (readHead_wp (wellformed_boot disk log) ?_ ⟨⟨0, by decide⟩, rfl⟩).imp ?_
  · exact fun index keyed => absurd keyed (chosen_boot device _ index)
  rintro _ after ⟨index, header, _, isHeader, settled, isLog⟩
  have onDisk : header = disk log.start := by
    rw [isHeader, Machine.contents, if_neg fun cached => chosen_boot device _ index cached.1]
    rfl
  refine ⟨settled.ring, fun other => ?_, ?_⟩
  · have bufs : after.bufs = _ := settled.bufs
    by_cases same : other = index
    · subst other
      rw [bufs, update_self]
      exact ⟨rfl, rfl⟩
    · rw [bufs, update_of_ne same]
      exact ⟨rfl, rfl⟩
  · rw [isLog, onDisk]

theorem recoverFromLog_consistent
    (device : log.dev ≠ 0) (empty : decodeHeader (disk log.start) = []) :
    Wp (recoverFromLog pid) (Machine.boot disk log) (fun _ after => Consistent after ∧
      ∀ index, (after.bufs index).refcnt = 0) fun _ _ => True := by
  simp only [recoverFromLog, installTrans, clearHeader, wp_bind, wp_get, wp_modify]
  refine ((readHead_boot device).and (readHead_tracked (exact_boot device) rfl)).mono ?_
    fun _ _ _ => trivial
  rintro _ loaded ⟨⟨_, _, isHeader⟩, header, dev, first⟩
  rw [isHeader, empty]
  simp only [forEntries, wp_pure]
  have cleared : Exact { loaded with log := { loaded.log with lh := [] } } := first.exact.withLog rfl
  refine (writeHead_tracked cleared (by rw [first.waiting]; rfl)).imp ?_
  rintro _ after last
  have pins : after.pins = [] := last.pins.trans first.pins
  have waiting : after.waiting = fun _ => none := last.waiting.trans first.waiting
  have unlocked : holders after = fun _ => none := last.holders.trans first.holders
  refine ⟨⟨last.exact, ?_, ?_⟩, fun index => BitVec.eq_of_toNat_eq ?_⟩
  · intro blockno
    rw [pins, last.log]
  · rw [last.log]
    exact List.nodup_nil
  · rw [last.exact.count index]
    have isFree : (after.bufs index).holder = none := congrFun unlocked index
    simp [waiters, lockers, Machine.Pinned, pins, waiting, isFree]

/-! ## Recovery with a header -/

/-- The sum of the counts. -/
def total (machine : Machine) : BitVec 32 :=
  ∑ index, (machine.bufs index).refcnt

/-- One for a locked buffer. -/
def lockBit (buf : Buf) : BitVec 32 :=
  if buf.holder = none then 0 else 1

/-- The number of locked buffers. -/
def locks (machine : Machine) : BitVec 32 :=
  ∑ index, lockBit (machine.bufs index)

/-- If the program returns, it has locked this many buffers more than it
released, and has dropped this many counts of buffers that it did not lock. -/
def Moves {α : Type} (program : Kernel α) (locked dropped : BitVec 32) : Prop :=
  ∀ machine, Complete machine.ring → Wp program machine (fun _ after => Complete after.ring ∧
    total after + dropped = total machine + locked ∧ locks after = locks machine + locked)
    fun _ _ => True

namespace Moves

variable {α β : Type} {locked dropped locked' dropped' : BitVec 32}

theorem bind {program : Kernel α} {rest : α → Kernel β} (first : Moves program locked dropped)
    (second : ∀ value, Moves (rest value) locked' dropped') :
    Moves (program >>= rest) (locked + locked') (dropped + dropped') := by
  intro machine complete
  refine (first machine complete).seq ?_
  rintro value middle ⟨stillComplete, firstTotal, firstLocks⟩
  refine (second value middle stillComplete).imp ?_
  rintro _ after ⟨atEnd, secondTotal, secondLocks⟩
  refine ⟨atEnd, ?_, ?_⟩
  · rw [← add_assoc, ← add_assoc, ← firstTotal, add_right_comm, secondTotal, add_right_comm]
  · rw [secondLocks, firstLocks, add_assoc]

theorem get_bind {rest : Machine → Kernel β} (second : ∀ machine, Moves (rest machine) locked dropped) :
    Moves (get >>= rest) locked dropped := by
  intro machine complete
  rw [wp_bind, wp_get]
  exact second machine machine complete

theorem pure (value : α) : Moves (Pure.pure value) 0 0 := by
  intro machine complete
  rw [wp_pure]
  exact ⟨complete, by simp, by simp⟩

end Moves

theorem sums_update {locked dropped : BitVec 32} (bufs : after.bufs = update machine.bufs index buf)
    (refcnt : buf.refcnt + dropped = (machine.bufs index).refcnt + locked)
    (holder : lockBit buf = lockBit (machine.bufs index) + locked) :
    total after + dropped = total machine + locked ∧ locks after = locks machine + locked := by
  have counts := sum_update (fun buf : Buf => buf.refcnt) machine.bufs index buf
  have holds := sum_update lockBit machine.bufs index buf
  rw [← bufs] at counts holds
  constructor
  · apply add_right_cancel (b := (machine.bufs index).refcnt)
    calc total after + dropped + (machine.bufs index).refcnt
        = total after + (machine.bufs index).refcnt + dropped := add_right_comm _ _ _
      _ = total machine + buf.refcnt + dropped := by rw [total, counts, total]
      _ = total machine + locked + (machine.bufs index).refcnt := by
          rw [add_assoc, refcnt, ← add_assoc, add_right_comm]
  · apply add_right_cancel (b := lockBit (machine.bufs index))
    calc locks after + lockBit (machine.bufs index) = locks machine + lockBit buf := holds
      _ = locks machine + locked + lockBit (machine.bufs index) := by
          rw [holder, ← add_assoc, add_right_comm]

theorem bread_moves (pid : Pid) (dev blockno : Nat) : Moves (bread pid dev blockno) 1 0 := by
  intro machine complete
  refine (bread_wp pid dev blockno complete).mono ?_ fun _ _ _ => trivial
  rintro index after ⟨_, isFree, rfl⟩
  rw [Machine.loaded_eq]
  exact ⟨complete, sums_update rfl (add_zero _) (by simp [lockBit, isFree])⟩

theorem brelse_moves (pid : Pid) (index : Index) : Moves (brelse pid index) (-1) 0 := by
  intro machine complete
  by_cases held : (machine.bufs index).holder = some pid
  · refine (brelse_wp complete held).mono ?_ fun _ _ _ => trivial
    rintro _ after ⟨ring, stillComplete, rfl⟩
    refine ⟨stillComplete, sums_update rfl ?_ ?_⟩
    · rw [add_zero, sub_eq_add_neg]
    · rw [lockBit, if_pos rfl, lockBit, held, if_neg (Option.some_ne_none pid), add_neg_cancel]
  · simp [brelse, held]

theorem bunpin_moves (index : Index) : Moves (bunpin index) 0 1 := by
  intro machine complete
  rw [bunpin, wp_modify]
  exact ⟨complete, sums_update rfl (by rw [add_zero, sub_add_cancel]) (add_zero _).symm⟩

theorem modifyData_moves (index : Index) (update : Block → Block) :
    Moves (modifyData index update) 0 0 := by
  intro machine complete
  rw [modifyData, wp_modify]
  exact ⟨complete, sums_update rfl rfl (add_zero _).symm⟩

theorem bwrite_moves (pid : Pid) (index : Index) : Moves (bwrite pid index) 0 0 := by
  intro machine complete
  simp only [bwrite, diskWrite, wp_bind, wp_get, wp_ite, wp_throw, wp_modify]
  split
  · trivial
  · exact ⟨complete, rfl, (add_zero _).symm⟩

theorem installBlock_moves (pid : Pid) (tail entry : Nat) :
    Moves (installBlock pid tail entry) 0 1 := by
  have moves : Moves (installBlock pid tail entry) (1 + (1 + (0 + (0 + (0 + (-1 + -1))))))
      (0 + (0 + (0 + (0 + (1 + (0 + 0)))))) :=
    Moves.get_bind fun _ => (bread_moves _ _ _).bind fun _ => (bread_moves _ _ _).bind fun _ =>
      Moves.get_bind fun _ => (modifyData_moves _ _).bind fun _ => (bwrite_moves _ _).bind fun _ =>
        (bunpin_moves _).bind fun _ => (brelse_moves _ _).bind fun _ => brelse_moves _ _
  exact moves

theorem writeHead_moves (pid : Pid) : Moves (writeHead pid) 0 0 := by
  have moves : Moves (writeHead pid) (1 + (0 + (0 + -1))) (0 + (0 + (0 + 0))) :=
    Moves.get_bind fun _ => (bread_moves _ _ _).bind fun _ => (modifyData_moves _ _).bind fun _ =>
      (bwrite_moves _ _).bind fun _ => brelse_moves _ _
  exact moves

theorem installTrans_moves (pid : Pid) (tail : Nat) (entries : List Nat) :
    Moves (forEntries (installBlock pid) tail entries) 0 entries.length := by
  induction entries generalizing tail with
  | nil => exact Moves.pure _
  | cons entry rest ih =>
    have moves := (installBlock_moves pid tail entry).bind fun _ => ih (tail + 1)
    rw [List.length_cons, Nat.cast_add, Nat.cast_one, add_comm _ (1 : BitVec 32)]
    rw [add_zero] at moves
    exact moves

theorem recoverFromLog_total (device : log.dev ≠ 0) :
    Wp (recoverFromLog pid) (Machine.boot disk log) (fun _ after =>
      total after + ((decodeHeader (disk log.start)).length : BitVec 32) = 0) fun _ _ => True := by
  simp only [recoverFromLog, installTrans, clearHeader, wp_bind, wp_get, wp_modify]
  refine (readHead_boot device).mono ?_ fun _ _ _ => trivial
  rintro _ loaded ⟨complete, unused, isHeader⟩
  rw [isHeader]
  refine (installTrans_moves pid 0 _ loaded complete).imp ?_
  rintro _ installed ⟨stillComplete, dropped, _⟩
  refine (writeHead_moves pid { installed with log := { installed.log with lh := [] } }
    stillComplete).imp ?_
  rintro _ after ⟨_, kept, _⟩
  have zero : total loaded = 0 := Finset.sum_eq_zero fun index _ => (unused index).1
  have same : total after = total installed := by
    rw [add_zero, add_zero] at kept
    exact kept
  rw [same, dropped, zero, add_zero]

/-! ## Exactly the boots with an empty header -/

theorem length_decodeHeader (block : Block) :
    (decodeHeader block).length = (headerCount block).toNat := by
  simp [decodeHeader]

/-- The counts are exact from a boot on if and only if the header on the disk
records no block. -/
theorem exactFromBoot_iff_header_empty (disk : Nat → Block) (sb : Superblock)
    (fits : headerCount (disk sb.logstart) ≤ LOGSIZE) :
    ExactFromBoot disk sb ↔ headerCount (disk sb.logstart) ≤ 0 := by
  have device : (initlog ROOTDEV sb).dev ≠ 0 := Nat.one_ne_zero
  have length := length_decodeHeader (disk sb.logstart)
  constructor
  · rintro ⟨⟨machine, ran, _, zero⟩, _⟩
    have dropped : Wp (recoverFromLog 0) (Machine.boot disk (initlog ROOTDEV sb)) _ _ :=
      recoverFromLog_total device
    rw [wp_of_run ran] at dropped
    have nothing : total machine = 0 := Finset.sum_eq_zero fun index _ => zero index
    rw [nothing, zero_add] at dropped
    have multiple : (2 ^ 32) ∣ (decodeHeader (disk sb.logstart)).length := by
      have toNat := congrArg BitVec.toNat dropped
      exact Nat.dvd_of_mod_eq_zero (by simpa [initlog] using toNat)
    have small : (decodeHeader (disk sb.logstart)).length < 2 ^ 32 := by
      have bound : LOGSIZE < 2 ^ 32 := by decide
      omega
    have none := Nat.eq_zero_of_dvd_of_lt multiple small
    omega
  · intro empty
    have nothing : decodeHeader (disk sb.logstart) = [] := List.eq_nil_of_length_eq_zero (by omega)
    have consistent : Wp (recoverFromLog 0) (Machine.boot disk (initlog ROOTDEV sb)) _ _ :=
      recoverFromLog_consistent device nothing
    have recoverable : Recoverable disk (initlog ROOTDEV sb).start := by
      constructor <;> simp [initlog, nothing, NBUF, MAXOPBLOCKS]
    constructor
    · have both := (recoverFromLog_wp device recoverable).and consistent
      have returns := both.mono (fun _ _ => id) fun _ _ never => never.1
      rcases wp_false_iff.mp returns with ⟨_, machine, ran, _, counts, zero⟩
      exact ⟨machine, ran, counts.exact.underflow, zero⟩
    · intro machine schedule system ran reached
      rw [wp_of_run ran] at consistent
      exact (exec_invariant' (fun system => Consistent system.machine)
        (fun state action next holds => step_consistent state action next holds) consistent.1
          reached).countsExact

theorem exactFromBoot_blankDisk :
    headerCount (Bytes.zero : Block) = 0 ∧ ExactFromBoot (fun _ => Bytes.zero) Mkfs.superblock :=
  ⟨by decide, (exactFromBoot_iff_header_empty _ _ (by decide)).mpr (by decide)⟩

/-- A disk on which block `100` was committed and not yet installed. -/
def oneCommittedBlock : Nat → Block :=
  update (fun _ => Bytes.zero) Mkfs.superblock.logstart (encodeHeader [100] Bytes.zero)

/-- The counts after a run have wrapped around in the third buffer. -/
def Wrapped (machine : Machine) : Prop :=
  machine.underflow = true ∧ (machine.bufs 2).refcnt = 4294967295

instance (machine : Machine) : Decidable (Wrapped machine) :=
  inferInstanceAs (Decidable (_ ∧ _))

/-- Recovery returns, and a count has wrapped around. -/
theorem oneCommittedBlock_not_exact :
    (∃ value machine, (recoverFromLog 0).run
        (Machine.boot oneCommittedBlock (initlog ROOTDEV Mkfs.superblock)) = .ok value machine ∧
      Wrapped machine) ∧
      ¬ ExactFromBoot oneCommittedBlock Mkfs.superblock := by
  have wraps : ∃ value machine, (recoverFromLog 0).run
      (Machine.boot oneCommittedBlock (initlog ROOTDEV Mkfs.superblock)) = .ok value machine ∧
        Wrapped machine := wp_false_iff.mp (by decide +kernel)
  refine ⟨wraps, ?_⟩
  rcases wraps with ⟨_, wrapped, ran, underflow, _⟩
  rintro ⟨⟨machine, ranAlso, noUnderflow, _⟩, _⟩
  have same := ran.symm.trans ranAlso
  injection same with _ same
  rw [same, noUnderflow] at underflow
  cases underflow

end Buffer
end Xv6
