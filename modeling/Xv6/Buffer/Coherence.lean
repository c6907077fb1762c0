import Xv6.Buffer.Shared

namespace Xv6
namespace Buffer
namespace Shared

open Foundation Function
open Log

/-!
# The cache refines the disk

The invariant has three layers.  `Coherent` relates the buffers, the disk and
what was stored last in the blocks: a valid buffer has it, so has the disk for a
block without a valid buffer, and the two differ only where the buffer is pinned
or modified by its holder.  `Stage.Fits` says which
buffers a commit has locked at each of its points, and `Pending` which blocks
it has still to unpin.  Every step of a call touches one buffer, and `Moved`
says what it leaves to the other processes.
-/

/-! ## Buffers, disk and what was stored -/

/-- What holds of the cache between any two steps. -/
structure Coherent (system : System) : Prop where
  exact : Exact system.machine
  fresh : ∀ index, (system.machine.bufs index).dev = system.machine.log.dev →
    (system.machine.bufs index).valid = true →
      (system.machine.bufs index).data = system.stored (system.machine.bufs index).blockno
  absent : ∀ blockno,
    (∀ index, system.machine.Keyed system.machine.log.dev blockno index →
      (system.machine.bufs index).valid = false) →
    system.machine.disk blockno = system.stored blockno
  clean : ∀ index, (system.machine.bufs index).dev = system.machine.log.dev →
    (system.machine.bufs index).valid = true → system.dirty index = false →
    ¬ system.machine.Pinned index →
      (system.machine.bufs index).data = system.machine.disk (system.machine.bufs index).blockno
  modified : ∀ index, system.dirty index = true → (system.machine.bufs index).holder ≠ none
  reader : ∀ pid index, system.reading pid = some index → system.Holds pid index
  loaded : ∀ pid index, system.Holds pid index →
    (system.machine.bufs index).valid = true ∨ system.reading pid = some index
  asked : ∀ pid index,
    system.machine.waiting pid = some index ∨ system.reading pid = some index →
      (system.machine.bufs index).blockno = system.asked pid
  awake : ∀ pid, system.machine.waiting pid = none ∨ system.reading pid = none

/-- A step leaves the buffer, its block and its mark alone; only the number of
those who wait for it may change. -/
structure Same (system next : System) (index : Index) : Prop where
  valid : (next.machine.bufs index).valid = (system.machine.bufs index).valid
  dev : (next.machine.bufs index).dev = (system.machine.bufs index).dev
  blockno : (next.machine.bufs index).blockno = (system.machine.bufs index).blockno
  holder : (next.machine.bufs index).holder = (system.machine.bufs index).holder
  data : (next.machine.bufs index).data = (system.machine.bufs index).data
  dirty : next.dirty index = system.dirty index
  disk : next.machine.disk (system.machine.bufs index).blockno =
    system.machine.disk (system.machine.bufs index).blockno

/-- What a step of a process that touches one buffer does to the others. -/
structure Moved (pid : Pid) (target : Index) (mode : Mode) (pins : List Nat)
    (system next : System) : Prop where
  coherent : Coherent next
  log : next.machine.log = system.machine.log
  pins : next.machine.pins = pins
  mode : next.mode = update system.mode pid mode
  waiting : ∀ other, other ≠ pid → next.machine.waiting other = system.machine.waiting other
  reading : ∀ other, other ≠ pid → next.reading other = system.reading other
  held : ∀ other index, system.Holds other index → other ≠ pid ∨ index ≠ target →
    Same system next index
  key : ∀ index, (system.machine.bufs index).refcnt ≠ 0 →
    (next.machine.bufs index).blockno = (system.machine.bufs index).blockno

namespace Coherent

variable {system : System} {pid : Pid} {index : Index} (coherent : Coherent system)
include coherent

/-- Buffers for blocks of the device are told apart by their blocks. -/
theorem alone {first second : Index}
    (onDevice : (system.machine.bufs first).dev = system.machine.log.dev)
    (alsoOnDevice : (system.machine.bufs second).dev = system.machine.log.dev)
    (sameBlock : (system.machine.bufs first).blockno = (system.machine.bufs second).blockno) :
    first = second :=
  coherent.exact.wellformed.unique first second (onDevice.symm ▸ coherent.exact.device)
    (onDevice.trans alsoOnDevice.symm) sameBlock

theorem onDevice (held : system.Holds pid index) :
    (system.machine.bufs index).dev = system.machine.log.dev :=
  coherent.exact.onDevice index (coherent.exact.counted_of_held held)

theorem idle_of_waiting (waits : system.machine.waiting pid = some index) : system.reading pid = none :=
  (coherent.awake pid).resolve_left (by simp [waits])

theorem awake_of_reading (reads : system.reading pid = some index) :
    system.machine.waiting pid = none :=
  (coherent.awake pid).resolve_right (by simp [reads])

theorem disk_of_free (isFree : (system.machine.bufs index).refcnt = 0)
    (onDevice : (system.machine.bufs index).dev = system.machine.log.dev)
    (valid : (system.machine.bufs index).valid = true) :
    system.machine.disk (system.machine.bufs index).blockno =
      system.stored (system.machine.bufs index).blockno := by
  rcases coherent.exact.unused isFree with ⟨_, unlocked, unpinned⟩
  have tidy : system.dirty index = false := by
    cases marked : system.dirty index with
    | false => rfl
    | true => exact absurd unlocked (coherent.modified index marked)
  rw [← coherent.clean index onDevice valid tidy unpinned, coherent.fresh index onDevice valid]

end Coherent

theorem System.attempt_eq_next {α : Type} {system next : System} {program : Kernel α}
    {continue' : α → Machine → System} (ran : system.attempt program continue' = .next next) :
    ∃ value machine, program.run system.machine = .ok value machine ∧
      next = continue' value machine := by
  unfold System.attempt at ran
  cases result : program.run system.machine with
  | ok value machine =>
    rw [result] at ran
    cases ran
    exact ⟨value, machine, rfl, rfl⟩
  | error stop machine =>
    rw [result] at ran
    cases stop <;> cases ran

/-! ## The steps of a call keep the cache coherent -/

/-- The new values that a step gives to the buffer it touches, to the mark and
to the block of that buffer, and to what its process waits for. -/
structure Change where
  buf : Buf
  dirty : Bool
  disk : Block
  stored : Block
  waiting : Option Index
  reading : Option Index

/-- Nothing but the buffer changes. -/
def Change.of (system : System) (pid : Pid) (index : Index) (buf : Buf) : Change where
  buf := buf
  dirty := system.dirty index
  disk := system.machine.disk (system.machine.bufs index).blockno
  stored := system.stored (system.machine.bufs index).blockno
  waiting := system.machine.waiting pid
  reading := system.reading pid

/-- A step of a process that touches one buffer, which nobody else has
locked. -/
structure Touch (pid : Pid) (target : Index) (mode : Mode) (pins : List Nat) (change : Change)
    (system next : System) : Prop where
  exact : Exact next.machine
  log : next.machine.log = system.machine.log
  pins : next.machine.pins = pins
  mode : next.mode = update system.mode pid mode
  asked : next.asked = system.asked
  bufs : next.machine.bufs = update system.machine.bufs target change.buf
  dirty : next.dirty = update system.dirty target change.dirty
  disk : next.machine.disk =
    update system.machine.disk (system.machine.bufs target).blockno change.disk
  stored : next.stored = update system.stored (system.machine.bufs target).blockno change.stored
  waiting : next.machine.waiting = update system.machine.waiting pid change.waiting
  reading : next.reading = update system.reading pid change.reading

/-- The change keeps the buffer's block, and the conditions for it. -/
structure Change.Allowed (change : Change) (pid : Pid) (target : Index) (pins : List Nat)
    (system : System) : Prop where
  onDevice : (system.machine.bufs target).dev = system.machine.log.dev
  mine : ∀ other, system.Holds other target → other = pid
  key : change.buf.dev = (system.machine.bufs target).dev ∧
    change.buf.blockno = (system.machine.bufs target).blockno
  holder : change.buf.holder = none ∨ change.buf.holder = some pid
  fresh : change.buf.valid = true → change.buf.data = change.stored
  absent : change.buf.valid = false → change.disk = change.stored
  clean : change.buf.valid = true → change.dirty = false →
    (system.machine.bufs target).blockno ∉ pins → change.buf.data = change.disk
  modified : change.dirty = true → change.buf.holder ≠ none
  pinned : ∀ block, block ≠ (system.machine.bufs target).blockno →
    block ∈ system.machine.pins → block ∈ pins
  waited : change.waiting = none ∨ change.waiting = system.machine.waiting pid
  reading : change.reading = none ∨ change.reading = some target ∧
    change.buf.holder = some pid ∧ (system.machine.waiting pid = some target ∨
      system.reading pid = some target)
  loaded : change.buf.holder = some pid → change.buf.valid = true ∨ change.reading = some target
  wasReading : system.reading pid = none ∨ system.reading pid = some target
  awake : change.waiting = none ∨ change.reading = none

variable {index other : Index}

namespace Touch

variable {system next : System} {pid : Pid} {target : Index} {mode : Mode} {pins : List Nat}
  {change : Change} (touch : Touch pid target mode pins change system next)
  (allowed : change.Allowed pid target pins system) (coherent : Coherent system)

include touch

theorem bufs_target : next.machine.bufs target = change.buf := by
  rw [touch.bufs, update_self]

theorem bufs_of_ne (different : index ≠ target) :
    next.machine.bufs index = system.machine.bufs index := by
  rw [touch.bufs, update_of_ne different]

theorem disk_of_ne {block : Nat} (different : block ≠ (system.machine.bufs target).blockno) :
    next.machine.disk block = system.machine.disk block := by
  rw [touch.disk, update_of_ne different]

theorem dirty_of_ne (different : index ≠ target) : next.dirty index = system.dirty index := by
  rw [touch.dirty, update_of_ne different]

include allowed

theorem blockno (index : Index) :
    (next.machine.bufs index).blockno = (system.machine.bufs index).blockno := by
  by_cases same : index = target
  · rw [same, touch.bufs_target, allowed.key.2]
  · rw [touch.bufs_of_ne same]

include coherent

omit touch in
theorem apart (different : index ≠ target)
    (onDevice : (system.machine.bufs index).dev = system.machine.log.dev) :
    (system.machine.bufs index).blockno ≠ (system.machine.bufs target).blockno :=
  fun sameBlock => different (coherent.alone onDevice allowed.onDevice sameBlock)

theorem next_coherent : Coherent next := by
  have log : next.machine.log.dev = system.machine.log.dev := by rw [touch.log]
  have disk : next.machine.disk (system.machine.bufs target).blockno = change.disk := by
    rw [touch.disk, update_self]
  have stored : next.stored (system.machine.bufs target).blockno = change.stored := by
    rw [touch.stored, update_self]
  have marked : next.dirty target = change.dirty := by
    rw [touch.dirty, update_self]
  have isTarget := touch.bufs_target
  have others : ∀ index, index ≠ target → next.machine.bufs index = system.machine.bufs index :=
    fun index => touch.bufs_of_ne
  have otherDisk : ∀ block, block ≠ (system.machine.bufs target).blockno →
      next.machine.disk block = system.machine.disk block := fun block => touch.disk_of_ne
  have otherStored : ∀ block, block ≠ (system.machine.bufs target).blockno →
      next.stored block = system.stored block := fun block different => by
    rw [touch.stored, update_of_ne different]
  have otherMark : ∀ index, index ≠ target → next.dirty index = system.dirty index :=
    fun index => touch.dirty_of_ne
  have different : ∀ index, index ≠ target →
      (system.machine.bufs index).dev = system.machine.log.dev →
      (system.machine.bufs index).blockno ≠ (system.machine.bufs target).blockno :=
    fun index => apart allowed coherent
  have pins := touch.pins
  have waiting := touch.waiting
  have reading := touch.reading
  rcases allowed with ⟨onDevice, mine, key, holder, isFresh, isAbsent, isClean, isModified, pinned,
    waited, reads, isLoaded, wasReading, notBoth⟩
  rcases coherent with ⟨_, fresh, absent, clean, modified, reader, loaded, isAsked, isAwake⟩
  refine ⟨touch.exact, ?_, ?_, ?_, ?_, ?_, ?_, ?_, ?_⟩
  · grind
  · unfold Machine.Keyed at absent ⊢
    grind
  · unfold Machine.Pinned at clean ⊢
    grind
  · grind
  · unfold System.Holds at mine reader ⊢
    rw [reading]
    grind [update_apply]
  · unfold System.Holds at loaded ⊢
    rw [reading]
    grind [update_apply]
  · rw [touch.asked, waiting, reading]
    grind [update_apply]
  · rw [waiting, reading]
    grind [update_apply]

omit touch allowed in
theorem moved (change : Change) (touch : Touch pid target mode pins change system next)
    (allowed : change.Allowed pid target pins system) :
    Moved pid target mode pins system next := by
  refine ⟨touch.next_coherent allowed coherent, touch.log, touch.pins, touch.mode, ?_, ?_, ?_,
    fun index _ => touch.blockno allowed index⟩
  · intro other different
    rw [touch.waiting, update_of_ne different]
  · intro other different
    rw [touch.reading, update_of_ne different]
  · intro other index held distinct
    have different : index ≠ target := by
      rintro rfl
      rcases distinct with notMine | different
      · exact notMine (allowed.mine other held)
      · exact different rfl
    have same := touch.bufs_of_ne different
    constructor <;> try rw [same]
    · exact touch.dirty_of_ne different
    · exact touch.disk_of_ne (apart allowed coherent different (coherent.onDevice held))

end Touch

variable {machine after : Machine} {blockno : Nat} {value : PUnit}

namespace Coherent

variable {system next : System} {pid : Pid} {mode : Mode}

theorem reserved_bufs {dev : Nat}
    (chosen : machine.Chosen dev blockno index) (counted : (machine.bufs other).refcnt ≠ 0) :
    ∃ refcnt, (machine.reserved pid dev blockno index).bufs other =
      { machine.bufs other with refcnt := refcnt } := by
  by_cases same : other = index
  · subst other
    rcases chosen with hit | ⟨isFree, _⟩
    · refine ⟨(machine.bufs index).refcnt + 1, ?_⟩
      simp [Machine.reserved, hit, hit.1, hit.2]
    · exact absurd isFree counted
  · exact ⟨(machine.bufs other).refcnt, by simp [Machine.reserved, same]⟩

/-- The system after a process has asked for a block. -/
def asking (system : System) (pid : Pid) (blockno : Nat) (index : Index) (mode : Mode) : System :=
  { system with
    machine := system.machine.reserved pid system.machine.log.dev blockno index
    asked := update system.asked pid blockno
    mode := update system.mode pid mode }

theorem same_of_counted (system : System) (mode : Mode)
    (chosen : system.machine.Chosen system.machine.log.dev blockno index)
    (counted : (system.machine.bufs other).refcnt ≠ 0) :
    Same system (asking system pid blockno index mode) other := by
  have kept : ∃ refcnt, (asking system pid blockno index mode).machine.bufs other =
      { system.machine.bufs other with refcnt := refcnt } := reserved_bufs chosen counted
  rcases kept with ⟨refcnt, kept⟩
  constructor <;> first | rw [kept] | rfl

section

variable (coherent : Coherent system) (awake : system.machine.waiting pid = none)
  (idle : system.reading pid = none)
include coherent awake idle

theorem asking_coherent (chosen : system.machine.Chosen system.machine.log.dev blockno index) :
    Coherent (asking system pid blockno index mode) := by
  have exact : Exact (asking system pid blockno index mode).machine :=
    coherent.exact.reserve awake chosen
  generalize isNext : asking system pid blockno index mode = next at exact ⊢
  have used : next.machine.bufs index =
      { system.machine.bufs index with
        dev := system.machine.log.dev
        blockno := blockno
        valid := (system.machine.bufs index).valid &&
          decide (system.machine.Keyed system.machine.log.dev blockno index)
        refcnt := (system.machine.bufs index).refcnt + 1 } := by
    simp [← isNext, asking, Machine.reserved]
  have others : ∀ other, other ≠ index →
      next.machine.bufs other = system.machine.bufs other := by
    intro other different
    simp [← isNext, asking, Machine.reserved, different]
  have counted : ∀ owner other, system.Holds owner other → (system.machine.bufs other).refcnt ≠ 0 :=
    fun owner other => coherent.exact.counted_of_held
  have awaited : ∀ owner other, system.machine.waiting owner = some other →
      (system.machine.bufs other).refcnt ≠ 0 := fun owner other => coherent.exact.counted_of_waiting
  have unused : (system.machine.bufs index).refcnt = 0 → (system.machine.bufs index).valid = true →
      (system.machine.bufs index).dev = system.machine.log.dev →
      system.machine.disk (system.machine.bufs index).blockno =
        system.stored (system.machine.bufs index).blockno :=
    fun isFree isValid onDevice => coherent.disk_of_free isFree onDevice isValid
  have rest : next.machine.log = system.machine.log ∧ next.machine.disk = system.machine.disk ∧
      next.machine.pins = system.machine.pins ∧ next.stored = system.stored ∧
      next.dirty = system.dirty ∧ next.reading = system.reading ∧
      next.asked = update system.asked pid blockno ∧
      next.machine.waiting = update system.machine.waiting pid (some index) := by
    rw [← isNext]
    exact ⟨rfl, rfl, rfl, rfl, rfl, rfl, rfl, rfl⟩
  rcases rest with ⟨log, disk, pins, stored, dirty, reading, asked, waiting⟩
  rcases coherent with ⟨_, fresh, absent, clean, modified, reader, loaded, isAsked, isAwake⟩
  unfold Machine.Chosen at chosen
  unfold Machine.Keyed at chosen absent used
  refine ⟨exact, ?_, ?_, ?_, ?_, ?_, ?_, ?_, ?_⟩
  · rw [log, stored]
    grind
  · unfold Machine.Keyed
    rw [log, disk, stored]
    grind
  · unfold Machine.Pinned at clean ⊢
    rw [log, disk, dirty, pins]
    grind
  · rw [dirty]
    grind
  · unfold System.Holds at reader ⊢
    rw [reading]
    grind
  · unfold System.Holds at loaded counted ⊢
    rw [reading]
    grind
  · rw [waiting, reading, asked]
    grind [update_apply]
  · rw [waiting, reading]
    grind [update_apply]

theorem bget {goto : Index → Mode} (ran : system.bget pid blockno goto = .next next) :
    ∃ index, Moved pid index (goto index) system.machine.pins system next ∧
      next.machine.waiting pid = some index ∧ next.reading pid = none ∧
      (next.machine.bufs index).blockno = blockno ∧
      ∀ other, system.Holds pid other → Same system next other := by
  rcases System.attempt_eq_next ran with ⟨index, machine, found, rfl⟩
  have chosen := bgetFind_wp pid system.machine.log.dev blockno coherent.exact.wellformed.ring
  rw [wp_of_run found] at chosen
  rcases chosen with ⟨chosen, rfl⟩
  have kept : ∀ owner other, system.Holds owner other →
      Same system (asking system pid blockno index (goto index)) other := fun owner other held =>
    same_of_counted system (goto index) chosen (coherent.exact.counted_of_held held)
  refine ⟨index, ⟨coherent.asking_coherent awake idle chosen, rfl, rfl, rfl, ?_, fun _ _ => rfl,
    ?_, ?_⟩, update_self _ _ _, idle, ?_, kept pid⟩
  · intro other different
    exact update_of_ne different _ _
  · intro owner other held _
    exact kept owner other held
  · intro other counted
    exact (same_of_counted system (goto index) chosen counted).blockno
  · simp [Machine.reserved]

end

theorem acquiresleep_run (ran : (acquiresleep pid index).run machine = .ok value after) :
    (machine.bufs index).holder = none ∧ after =
      { machine.setBuf index { machine.bufs index with holder := some pid } with
        waiting := update machine.waiting pid none } := by
  apply returned ran
  simp only [acquiresleep, wp_bind, wp_get, wp_ite]
  cases (machine.bufs index).holder with
  | some other => simp
  | none => simp

theorem tidy_of_unlocked (coherent : Coherent system)
    (unlocked : (system.machine.bufs index).holder = none) : system.dirty index = false := by
  cases marked : system.dirty index with
  | false => rfl
  | true => exact absurd unlocked (coherent.modified index marked)

theorem disk_of_invalid (coherent : Coherent system)
    (onDevice : (system.machine.bufs index).dev = system.machine.log.dev)
    (invalid : (system.machine.bufs index).valid = false) :
    system.machine.disk (system.machine.bufs index).blockno =
      system.stored (system.machine.bufs index).blockno := by
  apply coherent.absent
  intro other keyed
  rw [coherent.alone keyed.1 onDevice keyed.2]
  exact invalid

theorem lock (coherent : Coherent system) (waits : system.machine.waiting pid = some index)
    (idle : system.reading pid = none) (ran : system.lock pid index mode = .next next) :
    Moved pid index mode system.machine.pins system next ∧ next.machine.waiting pid = none ∧
      next.reading pid = some index ∧ next.dirty index = false ∧
      ¬ system.Holds pid index := by
  rcases System.attempt_eq_next ran with ⟨_, machine, acquired, rfl⟩
  rcases acquiresleep_run acquired with ⟨unlocked, rfl⟩
  have nobody : ∀ other, ¬ system.Holds other index := by
    intro other held
    rw [System.Holds, unlocked] at held
    cases held
  have onDevice := coherent.exact.onDevice index (coherent.exact.counted_of_waiting waits)
  refine ⟨Touch.moved coherent { Change.of system pid index
      { system.machine.bufs index with holder := some pid } with
        waiting := none, reading := some index } ?_ ?_, update_self _ _ _,
    update_self _ _ _, coherent.tidy_of_unlocked unlocked, nobody pid⟩
  · constructor
    case exact =>
      refine (coherent.exact.lock waits unlocked).congr (fun other => ?_) rfl rfl rfl rfl rfl rfl
      by_cases same : other = index
      · subst other
        simp [Machine.locked]
      · simp [Machine.locked, same]
    all_goals first | rfl | exact (update_eq_self _ _).symm
  · constructor
    case onDevice => exact onDevice
    case mine => exact fun other held => absurd held (nobody other)
    case key => exact ⟨rfl, rfl⟩
    case holder => exact Or.inr rfl
    case fresh => exact coherent.fresh index onDevice
    case absent => exact coherent.disk_of_invalid onDevice
    case clean =>
      intro isValid tidy unpinned
      exact coherent.clean index onDevice isValid tidy fun isPinned => unpinned isPinned.2
    case modified =>
      intro marked
      exact absurd unlocked (coherent.modified index marked)
    case pinned => exact fun _ _ => id
    case waited => exact Or.inl rfl
    case reading => exact Or.inr ⟨rfl, rfl, Or.inl waits⟩
    case loaded => exact fun _ => Or.inr rfl
    case wasReading => exact Or.inl idle
    case awake => exact Or.inl rfl

theorem mine (held : system.Holds pid index) (other : Pid) (alsoHeld : system.Holds other index) :
    other = pid :=
  Option.some.inj (alsoHeld.symm.trans held)

theorem validate_run (ran : (validate index).run machine = .ok value after) :
    after = machine.setBuf index
      { machine.bufs index with
        valid := true
        data := if (machine.bufs index).valid then (machine.bufs index).data
          else machine.disk (machine.bufs index).blockno } := by
  apply returned ran
  simp only [validate, diskRead, wp_bind, wp_get, wp_ite]
  cases isValid : (machine.bufs index).valid with
  | false => simp
  | true =>
    have same : machine.bufs index =
        { machine.bufs index with valid := true, data := (machine.bufs index).data } := by
      rw [← isValid]
    simp [← same]

section

variable (coherent : Coherent system)
include coherent

theorem exact_setBuf (valid : Bool) (data : Block) :
    Exact (system.machine.setBuf index
      { system.machine.bufs index with valid := valid, data := data }) := by
  refine coherent.exact.congr (fun other => ?_) rfl rfl rfl rfl rfl rfl
  by_cases same : other = index
  · subst other
    simp
  · simp [same]

/-- `bread` returns what was stored in the block. -/
theorem read (reads : system.reading pid = some index)
    (awake : system.machine.waiting pid = none) (ran : system.read pid index mode = .next next) :
    Moved pid index mode system.machine.pins system next ∧ next.machine.waiting pid = none ∧
      next.reading pid = none ∧ next.dirty index = system.dirty index ∧ next.Holds pid index ∧
      (next.machine.bufs index).valid = true ∧
      (next.machine.bufs index).blockno = (system.machine.bufs index).blockno := by
  rcases System.attempt_eq_next ran with ⟨_, machine, validated, rfl⟩
  rw [validate_run validated]
  have held := coherent.reader pid index reads
  have onDevice := coherent.onDevice held
  refine ⟨Touch.moved coherent { Change.of system pid index
      { system.machine.bufs index with
        valid := true
        data := if (system.machine.bufs index).valid then (system.machine.bufs index).data
          else system.machine.disk (system.machine.bufs index).blockno } with
        reading := none } ?_ ?_, awake, update_self _ _ _, rfl, ?_, ?_, ?_⟩
  · constructor
    case exact => exact coherent.exact_setBuf _ _
    all_goals first | rfl | exact (update_eq_self _ _).symm
  · constructor
    case onDevice => exact onDevice
    case mine => exact mine held
    case key => exact ⟨rfl, rfl⟩
    case holder => exact Or.inr held
    case fresh =>
      intro _
      cases isValid : (system.machine.bufs index).valid with
      | false => exact coherent.disk_of_invalid onDevice isValid
      | true => exact coherent.fresh index onDevice isValid
    case absent =>
      intro invalid
      cases invalid
    case clean =>
      intro _ tidy unpinned
      cases isValid : (system.machine.bufs index).valid with
      | false => rfl
      | true => exact coherent.clean index onDevice isValid tidy fun isPinned => unpinned isPinned.2
    case modified => exact coherent.modified index
    case pinned => exact fun _ _ => id
    case waited => exact Or.inr rfl
    case reading => exact Or.inl rfl
    case loaded => exact fun _ => Or.inl rfl
    case wasReading => exact Or.inr reads
    case awake => exact Or.inr rfl
  all_goals simp only [System.Holds, Machine.setBuf, update_self]
  exact held

variable (held : system.Holds pid index) (idle : system.reading pid = none)
include held idle

theorem valid_of_held : (system.machine.bufs index).valid = true := by
  rcases coherent.loaded pid index held with isValid | reads
  · exact isValid
  · rw [idle] at reads
    cases reads

theorem allowed_of_held {change : Change} {pins : List Nat}
    (key : change.buf.dev = (system.machine.bufs index).dev ∧
      change.buf.blockno = (system.machine.bufs index).blockno)
    (holder : change.buf.holder = none ∨ change.buf.holder = some pid)
    (valid : change.buf.valid = (system.machine.bufs index).valid)
    (fresh : change.buf.data = change.stored)
    (clean : change.dirty = false → (system.machine.bufs index).blockno ∉ pins →
      change.buf.data = change.disk)
    (modified : change.dirty = true → change.buf.holder ≠ none)
    (pinned : ∀ block, block ≠ (system.machine.bufs index).blockno →
      block ∈ system.machine.pins → block ∈ pins)
    (waiting : change.waiting = system.machine.waiting pid)
    (reading : change.reading = system.reading pid) : change.Allowed pid index pins system where
  onDevice := coherent.onDevice held
  mine := mine held
  key := key
  holder := holder
  fresh := fun _ => fresh
  absent := by
    rw [valid, coherent.valid_of_held held idle]
    intro invalid
    cases invalid
  clean := fun _ => clean
  modified := modified
  pinned := pinned
  waited := Or.inr waiting
  reading := Or.inl (reading.trans idle)
  loaded := fun _ => Or.inl (valid.trans (coherent.valid_of_held held idle))
  wasReading := Or.inl idle
  awake := Or.inr (reading.trans idle)

/-- The holder gives the block new contents. -/
theorem assign {data : Block} (ran : system.assign pid index data mode = .next next) :
    Moved pid index mode system.machine.pins system next ∧
      next.machine.waiting = system.machine.waiting ∧ next.reading = system.reading ∧
      next.Holds pid index ∧
      (next.machine.bufs index).blockno = (system.machine.bufs index).blockno := by
  rcases System.attempt_eq_next ran with ⟨_, machine, assigned, rfl⟩
  cases assigned
  have isValid := coherent.valid_of_held held idle
  refine ⟨Touch.moved coherent { Change.of system pid index
      { system.machine.bufs index with data := data } with
        dirty := true, stored := data } ?_ ?_, rfl, rfl, ?_, ?_⟩
  · constructor
    case exact => exact coherent.exact_setBuf (system.machine.bufs index).valid data
    all_goals first | rfl | exact (update_eq_self _ _).symm
  · refine coherent.allowed_of_held held idle ⟨rfl, rfl⟩ (Or.inr held) rfl rfl ?_ ?_
      (fun _ _ => id) rfl rfl
    · intro tidy
      cases tidy
    · exact fun _ unlocked => Option.some_ne_none pid (held.symm.trans unlocked)
  all_goals simp only [System.Holds, Machine.setBuf, update_self]
  exact held

end

theorem bwrite_run (held : (machine.bufs index).holder = some pid)
    (ran : (Buffer.bwrite pid index).run machine = .ok value after) :
    after = { machine with
      disk := update machine.disk (machine.bufs index).blockno (machine.bufs index).data
      writes := machine.writes ++ [((machine.bufs index).blockno, (machine.bufs index).data)] } := by
  apply returned ran
  simp [Buffer.bwrite, diskWrite, held]

section

variable (coherent : Coherent system) (held : system.Holds pid index)
  (idle : system.reading pid = none)
include coherent held idle

/-- The holder writes the block to the disk. -/
theorem bwrite (ran : system.bwrite pid index mode = .next next) :
    Moved pid index mode system.machine.pins system next ∧
      next.machine.waiting = system.machine.waiting ∧ next.reading = system.reading ∧
      next.machine.bufs = system.machine.bufs ∧ next.dirty index = false ∧
      next.machine.disk (system.machine.bufs index).blockno = (system.machine.bufs index).data := by
  rcases System.attempt_eq_next ran with ⟨_, machine, written, rfl⟩
  rw [bwrite_run held written]
  have isValid := coherent.valid_of_held held idle
  have onDevice := coherent.onDevice held
  refine ⟨Touch.moved coherent { Change.of system pid index (system.machine.bufs index) with
      dirty := false, disk := (system.machine.bufs index).data } ?_ ?_, rfl, rfl, rfl,
    update_self _ _ _, update_self _ _ _⟩
  · constructor
    case exact =>
      exact coherent.exact.congr (fun _ => ⟨rfl, rfl, rfl, rfl⟩) rfl rfl rfl rfl rfl rfl
    all_goals first | rfl | exact (update_eq_self _ _).symm
  · refine coherent.allowed_of_held held idle ⟨rfl, rfl⟩ (Or.inr held) rfl
      (coherent.fresh index onDevice isValid) (fun _ _ => rfl) ?_ (fun _ _ => id) rfl rfl
    intro marked
    cases marked

/-- A block is unpinned when the disk has it. -/
theorem bunpin (isPinned : (system.machine.bufs index).blockno ∈ system.machine.pins)
    (onDisk : (system.machine.bufs index).data =
      system.machine.disk (system.machine.bufs index).blockno)
    (ran : system.bunpin pid index mode = .next next) :
    Moved pid index mode (system.machine.pins.erase (system.machine.bufs index).blockno)
        system next ∧
      next.machine.waiting = system.machine.waiting ∧ next.reading = system.reading ∧
      next.Holds pid index ∧ next.dirty = system.dirty := by
  rcases System.attempt_eq_next ran with ⟨_, machine, unpinned, rfl⟩
  cases unpinned
  have isValid := coherent.valid_of_held held idle
  have onDevice := coherent.onDevice held
  refine ⟨Touch.moved coherent (Change.of system pid index
      { system.machine.bufs index with refcnt := (system.machine.bufs index).refcnt - 1 }) ?_ ?_,
    rfl, rfl, ?_, rfl⟩
  · constructor
    case exact => exact coherent.exact.unpin ⟨onDevice, isPinned⟩
    all_goals first | rfl | exact (update_eq_self _ _).symm
  · refine coherent.allowed_of_held held idle ⟨rfl, rfl⟩ (Or.inr held) rfl
      (coherent.fresh index onDevice isValid) (fun _ _ => onDisk) (coherent.modified index) ?_
      rfl rfl
    exact fun block different member => (List.mem_erase_of_ne different).mpr member
  simp only [System.Holds, decrement, Machine.setBuf, update_self]
  exact held

/-- A holder releases a buffer that is logged or written. -/
theorem brelse (tidy : system.dirty index = false)
    (ran : system.brelse pid index mode = .next next) :
    Moved pid index mode system.machine.pins system next ∧
      next.machine.waiting = system.machine.waiting ∧ next.reading = system.reading := by
  rcases System.attempt_eq_next ran with ⟨_, machine, released, rfl⟩
  have spec := brelse_wp coherent.exact.wellformed.ring held
  rw [wp_of_run released] at spec
  rcases spec with ⟨ring, complete, rfl⟩
  have isValid := coherent.valid_of_held held idle
  have onDevice := coherent.onDevice held
  refine ⟨Touch.moved coherent (Change.of system pid index
      { system.machine.bufs index with
        holder := none
        refcnt := (system.machine.bufs index).refcnt - 1 }) ?_ ?_, rfl, rfl⟩
  · constructor
    case exact => exact coherent.exact.release held complete
    all_goals first | rfl | exact (update_eq_self _ _).symm
  · refine coherent.allowed_of_held held idle ⟨rfl, rfl⟩ (Or.inl rfl) rfl
      (coherent.fresh index onDevice isValid) ?_ ?_ (fun _ _ => id) rfl rfl
    · intro _ unpinned
      exact coherent.clean index onDevice isValid tidy fun isPinned => unpinned isPinned.2
    · intro marked
      rw [show (Change.of system pid index _).dirty = false from tidy] at marked
      cases marked

end

theorem withLog (coherent : Coherent system) {log : LogState} {modes : Pid → Mode}
    (dev : log.dev = system.machine.log.dev) :
    Coherent { system with machine := { system.machine with log := log }, mode := modes } := by
  constructor
  case exact => exact coherent.exact.withLog dev
  case fresh =>
    intro index onDevice
    exact coherent.fresh index (onDevice.trans dev)
  case absent =>
    intro blockno missing
    apply coherent.absent blockno
    intro index keyed
    exact missing index ⟨keyed.1.trans dev.symm, keyed.2⟩
  case clean =>
    intro index onDevice isValid tidy unpinned
    apply coherent.clean index (onDevice.trans dev) isValid tidy
    intro isPinned
    exact unpinned ⟨onDevice, isPinned.2⟩
  case modified => exact coherent.modified
  case reader => exact coherent.reader
  case loaded => exact coherent.loaded
  case asked => exact coherent.asked
  case awake => exact coherent.awake

/-- The holder of a buffer is done with it once it is pinned. -/
theorem pin (coherent : Coherent system) (held : system.Holds pid index)
    (idle : system.reading pid = none) (refcnt : BitVec 32) (pins : List Nat)
    (exact : Exact { system.machine.setBuf index
      { system.machine.bufs index with refcnt := refcnt } with pins := pins })
    (isPinned : (system.machine.bufs index).blockno ∈ pins)
    (more : system.machine.pins ⊆ pins) :
    Coherent { system with
      machine := { system.machine.setBuf index
        { system.machine.bufs index with refcnt := refcnt } with pins := pins }
      dirty := update system.dirty index false } := by
  have onDevice := coherent.onDevice held
  have touched : Touch pid index (system.mode pid) pins { Change.of system pid index
      { system.machine.bufs index with refcnt := refcnt } with dirty := false } system
      { system with
        machine := { system.machine.setBuf index
          { system.machine.bufs index with refcnt := refcnt } with pins := pins }
        dirty := update system.dirty index false } := by
    constructor
    case exact => exact exact
    all_goals first | rfl | exact (update_eq_self _ _).symm
  apply touched.next_coherent _ coherent
  refine coherent.allowed_of_held held idle ⟨rfl, rfl⟩ (Or.inr held) rfl
    (coherent.fresh index onDevice (coherent.valid_of_held held idle)) ?_ ?_
    (fun block _ member => more member) rfl rfl
  · intro _ unpinned
    exact absurd isPinned unpinned
  · intro marked
    cases marked

theorem logWrite_run (ran : (Buffer.logWrite index).run machine = .ok value after) :
    logWriteCheck machine.log = none ∧
    after = { (if (machine.bufs index).blockno ∈ machine.log.lh then machine
      else { machine.setBuf index { machine.bufs index with
          refcnt := (machine.bufs index).refcnt + 1 } with
        pins := (machine.bufs index).blockno :: machine.pins }) with
      log := logWriteAppend machine.log (machine.bufs index).blockno } := by
  apply returned ran
  simp only [Buffer.logWrite, wp_bind, wp_get]
  cases logWriteCheck machine.log with
  | some reason =>
    rw [wp_throw]
    trivial
  | none =>
    by_cases logged : (machine.bufs index).blockno ∈ machine.log.lh
    · simp [logged]
    · simp [logged, bpin]

/-- A block that is logged is pinned from then on. -/
theorem logWrite (coherent : Coherent system) (held : system.Holds pid index)
    (idle : system.reading pid = none)
    (header : ∀ block, block ∈ system.machine.pins ↔ block ∈ system.machine.log.lh)
    (ran : system.attempt (Buffer.logWrite index) (fun _ machine =>
      { system with machine := machine, dirty := update system.dirty index false }) = .next next) :
    Coherent next ∧
      next.machine.log = logWriteAppend system.machine.log (system.machine.bufs index).blockno ∧
      (∀ block, block ∈ next.machine.pins ↔
        block = (system.machine.bufs index).blockno ∨ block ∈ system.machine.pins) ∧
      next.mode = system.mode := by
  rcases System.attempt_eq_next ran with ⟨_, machine, logged, rfl⟩
  rw [(logWrite_run logged).2]
  by_cases absorbed : (system.machine.bufs index).blockno ∈ system.machine.log.lh
  · have isPinned := (header _).mpr absorbed
    have same : system.machine.setBuf index { system.machine.bufs index with
        refcnt := (system.machine.bufs index).refcnt } = system.machine := by
      simp
    have settled := coherent.pin held idle (system.machine.bufs index).refcnt system.machine.pins
      (by rw [same]; exact coherent.exact) isPinned (List.Subset.refl _)
    rw [same] at settled
    rw [if_pos absorbed]
    refine ⟨settled.withLog (logWriteAppend_dev _ _), rfl, ?_, rfl⟩
    intro block
    constructor
    · exact Or.inr
    · rintro (rfl | member)
      · exact isPinned
      · exact member
  · have fresh : (system.machine.bufs index).blockno ∉ system.machine.pins := fun isPinned =>
      absorbed ((header _).mp isPinned)
    rw [if_neg absorbed]
    refine ⟨(coherent.pin held idle _ _ (coherent.exact.pin held fresh) List.mem_cons_self
      (List.subset_cons_self _ _)).withLog (logWriteAppend_dev _ _), rfl, ?_, rfl⟩
    intro block
    exact List.mem_cons

end Coherent

end Shared
end Buffer
end Xv6
