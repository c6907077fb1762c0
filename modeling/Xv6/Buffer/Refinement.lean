import Xv6.Buffer.Coherence

namespace Xv6
namespace Buffer
namespace Shared

open Foundation Function
open Log

/-!
# A commit beside the readers

The cache stays coherent while one process commits and others read: at each
point of `commit` it is known which buffers the committing process has locked,
and that the blocks it has not installed yet are still pinned.  No operation
is open during a commit, so nothing is logged or modified by anybody else.
-/

/-! ## The points of a commit -/

/-- The process is not in a call of `bread`. -/
def Quiet (system : System) (pid : Pid) : Prop :=
  system.machine.waiting pid = none ∧ system.reading pid = none

variable {pid : Pid}

theorem Quiet.congr {system next : System} (quiet : Quiet system pid)
    (waiting : next.machine.waiting = system.machine.waiting)
    (reading : next.reading = system.reading) : Quiet next pid :=
  ⟨(congrFun waiting pid).trans quiet.1, (congrFun reading pid).trans quiet.2⟩

/-- The process has locked the buffer and has nothing to write to it. -/
def Has (system : System) (pid : Pid) (index : Index) : Prop :=
  system.Holds pid index ∧ system.dirty index = false

/-- The buffer that a part modifies: the one in the log, or the home block. -/
def Part.target (part : Part) (first second : Index) : Index :=
  match part with
  | .install _ _ => second
  | _ => first

/-- The buffer that a part copies from. -/
def Part.source (part : Part) (first second : Index) : Index :=
  match part with
  | .install _ _ => first
  | _ => second

/-- The second buffer of a round of `install_trans` is for the entry of that
round. -/
def Takes (system : System) (part : Part) (second : Index) : Prop :=
  ∀ tail entry, part = .install tail entry → (system.machine.bufs second).blockno = entry

/-- What the committing process has locked at a point of a part. -/
def Stage.Fits (system : System) (pid : Pid) (part : Part) : Stage → Prop
  | .start => Quiet system pid
  | .wantFirst first => system.machine.waiting pid = some first ∧ system.reading pid = none
  | .lockedFirst first =>
    (system.machine.waiting pid = none ∧ system.reading pid = some first) ∧
      system.dirty first = false
  | .haveFirst first => Quiet system pid ∧ Has system pid first
  | .filled first => Quiet system pid ∧ system.Holds pid first ∧ part = .writeHead
  | .wantSecond first second =>
    (system.machine.waiting pid = some second ∧ system.reading pid = none) ∧
      Has system pid first ∧ Takes system part second
  | .lockedSecond first second =>
    (system.machine.waiting pid = none ∧ system.reading pid = some second) ∧
      Has system pid first ∧ first ≠ second ∧ system.dirty second = false ∧
      Takes system part second
  | .haveBoth first second =>
    Quiet system pid ∧ Has system pid first ∧ Has system pid second ∧ first ≠ second ∧
      Takes system part second
  | .changed first second =>
    Quiet system pid ∧ system.Holds pid (part.target first second) ∧
      Has system pid (part.source first second) ∧ first ≠ second ∧ Takes system part second
  | .written first second =>
    Quiet system pid ∧ Has system pid first ∧ Has system pid second ∧ first ≠ second ∧
      Takes system part second ∧
      (system.machine.bufs (part.target first second)).data =
        system.machine.disk (system.machine.bufs (part.target first second)).blockno
  | .unpinned first second =>
    Quiet system pid ∧ Has system pid first ∧ Has system pid second ∧ first ≠ second
  | .last buf => Quiet system pid ∧ Has system pid buf ∧ part ≠ .clear

/-- The block that a part unpins. -/
def Part.unpins : Part → Option Nat
  | .install _ entry => some entry
  | _ => none

/-- The blocks that a commit has still to unpin. -/
def pending (parts : List Part) : Stage → List Nat
  | .unpinned _ _ | .last _ => parts.tail.filterMap Part.unpins
  | _ => parts.filterMap Part.unpins

theorem Mode.ne_committing {mode : Mode} {parts : List Part} {stage : Stage}
    (isClient : mode.isClient = true) : mode ≠ .committing parts stage := by
  rintro rfl
  cases isClient

/-- What is pinned, and what is in the header, during a commit. -/
structure Owes (system : System) (parts : List Part) (stage : Stage) : Prop where
  distinct : (pending parts stage).Nodup
  pins : ∀ block, block ∈ system.machine.pins ↔ block ∈ pending parts stage
  header : Part.clear ∉ parts → system.machine.log.lh = []

/-- The processes as the group commit sees them. -/
def Mode.phase : Mode → Group.Phase
  | .outside => .outside
  | .inside => .inside ⟨0, []⟩ none
  | .committing _ _ => .committing

/-- The system as the group commit sees it. -/
def view (system : System) : Group.System Pid where
  log := system.machine.log
  pins := fun _ => 0
  phase := fun pid => (system.mode pid).phase
  commits := []
  closed := []

/-- The invariant of the system. -/
structure Sound (system : System) : Prop where
  coherent : Coherent system
  counted : Group.Counted (view system)
  idle : (∀ pid, (system.mode pid).isClient = true) → system.machine.log.lh.Nodup ∧
    ∀ block, block ∈ system.machine.pins ↔ block ∈ system.machine.log.lh
  fits : ∀ pid parts stage, system.mode pid = .committing parts stage →
    stage.Fits system pid (parts.headD .clear)
  owes : ∀ pid parts stage, system.mode pid = .committing parts stage → Owes system parts stage

/-! ## What the other processes leave alone -/

variable {index first second buf : Index}

section

variable {system next : System} {actor : Pid} {target : Index} {mode : Mode} {pins : List Nat}
  {part : Part} {stage : Stage}

theorem Moved.quiet (moved : Moved actor target mode pins system next) (different : pid ≠ actor)
    (quiet : Quiet system pid) : Quiet next pid :=
  ⟨(moved.waiting pid different).trans quiet.1, (moved.reading pid different).trans quiet.2⟩

theorem Same.holds (same : Same system next index)
    (held : system.Holds pid index) : next.Holds pid index :=
  same.holder.trans held

theorem Same.has (same : Same system next index)
    (has : Has system pid index) : Has next pid index :=
  ⟨same.holds has.1, same.dirty.trans has.2⟩

variable (moved : Moved actor target mode pins system next)
include moved

theorem Moved.takes (counted : (system.machine.bufs index).refcnt ≠ 0) (takes : Takes system part index) :
    Takes next part index := by
  intro tail entry isInstall
  rw [moved.key index counted]
  exact takes tail entry isInstall

/-- A step of another process does not disturb a commit. -/
theorem Moved.fits (coherent : Coherent system)
    (different : pid ≠ actor) (fits : stage.Fits system pid part) : stage.Fits next pid part := by
  have same : ∀ index, system.Holds pid index → Same system next index := fun index held =>
    moved.held pid index held (Or.inl different)
  have waiting := moved.waiting pid different
  have reading := moved.reading pid different
  have counted : ∀ index, system.Holds pid index → (system.machine.bufs index).refcnt ≠ 0 :=
    fun index held => coherent.exact.counted_of_held held
  cases stage with
  | start => exact moved.quiet different fits
  | wantFirst first => exact ⟨waiting.trans fits.1, reading.trans fits.2⟩
  | lockedFirst first =>
    have held := coherent.reader pid first fits.1.2
    exact ⟨⟨waiting.trans fits.1.1, reading.trans fits.1.2⟩, (same first held).dirty.trans fits.2⟩
  | haveFirst first =>
    exact ⟨moved.quiet different fits.1, (same first fits.2.1).has fits.2⟩
  | filled first =>
    rcases fits with ⟨quiet, held, isHead⟩
    exact ⟨moved.quiet different quiet, (same first held).holds held, isHead⟩
  | wantSecond first second =>
    rcases fits with ⟨waits, has, takes⟩
    exact ⟨⟨waiting.trans waits.1, reading.trans waits.2⟩, (same first has.1).has has,
      moved.takes (coherent.exact.counted_of_waiting waits.1) takes⟩
  | lockedSecond first second =>
    rcases fits with ⟨reads, has, distinct, tidy, takes⟩
    have held := coherent.reader pid second reads.2
    exact ⟨⟨waiting.trans reads.1, reading.trans reads.2⟩, (same first has.1).has has, distinct,
      (same second held).dirty.trans tidy, moved.takes (counted second held) takes⟩
  | haveBoth first second =>
    rcases fits with ⟨quiet, hasFirst, hasSecond, distinct, takes⟩
    exact ⟨moved.quiet different quiet, (same first hasFirst.1).has hasFirst,
      (same second hasSecond.1).has hasSecond, distinct,
      moved.takes (counted second hasSecond.1) takes⟩
  | changed first second =>
    rcases fits with ⟨quiet, held, has, distinct, takes⟩
    refine ⟨moved.quiet different quiet, (same _ held).holds held, (same _ has.1).has has,
      distinct, ?_⟩
    intro tail entry isInstall
    subst isInstall
    rw [moved.key second (counted second held)]
    exact takes tail entry rfl
  | written first second =>
    rcases fits with ⟨quiet, hasFirst, hasSecond, distinct, takes, onDisk⟩
    have held : system.Holds pid (part.target first second) := by
      cases part with
      | install => exact hasSecond.1
      | _ => exact hasFirst.1
    have unchanged := same _ held
    refine ⟨moved.quiet different quiet, (same first hasFirst.1).has hasFirst,
      (same second hasSecond.1).has hasSecond, distinct,
      moved.takes (counted second hasSecond.1) takes, ?_⟩
    rw [unchanged.data, unchanged.blockno, unchanged.disk]
    exact onDisk
  | unpinned first second =>
    rcases fits with ⟨quiet, hasFirst, hasSecond, distinct⟩
    exact ⟨moved.quiet different quiet, (same first hasFirst.1).has hasFirst,
      (same second hasSecond.1).has hasSecond, distinct⟩
  | last buf =>
    rcases fits with ⟨quiet, has, notClear⟩
    exact ⟨moved.quiet different quiet, (same buf has.1).has has, notClear⟩

end

/-! ## Steps that leave the log alone -/

variable {parts' : List Part} {log : LogState} {blockno : Nat} {data : Block} {part : Part}

section

variable {system next : System} {target : Index} {parts rest : List Part} {stage stage' : Stage}
  {mode : Mode} {pins : List Nat}

theorem Owes.kept (owes : Owes system parts stage)
    (moved : Moved pid target mode system.machine.pins system next)
    (same : pending parts stage' = pending parts stage) : Owes next parts stage' := by
  refine ⟨same.symm ▸ owes.distinct, fun block => ?_, ?_⟩
  · rw [moved.pins, same]
    exact owes.pins block
  · rw [moved.log]
    exact owes.header

theorem Moved.view_eq (moved : Moved pid target mode pins system next)
    (phase : mode.phase = (system.mode pid).phase) : view next = view system := by
  have phases : (fun other => (next.mode other).phase) =
      fun other => (system.mode other).phase := by
    funext other
    rw [moved.mode]
    by_cases same : other = pid
    · rw [same, update_self, phase]
    · rw [update_of_ne same]
  unfold view
  rw [phases, moved.log]

namespace Sound

theorem of_none (coherent : Coherent next) (counted : Group.Counted (view next))
    (header : next.machine.log.lh.Nodup ∧
      ∀ block, block ∈ next.machine.pins ↔ block ∈ next.machine.log.lh)
    (never : ∀ pid parts stage, next.mode pid ≠ .committing parts stage) : Sound next :=
  ⟨coherent, counted, fun _ => header, fun pid parts stage committing =>
    absurd committing (never pid parts stage), fun pid parts stage committing =>
    absurd committing (never pid parts stage)⟩

theorem of_one {modes : Pid → Mode} (coherent : Coherent next) (counted : Group.Counted (view next))
    (isMode : next.mode = update modes pid (.committing parts stage))
    (others : ∀ other parts stage, modes other = .committing parts stage → other = pid)
    (fits : stage.Fits next pid (parts.headD .clear)) (owes : Owes next parts stage) :
    Sound next := by
  have only : ∀ other otherParts otherStage, next.mode other = .committing otherParts otherStage →
      other = pid ∧ otherParts = parts ∧ otherStage = stage := by
    intro other otherParts otherStage committing
    rw [isMode] at committing
    rcases update_eq_cases committing with ⟨same, isCommitting⟩ | ⟨different, before⟩
    · cases isCommitting
      exact ⟨same, rfl, rfl⟩
    · exact absurd (others other otherParts otherStage before) different
  refine ⟨coherent, counted, fun allClients => ?_, ?_, ?_⟩
  · have isClient := allClients pid
    rw [isMode, update_self] at isClient
    cases isClient
  all_goals
    intro other otherParts otherStage committing
    rcases only other otherParts otherStage committing with ⟨rfl, rfl, rfl⟩
  · exact fits
  · exact owes

variable (sound : Sound system)
include sound

/-- Only one process is committing. -/
theorem alone {other : Pid} (committing : system.mode pid = .committing parts stage)
    (alsoCommitting : system.mode other = .committing parts' stage') : other = pid := by
  apply sound.counted.single
  · exact Or.inl (congrArg Mode.phase alsoCommitting)
  · exact Or.inl (congrArg Mode.phase committing)

theorem client (isClient : (system.mode pid).isClient = true)
    (moved : Moved pid target (system.mode pid) system.machine.pins system next) : Sound next := by
  have modes : next.mode = system.mode := moved.mode.trans (update_eq_self pid system.mode)
  refine ⟨moved.coherent, (moved.view_eq rfl).symm ▸ sound.counted, ?_, ?_, ?_⟩
  · rw [modes, moved.pins, moved.log]
    exact sound.idle
  · intro other parts stage committing
    rw [modes] at committing
    have different : other ≠ pid := by
      rintro rfl
      exact Mode.ne_committing isClient committing
    exact moved.fits sound.coherent different (sound.fits other parts stage committing)
  · intro other parts stage committing
    rw [modes] at committing
    exact (sound.owes other parts stage committing).kept moved rfl

variable (committing : system.mode pid = .committing parts stage)
include committing

theorem commits (moved : Moved pid target (.committing parts' stage') pins system next)
    (fits : stage'.Fits next pid (parts'.headD .clear)) (owes : Owes next parts' stage') :
    Sound next := by
  refine of_one moved.coherent ?_ moved.mode (fun _ _ _ => sound.alone committing) fits owes
  rw [moved.view_eq (by rw [committing]; rfl)]
  exact sound.counted

theorem goesOn (moved : Moved pid target (.committing parts stage') system.machine.pins system next)
    (same : pending parts stage' = pending parts stage)
    (fits : stage'.Fits next pid (parts.headD .clear)) : Sound next :=
  sound.commits committing moved fits ((sound.owes pid parts stage committing).kept moved same)

end Sound

/-! ## Steps of the log -/

theorem view_setLog (log : LogState) : view (system.setLog pid log mode) =
    { view system with
      log := log
      phase := update (view system).phase pid mode.phase } := by
  have phases : (fun other => (update system.mode pid mode other).phase) =
      update (fun other => (system.mode other).phase) pid mode.phase := by
    funext other
    by_cases same : other = pid
    · rw [same, update_self, update_self]
    · rw [update_of_ne same, update_of_ne same]
  unfold view System.setLog
  rw [← phases]

namespace Sound

section

variable (sound : Sound system)
include sound

theorem clients_of_idle (idle : system.machine.log.committing = false)
    (other : Pid) : (system.mode other).isClient = true := by
  cases mode : system.mode other with
  | outside => rfl
  | inside => rfl
  | committing parts stage =>
    have flag := sound.counted.busy other (Or.inl (congrArg Mode.phase mode))
    rw [show (view system).log.committing = false from idle] at flag
    cases flag

theorem idle_of_inside (inside : system.mode pid = .inside) :
    system.machine.log.committing = false :=
  sound.counted.idle_of_inside (congrArg Mode.phase inside)

theorem relog (dev : log.dev = system.machine.log.dev)
    (lh : log.lh = system.machine.log.lh) (idle : system.machine.log.committing = false)
    (isClient : mode.isClient = true)
    (counted : Group.Counted (view (system.setLog pid log mode))) :
    Sound (system.setLog pid log mode) := by
  have clients := sound.clients_of_idle idle
  have never : ∀ other parts stage,
      (system.setLog pid log mode).mode other ≠ .committing parts stage := by
    intro other parts stage committing
    rcases update_eq_cases committing with ⟨_, isMode⟩ | ⟨_, before⟩
    · exact Mode.ne_committing isClient isMode
    · exact Mode.ne_committing (clients other) before
  refine of_none (sound.coherent.withLog dev) counted ?_ never
  show log.lh.Nodup ∧ ∀ block, block ∈ system.machine.pins ↔ block ∈ log.lh
  rw [lh]
  exact sound.idle clients

theorem beginOp (outside : system.mode pid = .outside)
    (begun : Log.beginOp system.machine.log = some log) :
    Sound (system.setLog pid log .inside) := by
  rcases beginOp_eq_some.mp begun with ⟨idle, _, rfl⟩
  refine sound.relog rfl rfl idle rfl ?_
  rw [view_setLog]
  exact sound.counted.after (.enter pid (Or.inl (congrArg Mode.phase outside)) idle)

end

theorem filterMap_mapIdx_writeLog (lh : List Nat) :
    (lh.mapIdx Part.writeLog).filterMap Part.unpins = [] := by
  rw [List.filterMap_eq_nil_iff]
  intro part member
  rcases List.mem_mapIdx.mp member with ⟨tail, inside, rfl⟩
  rfl

theorem filterMap_mapIdx_install (lh : List Nat) :
    (lh.mapIdx Part.install).filterMap Part.unpins = lh := by
  have entry : (Part.unpins ∘ fun pair : Nat × Nat => Part.install pair.2 pair.1) =
      some ∘ Prod.fst := rfl
  rw [List.mapIdx_eq_zipIdx_map, List.filterMap_map, entry, List.filterMap_eq_map,
    List.zipIdx_map_fst]

theorem pending_commitParts (lh : List Nat) : pending (commitParts lh) .start = lh := by
  show (commitParts lh).filterMap Part.unpins = lh
  unfold commitParts
  split
  · rw [List.filterMap_append, List.filterMap_append, List.filterMap_append,
      filterMap_mapIdx_writeLog, filterMap_mapIdx_install]
    exact List.append_nil lh
  · have empty : lh.length = 0 := by omega
    rw [List.eq_nil_of_length_eq_zero empty]
    rfl

theorem clear_mem_commitParts {lh : List Nat} (missing : Part.clear ∉ commitParts lh) :
    lh = [] := by
  unfold commitParts at missing
  split at missing
  · simp at missing
  · exact List.eq_nil_of_length_eq_zero (by omega)

section

variable (sound : Sound system)
include sound

theorem endOp {doCommit : Bool} (inside : system.mode pid = .inside) (quiet : Quiet system pid)
    (ended : Log.endOp system.machine.log = .ok (log, doCommit)) :
    Sound (system.setLog pid log
      (if doCommit then .committing (commitParts log.lh) .start else .outside)) := by
  have idle := sound.idle_of_inside inside
  have phase : (view system).phase pid = .inside ⟨0, []⟩ none := congrArg Mode.phase inside
  rw [endOp_of_idle idle] at ended
  split at ended
  · rename_i alone
    cases ended
    rw [if_pos rfl]
    have clients := sound.clients_of_idle idle
    have nobody : ∀ other parts stage, system.mode other = .committing parts stage → other = pid := by
      intro other parts stage committing
      exact absurd committing (Mode.ne_committing (clients other))
    have header := sound.idle clients
    refine of_one (sound.coherent.withLog rfl) ?_ rfl nobody quiet ⟨?_, ?_, clear_mem_commitParts⟩
    · rw [view_setLog]
      have counted := sound.counted.after (.last pid ⟨0, []⟩ phase idle alone)
      exact ⟨counted.outstanding, counted.quiet, counted.busy, counted.single, counted.committer⟩
    · rw [pending_commitParts]
      exact header.1
    · rw [pending_commitParts]
      exact header.2
  · rename_i others
    cases ended
    refine sound.relog rfl rfl idle rfl ?_
    rw [view_setLog]
    have counted := sound.counted.after (.leave pid ⟨0, []⟩ phase idle others)
    have awake : ∀ other, update (view system).phase pid .outside other ≠ .asleep := by
      intro other asleep
      rcases update_eq_cases asleep with ⟨_, impossible⟩ | ⟨_, impossible⟩
      · cases impossible
      · rw [view] at impossible
        cases mode : system.mode other <;> simp [mode, Mode.phase] at impossible
    rw [Group.wakeup_eq_self awake] at counted
    exact ⟨counted.outstanding, counted.quiet, counted.busy, counted.single, counted.committer⟩

/-- The last step of a commit. -/
theorem finish (committing : system.mode pid = .committing [] stage) :
    Sound (system.setLog pid { system.machine.log with committing := false } .outside) := by
  have owes := sound.owes pid [] stage committing
  have nothing : pending [] stage = [] := by cases stage <;> rfl
  have never : ∀ other parts stage, (system.setLog pid
      { system.machine.log with committing := false } .outside).mode other ≠
        .committing parts stage := by
    intro other parts stage alsoCommitting
    rcases update_eq_cases alsoCommitting with ⟨_, impossible⟩ | ⟨different, before⟩
    · cases impossible
    · exact different (sound.alone committing before)
  refine of_none (sound.coherent.withLog rfl) ?_ ?_ never
  · rw [view_setLog]
    exact sound.counted.retire (Or.inl (congrArg Mode.phase committing)) rfl rfl (fun _ => id)
      fun _ => rfl
  · show system.machine.log.lh.Nodup ∧
      ∀ block, block ∈ system.machine.pins ↔ block ∈ system.machine.log.lh
    rw [owes.header List.not_mem_nil]
    refine ⟨List.nodup_nil, fun block => ?_⟩
    rw [owes.pins, nothing]

/-- The assignment `log.lh.n = 0`. -/
theorem clear (committing : system.mode pid = .committing (.clear :: rest) .start) :
    Sound (system.setLog pid { system.machine.log with lh := [] } (.committing rest .start)) := by
  have owes := sound.owes pid _ _ committing
  have phase : (view system).phase pid = .committing := congrArg Mode.phase committing
  refine of_one (sound.coherent.withLog rfl) ?_ rfl (fun _ _ _ => sound.alone committing)
    (sound.fits pid _ _ committing) ⟨owes.distinct, owes.pins, fun _ => rfl⟩
  have counted := sound.counted
  rw [view_setLog, show (Mode.committing rest .start).phase = (view system).phase pid from
    phase.symm, update_eq_self]
  exact ⟨counted.outstanding, counted.quiet, counted.busy, counted.single, counted.committer⟩

/-! ## The steps of a commit -/

theorem wantFirst (committing : system.mode pid = .committing parts .start)
    (ran : system.bget pid blockno (fun buf => .committing parts (.wantFirst buf)) = .next next) :
    Sound next := by
  have quiet := sound.fits pid parts .start committing
  rcases sound.coherent.bget quiet.1 quiet.2 ran with ⟨buf, moved, waits, reads, _⟩
  exact sound.goesOn committing moved rfl ⟨waits, reads⟩

theorem wantSecond (committing : system.mode pid = .committing parts (.haveFirst first))
    (entry : ∀ tail entry, parts.headD .clear = .install tail entry → blockno = entry)
    (ran : system.bget pid blockno (fun buf => .committing parts (.wantSecond first buf)) =
      .next next) : Sound next := by
  rcases sound.fits pid parts (.haveFirst first) committing with ⟨quiet, has⟩
  rcases sound.coherent.bget quiet.1 quiet.2 ran with ⟨buf, moved, waits, reads, isBlock, same⟩
  refine sound.goesOn committing moved rfl ⟨⟨waits, reads⟩, (same first has.1).has has, ?_⟩
  intro tail home isInstall
  exact isBlock.trans (entry tail home isInstall)

theorem lockedFirst (committing : system.mode pid = .committing parts (.wantFirst first))
    (ran : system.lock pid first (.committing parts (.lockedFirst first)) = .next next) :
    Sound next := by
  rcases sound.fits pid parts _ committing with ⟨waits, idle⟩
  rcases sound.coherent.lock waits idle ran with ⟨moved, awake, reads, tidy, _⟩
  exact sound.goesOn committing moved rfl ⟨⟨awake, reads⟩, tidy⟩

theorem lockedSecond (committing : system.mode pid = .committing parts (.wantSecond first second))
    (ran : system.lock pid second (.committing parts (.lockedSecond first second)) = .next next) :
    Sound next := by
  rcases sound.fits pid parts _ committing with ⟨waits, has, takes⟩
  rcases sound.coherent.lock waits.1 waits.2 ran with ⟨moved, awake, reads, tidy, free⟩
  have distinct : first ≠ second := by
    rintro rfl
    exact free has.1
  exact sound.goesOn committing moved rfl ⟨⟨awake, reads⟩,
    (moved.held pid first has.1 (Or.inr distinct)).has has, distinct, tidy,
    moved.takes (sound.coherent.exact.counted_of_waiting waits.1) takes⟩

theorem haveFirst (committing : system.mode pid = .committing parts (.lockedFirst first))
    (ran : system.read pid first (.committing parts (.haveFirst first)) = .next next) :
    Sound next := by
  rcases sound.fits pid parts _ committing with ⟨reads, tidy⟩
  rcases sound.coherent.read reads.2 reads.1 ran with ⟨moved, awake, idle, mark, held, _⟩
  exact sound.goesOn committing moved rfl ⟨⟨awake, idle⟩, held, mark.trans tidy⟩

theorem haveBoth (committing : system.mode pid = .committing parts (.lockedSecond first second))
    (ran : system.read pid second (.committing parts (.haveBoth first second)) = .next next) :
    Sound next := by
  rcases sound.fits pid parts _ committing with ⟨reads, has, distinct, tidy, takes⟩
  rcases sound.coherent.read reads.2 reads.1 ran with ⟨moved, awake, idle, mark, held, _⟩
  have counted := sound.coherent.exact.counted_of_held (sound.coherent.reader pid second reads.2)
  exact sound.goesOn committing moved rfl ⟨⟨awake, idle⟩,
    (moved.held pid first has.1 (Or.inr distinct)).has has, ⟨held, mark.trans tidy⟩, distinct,
    moved.takes counted takes⟩

theorem filled (committing : system.mode pid = .committing (.writeHead :: rest) (.haveFirst first))
    (ran : system.assign pid first data (.committing (.writeHead :: rest) (.filled first)) =
      .next next) : Sound next := by
  rcases sound.fits pid _ _ committing with ⟨quiet, has⟩
  rcases sound.coherent.assign has.1 quiet.2 ran with ⟨moved, waiting, reading, held, _⟩
  exact sound.goesOn committing moved rfl ⟨quiet.congr waiting reading, held, rfl⟩

theorem headWritten (committing : system.mode pid = .committing parts (.filled first))
    (ran : system.bwrite pid first (.committing parts (.last first)) = .next next) :
    Sound next := by
  rcases sound.fits pid _ _ committing with ⟨quiet, held, isHead⟩
  rcases sound.coherent.bwrite held quiet.2 ran with ⟨moved, waiting, reading, bufs, tidy, _⟩
  have heldStill : next.Holds pid first := by
    rw [System.Holds, bufs]
    exact held
  refine sound.goesOn committing moved ?_ ⟨quiet.congr waiting reading, ⟨heldStill, tidy⟩, ?_⟩
  · cases parts with
    | nil => rfl
    | cons part rest =>
      rw [show part = .writeHead from isHead]
      rfl
  · rw [isHead]
    intro impossible
    cases impossible

end

theorem target_ne_source (distinct : first ≠ second) :
    part.source first second ≠ part.target first second := by
  cases part with
  | install => exact distinct
  | _ => exact distinct.symm

theorem has_both (target : Has next pid (part.target first second))
    (source : Has next pid (part.source first second)) :
    Has next pid first ∧ Has next pid second := by
  cases part with
  | install => exact ⟨source, target⟩
  | _ => exact ⟨target, source⟩

section

variable (sound : Sound system)
include sound

/-- A round copies from one of its buffers to the other. -/
theorem changed (committing : system.mode pid = .committing (part :: rest) (.haveBoth first second))
    (ran : system.assign pid (part.target first second) data
      (.committing (part :: rest) (.changed first second)) = .next next) : Sound next := by
  rcases sound.fits pid _ _ committing with ⟨quiet, hasFirst, hasSecond, distinct, takes⟩
  have hasTarget : Has system pid (part.target first second) := by
    cases part with
    | install => exact hasSecond
    | _ => exact hasFirst
  have hasSource : Has system pid (part.source first second) := by
    cases part with
    | install => exact hasFirst
    | _ => exact hasSecond
  rcases sound.coherent.assign hasTarget.1 quiet.2 ran with ⟨moved, waiting, reading, held, _⟩
  exact sound.goesOn committing moved rfl ⟨quiet.congr waiting reading, held,
    (moved.held pid _ hasSource.1 (Or.inr (target_ne_source distinct))).has hasSource, distinct,
    moved.takes (sound.coherent.exact.counted_of_held hasSecond.1) takes⟩

/-- A round writes the buffer that it has changed. -/
theorem written (committing : system.mode pid = .committing (part :: rest) (.changed first second))
    (ran : system.bwrite pid (part.target first second)
      (.committing (part :: rest) (.written first second)) = .next next) : Sound next := by
  rcases sound.fits pid _ _ committing with ⟨quiet, held, hasSource, distinct, takes⟩
  rcases sound.coherent.bwrite held quiet.2 ran with ⟨moved, waiting, reading, bufs, tidy, onDisk⟩
  have hasTarget : Has next pid (part.target first second) := by
    refine ⟨?_, tidy⟩
    rw [System.Holds, bufs]
    exact held
  have still := moved.held pid _ hasSource.1 (Or.inr (target_ne_source distinct))
  have both := has_both hasTarget (still.has hasSource)
  refine sound.goesOn committing moved rfl ⟨quiet.congr waiting reading, both.1, both.2, distinct, ?_, ?_⟩
  · intro tail entry isInstall
    rw [bufs]
    exact takes tail entry isInstall
  · rw [bufs]
    exact onDisk.symm

section

variable {tail entry : Nat}
  (committing : system.mode pid = .committing (.install tail entry :: rest) (.written first second))
  (ran : system.bunpin pid second
    (.committing (.install tail entry :: rest) (.unpinned first second)) = .next next)
include committing ran

theorem unpins :
    Moved pid second (.committing (.install tail entry :: rest) (.unpinned first second))
        (system.machine.pins.erase entry) system next ∧
      next.machine.waiting = system.machine.waiting ∧ next.reading = system.reading ∧
      next.Holds pid second ∧ next.dirty = system.dirty := by
  rcases sound.fits pid _ _ committing with ⟨quiet, _, hasSecond, _, takes, onDisk⟩
  have isEntry : (system.machine.bufs second).blockno = entry := takes tail entry rfl
  have isPinned : entry ∈ system.machine.pins :=
    ((sound.owes pid _ _ committing).pins entry).mpr List.mem_cons_self
  have unpinned := sound.coherent.bunpin hasSecond.1 quiet.2 (isEntry.symm ▸ isPinned) onDisk ran
  rwa [isEntry] at unpinned

theorem unpinned : Sound next := by
  rcases sound.fits pid _ _ committing with ⟨quiet, hasFirst, hasSecond, distinct, _⟩
  have owes := sound.owes pid _ _ committing
  rcases sound.unpins committing ran with ⟨moved, waiting, reading, held, dirty⟩
  have fresh := List.nodup_cons.mp owes.distinct
  refine sound.commits committing moved ⟨quiet.congr waiting reading,
    (moved.held pid first hasFirst.1 (Or.inr distinct)).has hasFirst,
    ⟨held, (congrFun dirty second).trans hasSecond.2⟩, distinct⟩ ⟨fresh.2, fun block => ?_, ?_⟩
  · rw [moved.pins, sound.coherent.exact.distinct.mem_erase_iff, owes.pins]
    show _ ∧ block ∈ entry :: rest.filterMap Part.unpins ↔ block ∈ rest.filterMap Part.unpins
    rw [List.mem_cons]
    constructor
    · rintro ⟨different, rfl | member⟩
      · exact absurd rfl different
      · exact member
    · intro member
      refine ⟨?_, Or.inr member⟩
      rintro rfl
      exact fresh.1 member
  · rw [moved.log]
    exact owes.header

end

/-- A round releases one of its buffers. -/
theorem released {other : Index}
    (committing : system.mode pid = .committing (part :: rest) stage) (quiet : Quiet system pid)
    (has : Has system pid buf) (hasOther : Has system pid other) (distinct : other ≠ buf)
    (notClear : part ≠ .clear)
    (same : pending (part :: rest) (.last other) = pending (part :: rest) stage)
    (ran : system.brelse pid buf (.committing (part :: rest) (.last other)) = .next next) :
    Sound next := by
  rcases sound.coherent.brelse has.1 quiet.2 has.2 ran with ⟨moved, waiting, reading⟩
  exact sound.goesOn committing moved same ⟨quiet.congr waiting reading,
    (moved.held pid other hasOther.1 (Or.inr distinct)).has hasOther, notClear⟩

/-- A part releases its last buffer. -/
theorem finished (committing : system.mode pid = .committing (part :: rest) (.last buf))
    (ran : system.brelse pid buf (.committing rest .start) = .next next) : Sound next := by
  rcases sound.fits pid _ _ committing with ⟨quiet, has, notClear⟩
  rcases sound.coherent.brelse has.1 quiet.2 has.2 ran with ⟨moved, waiting, reading⟩
  have owes := sound.owes pid _ _ committing
  refine sound.commits committing moved (quiet.congr waiting reading) ⟨owes.distinct, ?_, ?_⟩
  · rw [moved.pins]
    exact owes.pins
  · rw [moved.log]
    intro missing
    apply owes.header
    rw [List.mem_cons, not_or]
    exact ⟨notClear.symm, missing⟩

/-- Every step of a commit keeps the invariant. -/
theorem advance (committing : system.mode pid = .committing parts stage)
    (ran : system.advance pid parts stage = .next next) : Sound next := by
  unfold System.advance at ran
  dsimp only at ran
  split at ran
  · cases ran
    exact sound.finish committing
  · cases ran
    exact sound.clear committing
  · exact sound.wantFirst committing ran
  · exact sound.wantFirst committing ran
  · exact sound.wantFirst committing ran
  · exact sound.lockedFirst committing ran
  · exact sound.haveFirst committing ran
  · exact sound.filled committing ran
  · exact sound.headWritten committing ran
  · apply sound.wantSecond committing _ ran
    intro _ _ impossible
    cases impossible
  · apply sound.wantSecond committing _ ran
    intro _ _ same
    cases same
    rfl
  · exact sound.lockedSecond committing ran
  · exact sound.haveBoth committing ran
  · exact sound.changed committing ran
  · exact sound.written committing ran
  · rcases sound.fits pid _ _ committing with ⟨quiet, hasFirst, hasSecond, distinct, _⟩
    apply sound.released committing quiet hasSecond hasFirst distinct _ rfl ran
    intro impossible
    cases impossible
  · exact sound.changed committing ran
  · exact sound.written committing ran
  · exact sound.unpinned committing ran
  · rcases sound.fits pid _ _ committing with ⟨quiet, hasFirst, hasSecond, distinct⟩
    apply sound.released committing quiet hasFirst hasSecond distinct.symm _ rfl ran
    intro impossible
    cases impossible
  · exact sound.finished committing ran
  · cases ran

theorem given (latest : Nat → Block) : Sound { system with latest := latest } := by
  have coherent := sound.coherent
  refine ⟨⟨coherent.exact, coherent.fresh, coherent.absent, coherent.clean, coherent.modified,
    coherent.reader, coherent.loaded, coherent.asked, coherent.awake⟩, sound.counted, sound.idle,
    sound.fits, ?_⟩
  intro pid parts stage committing
  have owes := sound.owes pid parts stage committing
  exact ⟨owes.distinct, owes.pins, owes.header⟩

/-- Logging a block pins it. -/
theorem logWrite (inside : system.mode pid = .inside)
    (quiet : Quiet system pid) (held : system.Holds pid index)
    (ran : system.attempt (Buffer.logWrite index) (fun _ machine =>
      { system with machine := machine, dirty := update system.dirty index false }) =
        .next next) : Sound next := by
  have clients := sound.clients_of_idle (sound.idle_of_inside inside)
  have header := sound.idle clients
  rcases sound.coherent.logWrite held quiet.2 header.2 ran with ⟨coherent, log, pins, modes⟩
  refine of_none coherent ?_ ?_ fun other _ _ => modes ▸ Mode.ne_committing (clients other)
  · have counted := sound.counted
    have same : view next = { view system with
        log := logWriteAppend system.machine.log (system.machine.bufs index).blockno } := by
      unfold view
      rw [modes, log]
    rw [same]
    refine ⟨?_, ?_, ?_, counted.single, ?_⟩
    · rw [logWriteAppend_outstanding]
      exact counted.outstanding
    · rw [logWriteAppend_committing, logWriteAppend_outstanding]
      exact counted.quiet
    · rw [logWriteAppend_committing]
      exact counted.busy
    · rw [logWriteAppend_committing]
      exact counted.committer
  · rw [log]
    refine ⟨logWriteAppend_nodup header.1 _, fun block => ?_⟩
    rw [pins, mem_logWriteAppend, header.2]

end

theorem stepped (system : System) (action : Action) (next : System) (sound : Sound system)
    (ran : step system action = .next next) : Sound next := by
  have coherent := sound.coherent
  cases action with
  | bget pid blockno =>
    rcases guard_eq_next.mp ran with ⟨ready, ran⟩
    rcases coherent.bget ready.1 ready.2.1 ran with ⟨index, moved, _⟩
    exact sound.client ready.2.2 moved
  | lock pid =>
    simp only [step] at ran
    split at ran
    · rename_i index waits
      rcases guard_eq_next.mp ran with ⟨isClient, ran⟩
      exact sound.client isClient (coherent.lock waits (coherent.idle_of_waiting waits) ran).1
    · cases ran
  | read pid =>
    simp only [step] at ran
    split at ran
    · rename_i index reads
      rcases guard_eq_next.mp ran with ⟨isClient, ran⟩
      exact sound.client isClient (coherent.read reads (coherent.awake_of_reading reads) ran).1
    · cases ran
  | assign pid index data =>
    rcases guard_eq_next.mp ran with ⟨ready, ran⟩
    rcases ready with ⟨ready, held, inside⟩
    rw [← inside] at ran
    have given := sound.given (update system.latest (system.machine.bufs index).blockno data)
    exact given.client ready.2.2 (given.coherent.assign held ready.2.1 ran).1
  | bwrite pid index =>
    rcases guard_eq_next.mp ran with ⟨ready, ran⟩
    exact sound.client ready.1.2.2 (coherent.bwrite ready.2 ready.1.2.1 ran).1
  | brelse pid index =>
    rcases guard_eq_next.mp ran with ⟨ready, ran⟩
    rcases ready with ⟨ready, held, tidy⟩
    exact sound.client ready.2.2 (coherent.brelse held ready.2.1 tidy ran).1
  | beginOp pid =>
    rcases guard_eq_next.mp ran with ⟨ready, ran⟩
    split at ran
    · rename_i log begun
      cases ran
      exact sound.beginOp ready.2 begun
    · cases ran
  | logWrite pid index =>
    rcases guard_eq_next.mp ran with ⟨ready, ran⟩
    rcases ready with ⟨ready, held, inside⟩
    exact sound.logWrite inside ⟨ready.1, ready.2.1⟩ held ran
  | endOp pid =>
    rcases guard_eq_next.mp ran with ⟨ready, ran⟩
    rcases ready with ⟨ready, inside, _⟩
    split at ran
    · cases ran
    · rename_i log ended
      cases ran
      exact sound.endOp inside ⟨ready.1, ready.2.1⟩ ended
    · rename_i log ended
      cases ran
      exact sound.endOp inside ⟨ready.1, ready.2.1⟩ ended
  | commit pid =>
    simp only [step] at ran
    split at ran
    · rename_i parts stage committing
      exact sound.advance committing ran
    · cases ran

end Sound

end

/-! ## From a boot with an empty log -/

theorem recoverFromLog_agrees {disk : Nat → Block}
    (device : log.dev ≠ 0) (empty : decodeHeader (disk log.start) = []) :
    Wp (recoverFromLog pid) (Machine.boot disk log) (fun _ after =>
      (∀ blockno, Log.Coherent after blockno) ∧ after.log = { log with lh := [] })
      fun _ _ => True := by
  have ok := wellformed_boot disk log
  have absent : ∀ blockno index, ¬ (Machine.boot disk log).Keyed log.dev blockno index :=
    chosen_boot device
  simp only [recoverFromLog, installTrans, clearHeader, wp_bind, wp_get, wp_modify]
  refine (readHead_wp ok ?_ ⟨⟨0, by decide⟩, rfl⟩).mono ?_ fun _ _ _ => trivial
  · exact fun index keyed => absurd keyed (absent _ index)
  rintro _ loaded ⟨index, header, chosen, isHeader, settled, isLog⟩
  have onDisk : header = disk log.start := by
    rw [isHeader, Machine.contents, if_neg fun cached => absent _ index cached.1]
    rfl
  have agrees : ∀ blockno, Log.Coherent { loaded with log := log } blockno := by
    intro blockno
    by_cases isStart : blockno = log.start
    · subst blockno
      apply Settled.coherent_self settled chosen ok device
      rw [onDisk, settled.disk]
      rfl
    · exact Settled.coherent settled chosen (fun other keyed => absurd keyed (absent _ other))
        isStart List.not_mem_nil
  have counts : ∀ other, (loaded.bufs other).refcnt = 0 := by
    intro other
    have bufs : loaded.bufs = _ := settled.bufs
    rw [bufs]
    by_cases same : other = index
    · rw [same, update_self]
      rfl
    · rw [update_of_ne same]
      rfl
  have wellformed := Settled.wellformed settled chosen ok device
  have available := Settled.available_self settled chosen ok device
    (show (0 : BitVec 32) + 1 ≠ 0 by decide)
  rw [isLog, onDisk, empty]
  simp only [forEntries, wp_pure, isLog]
  refine (writeHead_wp ?_ ?_ ?_).total ?_
  · exact ⟨wellformed.ring, wellformed.unique, wellformed.idle⟩
  · exact available
  · exact ⟨⟨0, by decide⟩, counts _⟩
  rintro _ after ⟨place, cleared, taken, _, again⟩
  refine ⟨fun blockno => ?_, again.log⟩
  by_cases isStart : blockno = log.start
  · subst blockno
    apply Settled.coherent_self again taken ⟨wellformed.ring, wellformed.unique, wellformed.idle⟩
      device
    rw [again.disk]
    exact (update_self log.start cleared loaded.disk).symm
  · refine Settled.coherent again taken (agrees blockno) isStart ?_
    rw [List.map_singleton, List.mem_singleton]
    exact isStart

theorem sound_boot {machine : Machine} {sb : Superblock} (consistent : Consistent machine)
    (unused : ∀ index, (machine.bufs index).refcnt = 0)
    (agrees : ∀ blockno, Log.Coherent machine blockno)
    (log : machine.log = { initlog ROOTDEV sb with lh := [] }) : Sound (System.boot machine) := by
  have exact := consistent.exact
  have nobody : ∀ pid index, ¬ (System.boot machine).Holds pid index := by
    intro pid index held
    rw [System.Holds, show ((System.boot machine).machine.bufs index).holder = none from
      (exact.unused (unused index)).2.1] at held
    cases held
  have awake : ∀ pid, machine.waiting pid = none := by
    intro pid
    cases waits : machine.waiting pid with
    | none => rfl
    | some index => exact absurd (unused index) (exact.counted_of_waiting waits)
  refine ⟨?_, ?_, fun _ => ⟨consistent.distinct, consistent.header⟩, ?_, ?_⟩
  · constructor
    case exact => exact exact
    case fresh => exact fun index onDevice => agrees _ index ⟨onDevice, rfl⟩
    case absent => exact fun _ _ => rfl
    case clean => exact fun index onDevice isValid _ _ => agrees _ index ⟨onDevice, rfl⟩ isValid
    case modified =>
      intro index marked
      cases marked
    case reader =>
      intro pid index reads
      cases reads
    case loaded => exact fun pid index held => absurd held (nobody pid index)
    case asked =>
      rintro pid index (waits | reads)
      · rw [show (System.boot machine).machine.waiting pid = none from awake pid] at waits
        cases waits
      · cases reads
    case awake => exact fun pid => Or.inl (awake pid)
  · have counted : Group.Counted (Group.System.boot ROOTDEV sb : Group.System Pid) :=
      Group.Counted.boot ROOTDEV sb
    have same : view (System.boot machine) = Group.System.boot ROOTDEV sb := by
      unfold view
      rw [show (System.boot machine).machine.log = _ from log]
      rfl
    rw [same]
    exact counted
  · intro pid parts stage committing
    cases committing
  · intro pid parts stage committing
    cases committing

end Shared
end Buffer
end Xv6
