import Xv6.Buffer.Count
import Xv6.Log.Group

namespace Xv6
namespace Buffer
namespace Shared

open Foundation Function
open Log

/-!
# A cache shared by readers, writers and a commit

Processes read, modify, log, write and release buffers, and one of them may be
inside `commit` at the same time.  Nothing that sleeps is atomic here: `bread`
is three steps, since the caller may wait for the lock of its buffer and then
for the disk, and `commit` advances by one such step at a time.  The others go
on between any two of them; they may recycle every buffer that nobody counts.

A commit that runs without the others does what `commit` in `Log.Commit` does,
which is a theorem at the end.

Four components record the past.  `latest` holds the contents that a process
in an operation has last given to each block, by an assignment to the data of its
buffer; `stored` counts the assignments of a commit as well; `dirty` marks a buffer that its holder has modified and neither logged nor
written yet; and `asked` is the block that each process has last passed to
`bread`.
-/

/-! ## The code of a commit -/

/-- The pieces of `commit`: a round of the loop of `write_log` or of
`install_trans`, a call of `write_head`, and the assignment that empties the
header. -/
inductive Part where
  | writeLog (tail entry : Nat)
  | writeHead
  | install (tail entry : Nat)
  | clear
deriving DecidableEq, Repr

/-- What `commit` does with a header.  The header does not change before
`clear`, since no operation is open. -/
def commitParts (lh : List Nat) : List Part :=
  if lh.length > 0 then
    lh.mapIdx Part.writeLog ++ [.writeHead] ++ lh.mapIdx Part.install ++ [.clear, .writeHead]
  else []

/-- How far a part has got, with the buffers in its local variables.  The
first buffer is the one in the log, the second one is the home block. -/
inductive Stage where
  | start
  | wantFirst (first : Index)
  | lockedFirst (first : Index)
  | haveFirst (first : Index)
  | filled (first : Index)
  | wantSecond (first second : Index)
  | lockedSecond (first second : Index)
  | haveBoth (first second : Index)
  | changed (first second : Index)
  | written (first second : Index)
  | unpinned (first second : Index)
  | last (buf : Index)
deriving DecidableEq, Repr

/-- What a process is doing with the log. -/
inductive Mode where
  | outside
  | inside
  | committing (parts : List Part) (stage : Stage)
deriving DecidableEq, Repr

/-- The process runs code of its own, and not `commit`. -/
def Mode.isClient : Mode → Bool
  | .committing _ _ => false
  | _ => true

/-- The machine and the processes.  `reading` is the buffer that a process has
locked in `bread` and whose contents it has not checked yet. -/
structure System where
  machine : Machine
  mode : Pid → Mode
  reading : Pid → Option Index
  asked : Pid → Nat
  dirty : Index → Bool
  stored : Nat → Block
  latest : Nat → Block

/-- The machine after recovery, with all processes outside of operations. -/
def System.boot (machine : Machine) : System where
  machine := machine
  mode := fun _ => .outside
  reading := fun _ => none
  asked := fun _ => 0
  dirty := fun _ => false
  stored := machine.disk
  latest := machine.disk

namespace System

/-- Run a program on the machine and continue with its result. -/
def attempt {α : Type} (system : System) (program : Kernel α) (continue' : α → Machine → System) :
    Outcome Panic System :=
  match program.run system.machine with
  | .ok value machine => .next (continue' value machine)
  | .error .asleep _ => .blocked
  | .error (.panic reason) _ => .halted reason

/-! ## The steps of a call

Each is a step of a process, which is in the given mode afterwards. -/

section

variable (system : System) (pid : Pid)

def bget (blockno : Nat) (mode : Index → Mode) : Outcome Panic System :=
  system.attempt (bgetFind pid system.machine.log.dev blockno) fun index machine =>
    { system with
      machine := machine
      asked := update system.asked pid blockno
      mode := update system.mode pid (mode index) }

def lock (index : Index) (mode : Mode) : Outcome Panic System :=
  system.attempt (acquiresleep pid index) fun _ machine =>
    { system with
      machine := machine
      reading := update system.reading pid (some index)
      mode := update system.mode pid mode }

def read (index : Index) (mode : Mode) : Outcome Panic System :=
  system.attempt (validate index) fun _ machine =>
    { system with
      machine := machine
      reading := update system.reading pid none
      mode := update system.mode pid mode }

def assign (index : Index) (data : Block) (mode : Mode) : Outcome Panic System :=
  system.attempt (modifyData index fun _ => data) fun _ machine =>
    { system with
      machine := machine
      dirty := update system.dirty index true
      stored := update system.stored (system.machine.bufs index).blockno data
      mode := update system.mode pid mode }

end

def bwrite (system : System) (pid : Pid) (index : Index) (mode : Mode) : Outcome Panic System :=
  system.attempt (Buffer.bwrite pid index) fun _ machine =>
    { system with
      machine := machine
      dirty := update system.dirty index false
      mode := update system.mode pid mode }

def bunpin (system : System) (pid : Pid) (index : Index) (mode : Mode) : Outcome Panic System :=
  system.attempt (Buffer.bunpin index) fun _ machine =>
    { system with machine := machine, mode := update system.mode pid mode }

def brelse (system : System) (pid : Pid) (index : Index) (mode : Mode) : Outcome Panic System :=
  system.attempt (Buffer.brelse pid index) fun _ machine =>
    { system with machine := machine, mode := update system.mode pid mode }

section

variable (system : System) (pid : Pid)

def setLog (log : LogState) (mode : Mode) : System :=
  { system with
    machine := { system.machine with log := log }
    mode := update system.mode pid mode }

/-- The next step of `commit`.  When nothing is left, `end_op` clears the flag
`committing`. -/
def advance (parts : List Part) (stage : Stage) : Outcome Panic System :=
  let log := system.machine.log
  let contents := fun index => (system.machine.bufs index).data
  match parts, stage with
  | [], .start => .next (system.setLog pid { log with committing := false } .outside)
  | .clear :: rest, .start =>
    .next (system.setLog pid { log with lh := [] } (.committing rest .start))
  | .writeHead :: _, .start =>
    system.bget pid log.start fun buf => .committing parts (.wantFirst buf)
  | .writeLog tail _ :: _, .start | .install tail _ :: _, .start =>
    system.bget pid (log.start + tail + 1) fun buf => .committing parts (.wantFirst buf)
  | _, .wantFirst buf => system.lock pid buf (.committing parts (.lockedFirst buf))
  | _, .lockedFirst buf => system.read pid buf (.committing parts (.haveFirst buf))
  | .writeHead :: _, .haveFirst buf =>
    system.assign pid buf (encodeHeader log.lh (contents buf)) (.committing parts (.filled buf))
  | _, .filled buf => system.bwrite pid buf (.committing parts (.last buf))
  | .writeLog _ entry :: _, .haveFirst first | .install _ entry :: _, .haveFirst first =>
    system.bget pid entry fun buf => .committing parts (.wantSecond first buf)
  | _, .wantSecond first buf => system.lock pid buf (.committing parts (.lockedSecond first buf))
  | _, .lockedSecond first buf => system.read pid buf (.committing parts (.haveBoth first buf))
  | .writeLog _ _ :: _, .haveBoth target source =>
    system.assign pid target (contents source) (.committing parts (.changed target source))
  | .writeLog _ _ :: _, .changed target source =>
    system.bwrite pid target (.committing parts (.written target source))
  | .writeLog _ _ :: _, .written target source =>
    system.brelse pid source (.committing parts (.last target))
  | .install _ _ :: _, .haveBoth lbuf dbuf =>
    system.assign pid dbuf (contents lbuf) (.committing parts (.changed lbuf dbuf))
  | .install _ _ :: _, .changed lbuf dbuf =>
    system.bwrite pid dbuf (.committing parts (.written lbuf dbuf))
  | .install _ _ :: _, .written lbuf dbuf =>
    system.bunpin pid dbuf (.committing parts (.unpinned lbuf dbuf))
  | .install _ _ :: _, .unpinned lbuf dbuf =>
    system.brelse pid lbuf (.committing parts (.last dbuf))
  | _ :: rest, .last buf => system.brelse pid buf (.committing rest .start)
  | _, _ => .blocked

/-- The process runs its own code and is not in a call. -/
def Ready : Prop :=
  system.machine.waiting pid = none ∧ system.reading pid = none ∧ (system.mode pid).isClient = true

end

instance (system : System) (pid : Pid) : Decidable (system.Ready pid) :=
  inferInstanceAs (Decidable (_ ∧ _ ∧ _))

/-- The process has locked the buffer. -/
def Holds (system : System) (pid : Pid) (index : Index) : Prop :=
  (system.machine.bufs index).holder = some pid

instance (system : System) (pid : Pid) (index : Index) : Decidable (system.Holds pid index) :=
  inferInstanceAs (Decidable (_ = _))

/-- All that the process has modified is logged or written. -/
def Tidy (system : System) (pid : Pid) : Prop :=
  ∀ index, system.Holds pid index → system.dirty index = false

instance (system : System) (pid : Pid) : Decidable (system.Tidy pid) :=
  inferInstanceAs (Decidable (∀ _, _ → _))

end System

/-- The steps of the processes.  `bread` is `bget`, `lock` and `read`; a step
of `commit` is taken by the process that ended the last operation. -/
inductive Action where
  | bget (pid : Pid) (blockno : Nat)
  | lock (pid : Pid)
  | read (pid : Pid)
  | assign (pid : Pid) (index : Index) (data : Block)
  | bwrite (pid : Pid) (index : Index)
  | brelse (pid : Pid) (index : Index)
  | beginOp (pid : Pid)
  | logWrite (pid : Pid) (index : Index)
  | endOp (pid : Pid)
  | commit (pid : Pid)

/-- One step.  It is blocked when the caller has to sleep, or when the buffer
protocol forbids the call: the holder of a buffer modifies it inside an
operation, and logs or writes what it has modified before it releases the
buffer or ends the operation. -/
def step (system : System) : Action → Outcome Panic System
  | .bget pid blockno =>
    if system.Ready pid then system.bget pid blockno fun _ => system.mode pid else .blocked
  | .lock pid =>
    match system.machine.waiting pid with
    | some index =>
      if (system.mode pid).isClient then system.lock pid index (system.mode pid) else .blocked
    | none => .blocked
  | .read pid =>
    match system.reading pid with
    | some index =>
      if (system.mode pid).isClient then system.read pid index (system.mode pid) else .blocked
    | none => .blocked
  | .assign pid index data =>
    if system.Ready pid ∧ system.Holds pid index ∧ system.mode pid = .inside then
      { system with
        latest := update system.latest (system.machine.bufs index).blockno data
      }.assign pid index data .inside
    else .blocked
  | .bwrite pid index =>
    if system.Ready pid ∧ system.Holds pid index then
      system.bwrite pid index (system.mode pid)
    else .blocked
  | .brelse pid index =>
    if system.Ready pid ∧ system.Holds pid index ∧ system.dirty index = false then
      system.brelse pid index (system.mode pid)
    else .blocked
  | .beginOp pid =>
    if system.Ready pid ∧ system.mode pid = .outside then
      match Log.beginOp system.machine.log with
      | some log => .next (system.setLog pid log .inside)
      | none => .blocked
    else .blocked
  | .logWrite pid index =>
    if system.Ready pid ∧ system.Holds pid index ∧ system.mode pid = .inside then
      system.attempt (Buffer.logWrite index) fun _ machine =>
        { system with machine := machine, dirty := update system.dirty index false }
    else .blocked
  | .endOp pid =>
    if system.Ready pid ∧ system.mode pid = .inside ∧ system.Tidy pid then
      match Log.endOp system.machine.log with
      | .error reason => .halted reason
      | .ok (log, false) => .next (system.setLog pid log .outside)
      | .ok (log, true) =>
        .next (system.setLog pid log (.committing (commitParts log.lh) .start))
    else .blocked
  | .commit pid =>
    match system.mode pid with
    | .committing parts stage => system.advance pid parts stage
    | _ => .blocked

/-! ## A commit that nobody disturbs -/

/-- If only the committing process runs, it gets from one machine and mode to
another. -/
def Leads (pid : Pid) (before : Machine) (mode : Mode) (after : Machine) (mode' : Mode) : Prop :=
  ∀ system : System, system.machine = before → system.mode pid = mode →
    ∃ steps next, exec step system (List.replicate steps (.commit pid)) = .next next ∧
      next.machine = after ∧ next.mode pid = mode'

theorem Leads.refl (pid : Pid) (machine : Machine) (mode : Mode) :
    Leads pid machine mode machine mode :=
  fun system same isMode => ⟨0, system, rfl, same, isMode⟩

variable {pid : Pid} {before after : Machine}

theorem Leads.trans {middle : Machine} {mode mode' mode'' : Mode}
    (first : Leads pid before mode middle mode') (second : Leads pid middle mode' after mode'') :
    Leads pid before mode after mode'' := by
  intro system same isMode
  rcases first system same isMode with ⟨steps, next, reached, sameNext, isModeNext⟩
  rcases second next sameNext isModeNext with ⟨more, final, reachedFinal, result⟩
  refine ⟨steps + more, final, ?_, result⟩
  rw [List.replicate_add, exec_append, reached]
  exact reachedFinal

theorem Leads.attempt {α : Type} {parts : List Part}
    {stage : Stage} {program : Kernel α} {value : α} (mode : α → Mode)
    (ran : program.run before = .ok value after)
    (isStep : ∀ system : System, system.machine = before → ∃ reading asked dirty stored,
      system.advance pid parts stage = system.attempt program fun value machine =>
        ⟨machine, update system.mode pid (mode value), reading, asked, dirty, stored, system.latest⟩) :
    Leads pid before (.committing parts stage) after (mode value) := by
  intro system same isMode
  rcases isStep system same with ⟨reading, asked, dirty, stored, isAttempt⟩
  refine ⟨1, ⟨after, update system.mode pid (mode value), reading, asked, dirty, stored,
    system.latest⟩, ?_, rfl, update_self _ _ _⟩
  rw [List.replicate_one, exec_singleton]
  simp only [step, isMode, isAttempt, System.attempt, same, ran]

variable {entries : List Nat}

section

variable {parts rest : List Part} {stage : Stage} {blockno : Nat} {index : Index} {mode : Mode}
  {tail entry : Nat}

/-- A step of a commit that returns nothing. -/
theorem Leads.call {program : Kernel PUnit} (ran : program.run before = .ok ⟨⟩ after)
    (isStep : ∀ system : System, system.machine = before → ∃ reading asked dirty stored,
      system.advance pid parts stage = system.attempt program fun _ machine =>
        ⟨machine, update system.mode pid mode, reading, asked, dirty, stored, system.latest⟩) :
    Leads pid before (.committing parts stage) after mode :=
  Leads.attempt (fun _ => mode) ran isStep

theorem leads_bread (want locked got : Index → Stage)
    (ran : (bread pid before.log.dev blockno).run before = .ok index after)
    (isBget : ∀ system : System, system.machine = before → system.advance pid parts stage =
      system.bget pid blockno fun buf => .committing parts (want buf))
    (isLock : ∀ (system : System) buf, system.advance pid parts (want buf) =
      system.lock pid buf (.committing parts (locked buf)))
    (isRead : ∀ (system : System) buf, system.advance pid parts (locked buf) =
      system.read pid buf (.committing parts (got buf))) :
    Leads pid before (.committing parts stage) after (.committing parts (got index)) := by
  simp only [bread, bget, run_bind_eq_ok] at ran
  rcases ran with ⟨buf, acquired, ⟨found, reserved, isFound, _, _, isAcquired, returned⟩, _, loaded,
    isLoaded, returnedAgain⟩
  cases returned
  cases returnedAgain
  have first : Leads pid before (.committing parts stage) reserved
      (.committing parts (want index)) :=
    Leads.attempt (fun buf => .committing parts (want buf)) isFound fun system same =>
      ⟨_, _, _, _, (isBget system same).trans (by rw [System.bget, same])⟩
  have second : Leads pid reserved (.committing parts (want index)) acquired
      (.committing parts (locked index)) :=
    Leads.call isAcquired fun system _ => ⟨_, _, _, _, isLock system index⟩
  have third : Leads pid acquired (.committing parts (locked index)) after
      (.committing parts (got index)) :=
    Leads.call isLoaded fun system _ => ⟨_, _, _, _, isRead system index⟩
  exact (first.trans second).trans third

theorem leads_assign (data : Block) (mode : Mode)
    (ran : (modifyData index fun _ => data).run before = .ok ⟨⟩ after)
    (isStep : ∀ system : System, system.machine = before →
      system.advance pid parts stage = system.assign pid index data mode) :
    Leads pid before (.committing parts stage) after mode :=
  Leads.call ran fun system same => ⟨_, _, _, _, isStep system same⟩

variable {log : LogState}

theorem keepsLog_bread {dev : Nat} : Keeps (·.log = log) (bread pid dev blockno) := by
  intro machine same
  simp only [bread, bget, bgetFind, wp_bind, wp_get]
  split
  · simp only [wp_bind, wp_set, wp_pure, acquiresleep, validate, diskRead, wp_get, wp_ite]
    simp [same]
  · split
    · simp only [wp_bind, wp_set, wp_pure, acquiresleep, validate, diskRead, wp_get, wp_ite]
      simp [same]
    · simp

theorem keepsLog_bwrite : Keeps (·.log = log) (Buffer.bwrite pid index) := by
  intro machine same
  simp [Buffer.bwrite, diskWrite, wp_ite, same]

theorem keepsLog_brelse : Keeps (·.log = log) (Buffer.brelse pid index) := by
  intro machine same
  simp [Buffer.brelse, decrement, wp_ite, same]

theorem keepsLog_modifyData {change : Block → Block} :
    Keeps (·.log = log) (modifyData index change) :=
  keeps_modify fun _ same => same

theorem keepsLog_writeHead : Keeps (·.log = log) (writeHead pid) :=
  keeps_bind keeps_get fun _ => keeps_bind keepsLog_bread fun _ =>
    keepsLog_modifyData.seq (keepsLog_bwrite.seq keepsLog_brelse)

theorem keepsLog_writeLogBlock : Keeps (·.log = log) (writeLogBlock pid tail entry) :=
  keeps_bind keeps_get fun _ => keeps_bind keepsLog_bread fun _ => keeps_bind keepsLog_bread
    fun _ => keeps_bind keeps_get fun _ => keepsLog_modifyData.seq
      (keepsLog_bwrite.seq (keepsLog_brelse.seq keepsLog_brelse))

theorem log_of_bread {dev : Nat} (ran : (bread pid dev blockno).run before = .ok index after) :
    after.log = before.log :=
  (wp_of_run ran).mp (keepsLog_bread before rfl)

theorem leads_writeHead (ran : (writeHead pid).run before = .ok ⟨⟩ after) :
    Leads pid before (.committing (.writeHead :: rest) .start) after (.committing rest .start) := by
  simp only [writeHead, run_bind_eq_ok] at ran
  rcases ran with ⟨_, _, got, buf, loaded, isLoaded, _, filled, isFilled, _, written, isWritten,
    isReleased⟩
  cases got
  have log := log_of_bread isLoaded
  refine (leads_bread .wantFirst .lockedFirst .haveFirst isLoaded (fun _ same => same ▸ rfl)
    (fun _ _ => rfl) fun _ _ => rfl).trans ?_
  rw [← log] at isFilled
  refine (leads_assign (encodeHeader loaded.log.lh (loaded.bufs buf).data)
    (.committing (.writeHead :: rest) (.filled buf)) isFilled fun _ same => same ▸ rfl).trans ?_
  refine (Leads.call isWritten fun _ _ => ⟨_, _, _, _, rfl⟩).trans ?_
  exact Leads.call isReleased fun _ _ => ⟨_, _, _, _, rfl⟩

theorem leads_writeLogBlock (ran : (writeLogBlock pid tail entry).run before = .ok ⟨⟩ after) :
    Leads pid before (.committing (.writeLog tail entry :: rest) .start) after
      (.committing rest .start) := by
  simp only [writeLogBlock, run_bind_eq_ok] at ran
  rcases ran with ⟨_, _, got, target, first, isFirst, source, second, isSecond, _, _, gotAgain, _,
    changed, isChanged, _, written, isWritten, _, released, isReleased, isReleasedToo⟩
  cases got
  cases gotAgain
  refine (leads_bread .wantFirst .lockedFirst .haveFirst isFirst (fun _ same => same ▸ rfl)
    (fun _ _ => rfl) fun _ _ => rfl).trans ?_
  rw [← log_of_bread isFirst] at isSecond
  refine (leads_bread (.wantSecond target) (.lockedSecond target) (.haveBoth target) isSecond
    (fun _ _ => rfl) (fun _ _ => rfl) fun _ _ => rfl).trans ?_
  refine (leads_assign (second.bufs source).data
    (.committing (.writeLog tail entry :: rest) (.changed target source)) isChanged
    fun _ same => same ▸ rfl).trans ?_
  refine (Leads.call isWritten fun _ _ => ⟨_, _, _, _, rfl⟩).trans ?_
  refine (Leads.call isReleased fun _ _ => ⟨_, _, _, _, rfl⟩).trans ?_
  exact Leads.call isReleasedToo fun _ _ => ⟨_, _, _, _, rfl⟩

theorem leads_installBlock (ran : (installBlock pid tail entry).run before = .ok ⟨⟩ after) :
    Leads pid before (.committing (.install tail entry :: rest) .start) after
      (.committing rest .start) := by
  simp only [installBlock, run_bind_eq_ok] at ran
  rcases ran with ⟨_, _, got, lbuf, first, isFirst, dbuf, second, isSecond, _, _, gotAgain, _,
    changed, isChanged, _, written, isWritten, _, unpinned, isUnpinned, _, released, isReleased,
    isReleasedToo⟩
  cases got
  cases gotAgain
  refine (leads_bread .wantFirst .lockedFirst .haveFirst isFirst (fun _ same => same ▸ rfl)
    (fun _ _ => rfl) fun _ _ => rfl).trans ?_
  rw [← log_of_bread isFirst] at isSecond
  refine (leads_bread (.wantSecond lbuf) (.lockedSecond lbuf) (.haveBoth lbuf) isSecond
    (fun _ _ => rfl) (fun _ _ => rfl) fun _ _ => rfl).trans ?_
  refine (leads_assign (second.bufs lbuf).data
    (.committing (.install tail entry :: rest) (.changed lbuf dbuf)) isChanged
    fun _ same => same ▸ rfl).trans ?_
  refine (Leads.call isWritten fun _ _ => ⟨_, _, _, _, rfl⟩).trans ?_
  refine (Leads.call isUnpinned fun _ _ => ⟨_, _, _, _, rfl⟩).trans ?_
  refine (Leads.call isReleased fun _ _ => ⟨_, _, _, _, rfl⟩).trans ?_
  exact Leads.call isReleasedToo fun _ _ => ⟨_, _, _, _, rfl⟩

variable {body : Nat → Nat → Kernel PUnit}

theorem keepsLog_forEntries (each : ∀ tail entry, Keeps (·.log = log) (body tail entry)) :
    Keeps (·.log = log) (forEntries body tail entries) := by
  induction entries generalizing tail with
  | nil => exact keeps_pure
  | cons entry rest ih => exact (each tail entry).seq ih

section

variable (part : Nat → Nat → Part)
  (each : ∀ tail entry before after rest, (body tail entry).run before = .ok ⟨⟩ after →
    Leads pid before (.committing (part tail entry :: rest) .start) after (.committing rest .start))
include part each

theorem leads_forEntries (ran : (forEntries body tail entries).run before = .ok ⟨⟩ after) :
    Leads pid before
      (.committing ((entries.mapIdx fun round => part (tail + round)) ++ rest) .start) after
      (.committing rest .start) := by
  induction entries generalizing tail before with
  | nil =>
    cases ran
    exact Leads.refl pid after _
  | cons entry others ih =>
    rw [forEntries, run_bind_eq_ok] at ran
    rcases ran with ⟨_, middle, first, later⟩
    have shifted : (fun round => part (tail + (round + 1))) =
        fun round => part (tail + 1 + round) := by
      funext round
      rw [Nat.add_right_comm, Nat.add_assoc]
    rw [List.mapIdx_cons, shifted]
    exact (each tail entry before middle _ first).trans (ih later)

theorem leads_loop (ran : (forEntries body 0 entries).run before = .ok ⟨⟩ after) :
    Leads pid before (.committing (entries.mapIdx part ++ rest) .start) after
      (.committing rest .start) := by
  have fromZero : (fun round => part (0 + round)) = part := by
    funext round
    rw [Nat.zero_add]
  have leads : Leads pid before
      (.committing ((entries.mapIdx fun round => part (0 + round)) ++ rest) .start) after _ :=
    leads_forEntries part each ran
  rwa [fromZero] at leads

end

theorem leads_clear : Leads pid before (.committing (.clear :: rest) .start)
    { before with log := { before.log with lh := [] } } (.committing rest .start) := by
  intro system same isMode
  refine ⟨1, system.setLog pid { system.machine.log with lh := [] } (.committing rest .start), ?_, ?_,
    ?_⟩
  · rw [List.replicate_one, exec_singleton]
    simp only [step, isMode]
    rfl
  · rw [← same]
    rfl
  · exact update_self _ _ _

/-- A commit that nobody disturbs does what `commit` does. -/
theorem leads_commit (ran : (Log.commit pid).run before = .ok ⟨⟩ after) :
    Leads pid before (.committing (commitParts before.log.lh) .start) after
      (.committing [] .start) := by
  simp only [Log.commit, run_bind_eq_ok] at ran
  rcases ran with ⟨_, _, got, committed⟩
  cases got
  by_cases filled : before.log.lh.length > 0
  · rw [if_pos filled] at committed
    simp only [writeLog, installTrans, run_bind_eq_ok] at committed
    rcases committed with ⟨_, logged, ⟨_, _, got, isLogged⟩, _, headed, isHeaded, _, installed,
      ⟨_, _, gotAgain, isInstalled⟩, _, cleared, isCleared, isDone⟩
    cases got
    cases gotAgain
    cases isCleared
    have loggedLog : logged.log = before.log := (wp_of_run isLogged).mp
      (keepsLog_forEntries (fun _ _ => keepsLog_writeLogBlock) before rfl)
    have log : headed.log = before.log :=
      (wp_of_run isHeaded).mp (keepsLog_writeHead logged loggedLog)
    rw [log] at isInstalled
    rw [commitParts, if_pos filled, List.append_assoc, List.append_assoc]
    refine (leads_loop .writeLog (fun _ _ _ _ _ => leads_writeLogBlock) isLogged).trans ?_
    refine (leads_writeHead isHeaded).trans ?_
    refine (leads_loop .install (fun _ _ _ _ _ => leads_installBlock) isInstalled).trans ?_
    exact leads_clear.trans (leads_writeHead isDone)
  · rw [if_neg filled] at committed
    cases committed
    rw [commitParts, if_neg filled]
    exact Leads.refl pid _ _

theorem leads_commit_oneLoggedBlock : ∃ after, Leads 0 oneLoggedBlock
    (.committing (commitParts [100]) .start) after (.committing [] .start) := by
  rcases wp_false_iff.mp (commit_wp 0 oneLoggedBlock_ready (by decide)) with ⟨_, after, ran, _⟩
  exact ⟨after, leads_commit ran⟩

end

/-! ## What the cache promises -/

/-- The block belongs to the log. -/
def InLog (log : LogState) (block : Nat) : Prop :=
  log.start ≤ block ∧ block < log.start + log.size

instance (log : LogState) (block : Nat) : Decidable (InLog log block) :=
  inferInstanceAs (Decidable (_ ∧ _))

/-- The cache refines the disk: a process that has come back from `bread`
finds in its buffer what the block was last given, no block is cached twice,
and the list of buffers is one ring through all of them.  The blocks of the log
are left to the commits. -/
structure Refines (system : System) : Prop where
  /-- The step that ends a `bread` returns the block that was asked for, with
  its latest contents. -/
  returns : ∀ pid next, step system (.read pid) = .next next →
    ∃ index, system.reading pid = some index ∧ next.Holds pid index ∧
      next.machine.Keyed next.machine.log.dev (system.asked pid) index ∧
      (next.machine.bufs index).valid = true ∧
      (¬ InLog system.machine.log (system.asked pid) →
        (next.machine.bufs index).data = next.latest (system.asked pid))
  /-- As long as the buffer is held, nobody else changes its block. -/
  holds : ∀ pid index, system.Holds pid index → system.reading pid ≠ some index →
    (system.machine.bufs index).valid = true ∧
      (¬ InLog system.machine.log (system.machine.bufs index).blockno →
        (system.machine.bufs index).data = system.latest (system.machine.bufs index).blockno)
  unique : ∀ first second, (system.machine.bufs first).dev ≠ 0 →
    (system.machine.bufs first).dev = (system.machine.bufs second).dev →
    (system.machine.bufs first).blockno = (system.machine.bufs second).blockno → first = second
  ring : Complete system.machine.ring

end Shared
end Buffer
end Xv6
